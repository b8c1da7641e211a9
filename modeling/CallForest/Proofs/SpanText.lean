import CallForest.Source.Span

/-!
# The text of a span

A span can be made between two byte offsets of a text if they are in order, inside the text and
between characters; how many bytes the characters take up does not matter. Every span, in whatever
way it was made, shows the bytes between its offsets, and these are some whole characters of its
source. Spans that adjoin can be joined, and the joint span shows both texts in a row.
-/

namespace CallForest
namespace Span

/-!
# Boundaries
-/

/-- Some characters at the front of a text take up as many bytes as an offset says. So the offset is
at an end of the text or between two of its characters. -/
def OnBoundary (source : String) (offset : Nat) : Prop :=
  exists before after : String, source = before ++ after ∧ before.utf8ByteSize = offset

def StandsAt (source : String) (start stop : Nat) (t : String) : Prop :=
  exists before after : String, source = before ++ t ++ after ∧ before.utf8ByteSize = start ∧
    start + t.utf8ByteSize = stop

section

variable {source : String} {offset start stop : Nat} {path : Option Text.Path} {s : Span}

theorem isValid_iff_onBoundary :
    (⟨offset⟩ : String.Pos.Raw).IsValid source <-> OnBoundary source offset := by
  rw [String.Pos.Raw.isValid_iff_exists_append, OnBoundary]
  simp only [String.Pos.Raw.ext_iff, String.byteIdx_rawEndPos, eq_comm]

theorem onBoundary_iff_firstByte :
    OnBoundary source offset <-> offset = source.utf8ByteSize ∨
      exists h : offset < source.utf8ByteSize,
        (source.getUTF8Byte ⟨offset⟩ h).IsUTF8FirstByte := by
  rw [← isValid_iff_onBoundary, String.Pos.Raw.isValid_iff_isUTF8FirstByte]
  simp only [String.Pos.Raw.ext_iff, String.byteIdx_rawEndPos]
  rfl

theorem pos?_eq_some_iff {p : source.Pos} :
    source.pos? ⟨offset⟩ = some p <-> p.offset.byteIdx = offset := by
  rw [String.pos?, String.Slice.pos?]
  split
  · simp [String.Pos.ext_iff, String.Pos.Raw.ext_iff, eq_comm]
  · next hinvalid =>
      rw [Option.map_none, eq_comm, iff_false_left (by simp)]
      rintro rfl
      apply hinvalid
      rw [String.Pos.Raw.isValidForSlice_eq_true_iff, String.Pos.Raw.isValidForSlice_toSlice_iff]
      exact p.isValid

/-!
# Making spans
-/

theorem ofRange?_eq_some_iff :
    ofRange? source start stop path = some s <->
      s.source = source ∧ s.startOffset = start ∧ s.stopOffset = stop ∧ s.path = path := by
  constructor
  · intro h
    rw [ofRange?] at h
    split at h
    · next first last hfirst hlast =>
        split at h
        · cases h
          exact ⟨rfl, pos?_eq_some_iff.mp hfirst, pos?_eq_some_iff.mp hlast, rfl⟩
        · cases h
    · cases h
  · rintro ⟨rfl, rfl, rfl, rfl⟩
    have hstart : s.source.pos? ⟨s.startOffset⟩ = some s.start := pos?_eq_some_iff.mpr rfl
    have hstop : s.source.pos? ⟨s.stopOffset⟩ = some s.stop := pos?_eq_some_iff.mpr rfl
    simp only [ofRange?, hstart, hstop, dif_pos s.start_le_stop]

theorem exists_ofRange?_iff :
    (exists s, ofRange? source start stop path = some s) <->
      start ≤ stop ∧ stop ≤ source.utf8ByteSize ∧ OnBoundary source start ∧
        OnBoundary source stop := by
  rw [← isValid_iff_onBoundary, ← isValid_iff_onBoundary]
  constructor
  · rintro ⟨s, h⟩
    rcases ofRange?_eq_some_iff.mp h with ⟨rfl, rfl, rfl, rfl⟩
    exact ⟨s.start_le_stop, s.stop.isValid.le_utf8ByteSize, s.start.isValid, s.stop.isValid⟩
  · rintro ⟨hle, _, hstart, hstop⟩
    exact ⟨⟨source, ⟨⟨start⟩, hstart⟩, ⟨⟨stop⟩, hstop⟩, hle, path⟩,
      ofRange?_eq_some_iff.mpr ⟨rfl, rfl, rfl, rfl⟩⟩

end

/-!
# Texts
-/

theorem toByteArray_text (s : Span) :
    s.text.toByteArray = s.source.toByteArray.extract s.startOffset s.stopOffset :=
  String.toByteArray_extract

theorem stopOffset_le_size (s : Span) : s.stopOffset ≤ s.source.toByteArray.size := by
  rw [String.size_toByteArray]
  exact s.stop.isValid.le_utf8ByteSize

theorem standsAt_text (s : Span) : StandsAt s.source s.startOffset s.stopOffset s.text := by
  have hle : s.startOffset ≤ s.stopOffset := s.start_le_stop
  have hstop := s.stopOffset_le_size
  refine ⟨String.extract s.source.startPos s.start, String.extract s.stop s.source.endPos, ?_, ?_,
    ?_⟩
  · have hbytes : s.source.toByteArray =
        s.source.toByteArray.extract 0 s.startOffset ++
          s.source.toByteArray.extract s.startOffset s.stopOffset ++
          s.source.toByteArray.extract s.stopOffset s.source.toByteArray.size := by
      rw [← ByteArray.extract_eq_extract_append_extract _ (Nat.zero_le _) hle,
        ← ByteArray.extract_eq_extract_append_extract _ (Nat.zero_le _) hstop,
        ByteArray.extract_zero_size]
    rw [← String.toByteArray_inj, String.toByteArray_append, String.toByteArray_append,
      String.toByteArray_extract, String.toByteArray_extract, toByteArray_text]
    rw [String.size_toByteArray] at hbytes
    exact hbytes
  · have hsize : min s.startOffset s.source.toByteArray.size - 0 = s.startOffset := by
      omega
    rw [← String.size_toByteArray, String.toByteArray_extract, ByteArray.size_extract]
    exact hsize
  · rw [← String.size_toByteArray, toByteArray_text, ByteArray.size_extract]
    omega

theorem text_ofText (source : String) : (ofText source).text = source := by
  rw [← String.toByteArray_inj, toByteArray_text]
  show source.toByteArray.extract 0 source.utf8ByteSize = source.toByteArray
  rw [← String.size_toByteArray, ByteArray.extract_zero_size]

theorem exists_joined {source : String} {a b c : Nat} {path path' : Option Text.Path} {s t : Span}
    (hs : ofRange? source a b path = some s) (ht : ofRange? source b c path' = some t)
    (joint : Option Text.Path) :
    exists u, ofRange? source a c joint = some u ∧ u.text = s.text ++ t.text := by
  rcases exists_ofRange?_iff.mp ⟨s, hs⟩ with ⟨hab, _, ha, _⟩
  rcases exists_ofRange?_iff.mp ⟨t, ht⟩ with ⟨hbc, hsize, _, hc⟩
  rcases exists_ofRange?_iff.mpr ⟨Nat.le_trans hab hbc, hsize, ha, hc⟩ with ⟨u, hu⟩
  refine ⟨u, hu, ?_⟩
  rcases ofRange?_eq_some_iff.mp hs with ⟨hsSource, hsStart, hsStop, _⟩
  rcases ofRange?_eq_some_iff.mp ht with ⟨htSource, htStart, htStop, _⟩
  rcases ofRange?_eq_some_iff.mp hu with ⟨huSource, huStart, huStop, _⟩
  rw [← String.toByteArray_inj, String.toByteArray_append, toByteArray_text, toByteArray_text,
    toByteArray_text, hsSource, htSource, huSource, hsStart, hsStop, htStart, htStop, huStart,
    huStop]
  exact ByteArray.extract_eq_extract_append_extract b hab hbc

/-!
# Spans and their sources
-/

/-- Spans of a text are made between boundaries in order. At a boundary the text ends, or there is the
first byte of a character. A span can be made of the whole text, and of what two adjoining spans
show. -/
structure CutAtBoundaries (source : String) : Prop where
  boundary_iff : forall offset, OnBoundary source offset <-> offset = source.utf8ByteSize ∨
    exists h : offset < source.utf8ByteSize, (source.getUTF8Byte ⟨offset⟩ h).IsUTF8FirstByte
  exists_iff : forall start stop path, (exists s, ofRange? source start stop path = some s) <->
    start ≤ stop ∧ stop ≤ source.utf8ByteSize ∧ OnBoundary source start ∧ OnBoundary source stop
  made : forall start stop path s, ofRange? source start stop path = some s ->
    s.source = source ∧ s.startOffset = start ∧ s.stopOffset = stop ∧ s.path = path
  whole : (ofText source).text = source
  joined : forall a b c path path' s t, ofRange? source a b path = some s ->
    ofRange? source b c path' = some t -> forall joint,
      exists u, ofRange? source a c joint = some u ∧ u.text = s.text ++ t.text

structure ShowsItsRange (s : Span) : Prop where
  checked : ofRange? s.source s.startOffset s.stopOffset s.path = some s
  standsAt : StandsAt s.source s.startOffset s.stopOffset s.text
  toByteArray_eq : s.text.toByteArray = s.source.toByteArray.extract s.startOffset s.stopOffset

theorem spans_fit_their_sources :
    (forall source, CutAtBoundaries source) ∧ forall s : Span, s.ShowsItsRange := by
  refine ⟨fun source => ?_, fun s => ?_⟩
  · exact {
      boundary_iff := fun _ => onBoundary_iff_firstByte
      exists_iff := fun _ _ _ => exists_ofRange?_iff
      made := fun _ _ _ _ => ofRange?_eq_some_iff.mp
      whole := text_ofText source
      joined := fun _ _ _ _ _ _ _ => exists_joined }
  · exact ⟨ofRange?_eq_some_iff.mpr ⟨rfl, rfl, rfl, rfl⟩, s.standsAt_text, s.toByteArray_text⟩

theorem spans_fit_wide_characters :
    (exists s t u, ofRange? "aé∀" 0 3 none = some s ∧ ofRange? "aé∀" 3 6 none = some t ∧
      ofRange? "aé∀" 0 6 none = some u ∧ u.text = s.text ++ t.text) ∧
      ¬ exists s, ofRange? "aé∀" 0 2 none = some s := by
  have hfits := spans_fit_their_sources.1 "aé∀"
  have hfirst : OnBoundary "aé∀" 0 := ⟨"", "aé∀", by decide, by decide⟩
  have hsecond : OnBoundary "aé∀" 3 := ⟨"aé", "∀", by decide, by decide⟩
  have hlast : OnBoundary "aé∀" 6 := ⟨"aé∀", "", by decide, by decide⟩
  have hinside : ¬ OnBoundary "aé∀" 2 := by
    rw [hfits.boundary_iff]
    decide
  constructor
  · rcases (hfits.exists_iff 0 3 none).mpr ⟨by decide, by decide, hfirst, hsecond⟩ with ⟨s, hs⟩
    rcases (hfits.exists_iff 3 6 none).mpr ⟨by decide, by decide, hsecond, hlast⟩ with ⟨t, ht⟩
    rcases hfits.joined 0 3 6 none none s t hs ht none with ⟨u, hu, htext⟩
    exact ⟨s, t, u, hs, ht, hu, htext⟩
  · intro hspan
    exact hinside ((hfits.exists_iff 0 2 none).mp hspan).2.2.2

end Span
end CallForest
