import CallForest.Proofs.Overriding

/-!
# The first match

A virtual call runs the first function that agrees with the declared one, among the functions that
the contracts of the linearization list, contract by contract. The search ends there, so it depends
on the functions up to the match alone, and on no more of them than their profiles: neither on spans
nor on the declarations behind the types of callables, at whatever depth.
-/

namespace CallForest

/-- A function has the name of another one, and the same types of parameters and of returns, position
by position. -/
structure FunctionDecl.AgreesWith (candidate f : FunctionDecl) : Prop where
  name : candidate.name.text = f.name.text
  parameters : List.Forall₂ (fun p q => (p.type == q.type) = true) candidate.parameters f.parameters
  returns : List.Forall₂ (fun p q => (p.type == q.type) = true) candidate.returns f.returns

namespace Store

def Agrees (s : Store) (f : FunctionDecl) (id : FunctionId) : Prop :=
  exists candidate, s.function id = .ok candidate ∧ candidate.AgreesWith f

def listedFunctions (s : Store) (ids : List ContractId) : Except Fault (List FunctionId) := do
  let contracts ← ids.mapM s.contract
  pure (contracts.flatMap (·.functions))

/-- Some functions are the first ones that some contracts list. Nothing is said of what comes after
them. -/
inductive ListsFirst (s : Store) : List ContractId -> List FunctionId -> Prop where
  | nothing {ids : List ContractId} :
      ListsFirst s ids []
  | part {id : ContractId} {ids : List ContractId} {contract : ContractDecl}
      {first later : List FunctionId} :
      s.contract id = .ok contract -> contract.functions = first ++ later ->
      ListsFirst s (id :: ids) first
  | whole {id : ContractId} {ids : List ContractId} {contract : ContractDecl}
      {first : List FunctionId} :
      s.contract id = .ok contract -> ListsFirst s ids first ->
      ListsFirst s (id :: ids) (contract.functions ++ first)

/-- What a scan of some functions for one that agrees with `f` goes through, and what it finds. -/
inductive Scans (s : Store) (f : FunctionDecl) (listed : List FunctionId) :
    List FunctionId -> Option FunctionId -> Prop where
  | found {earlier later : List FunctionId} {g : FunctionId} :
      listed = earlier ++ g :: later -> s.Agrees f g ->
      (forall e, e ∈ earlier -> ¬ s.Agrees f e) ->
      Scans s f listed (earlier ++ [g]) (some g)
  | missed :
      (forall e, e ∈ listed -> ¬ s.Agrees f e) ->
      Scans s f listed listed none

/-- A function of one store is kept in another one up to spans, to the declarations behind the types
of callables, and to what a call does not show, such as its body. -/
def Respells (s s' : Store) (id : FunctionId) : Prop :=
  exists decl decl', s.function id = .ok decl ∧ s'.function id = .ok decl' ∧
    decl'.profile = decl.profile ∧ decl'.isVirtual = decl.isVirtual ∧ decl'.kind = decl.kind

/-- What a call of a function is dispatched to. A function that is not virtual, or a constructor,
runs itself. Any other runs the first one that agrees with it, and itself if there is none. This
stays so in each store and along each linearization that lists the same functions up to the first
match, all of them respelled at most. -/
structure PicksFirstMatch (s : Store) (linearization : List ContractId) (id : FunctionId)
    (f : FunctionDecl) (target : FunctionId) : Prop where
  bound : f.isVirtual = false ∨ f.kind = .constructor -> target = id
  dispatched : f.isVirtual = true -> f.kind ≠ .constructor -> exists listed scanned found,
    s.listedFunctions linearization = .ok listed ∧ s.Scans f listed scanned found ∧
      target = found.getD id
  bound_respelled : f.isVirtual = false ∨ f.kind = .constructor ->
    forall s' linearization', s.Respells s' id -> s'.finalOverride linearization' id = .ok target
  found_respelled : forall listed scanned g, f.isVirtual = true -> f.kind ≠ .constructor ->
    s.listedFunctions linearization = .ok listed -> s.Scans f listed scanned (some g) ->
    forall s' linearization', (forall e, e ∈ id :: scanned -> s.Respells s' e) ->
      s'.ListsFirst linearization' scanned -> s'.finalOverride linearization' id = .ok target
  missed_respelled : forall listed, f.isVirtual = true -> f.kind ≠ .constructor ->
    s.listedFunctions linearization = .ok listed -> s.Scans f listed listed none ->
    forall s' linearization', (forall e, e ∈ id :: listed -> s.Respells s' e) ->
      s'.listedFunctions linearization' = .ok listed ->
      s'.finalOverride linearization' id = .ok target

end Store

/-!
# Agreement
-/

theorem Ty.beqAll_map_iff {ps qs : List Parameter} :
    Ty.beqAll (ps.map (·.type)) (qs.map (·.type)) = true <->
      List.Forall₂ (fun p q : Parameter => (p.type == q.type) = true) ps qs := by
  induction ps generalizing qs with
  | nil =>
      cases qs with
      | nil => exact ⟨fun _ => .nil, fun _ => rfl⟩
      | cons q qs =>
          constructor
          · intro h
            cases h
          · intro h
            cases h
  | cons p ps ih =>
      cases qs with
      | nil =>
          constructor
          · intro h
            cases h
          · intro h
            cases h
      | cons q qs =>
          rw [List.forall₂_cons, ← ih]
          exact Bool.and_eq_true_iff

namespace FunctionDecl

theorem dispatchesVirtually_eq_true_iff {f : FunctionDecl} :
    f.dispatchesVirtually = true <-> f.isVirtual = true ∧ f.kind ≠ .constructor := by
  rw [dispatchesVirtually, Bool.and_eq_true, bne_iff_ne]

theorem overrides_iff_agreesWith {candidate f : FunctionDecl} :
    candidate.overrides f = true <-> candidate.AgreesWith f := by
  simp only [overrides, FunctionType.sameParameters, FunctionType.sameReturns, functionType,
    Bool.and_eq_true, Ident.beq_iff, Ty.beqAll_map_iff]
  constructor
  · intro h
    exact ⟨h.1.1, h.1.2, h.2⟩
  · intro h
    exact ⟨⟨h.name, h.parameters⟩, h.returns⟩

theorem AgreesWith.of_profile {candidate candidate' f f' : FunctionDecl}
    (h : candidate.AgreesWith f) (hcandidate : candidate'.profile = candidate.profile)
    (hf : f'.profile = f.profile) : candidate'.AgreesWith f' := by
  rw [← overrides_iff_agreesWith, overrides_iff] at h ⊢
  rw [hcandidate, hf, h]

end FunctionDecl

namespace Store

variable {s s' : Store} {f f' : FunctionDecl}

/-!
# Scanning a row of functions
-/

theorem findOverride_append_eq_ok_iff {first later : List FunctionId} {found : Option FunctionId} :
    s.findOverride f (first ++ later) = .ok found <->
      (exists g, found = some g ∧ s.findOverride f first = .ok (some g)) ∨
      (s.findOverride f first = .ok none ∧ s.findOverride f later = .ok found) := by
  induction first with
  | nil =>
      rw [List.nil_append, findOverride]
      simp
  | cons id first ih =>
      rw [List.cons_append, findOverride, findOverride]
      cases hcandidate : s.function id with
      | error fault => simp [bind, Except.bind]
      | ok candidate =>
          by_cases hoverrides : candidate.overrides f = true
          · simp [bind, Except.bind, pure, Except.pure, hoverrides, eq_comm]
          · simp only [bind, Except.bind, if_neg hoverrides]
            exact ih

theorem findOverride_eq_none {ids : List FunctionId}
    (h : forall e, e ∈ ids ->
      exists candidate, s.function e = .ok candidate ∧ ¬ candidate.AgreesWith f) :
    s.findOverride f ids = .ok none := by
  induction ids with
  | nil => rfl
  | cons id ids ih =>
      rw [List.forall_mem_cons] at h
      rcases h with ⟨⟨candidate, hcandidate, hdisagrees⟩, hids⟩
      rw [findOverride_cons hcandidate, if_neg (mt FunctionDecl.overrides_iff_agreesWith.mp hdisagrees)]
      exact ih hids

theorem findOverride_singleton {g : FunctionId} (h : s.Agrees f g) :
    s.findOverride f [g] = .ok (some g) := by
  rcases h with ⟨candidate, hcandidate, hagrees⟩
  rw [findOverride_cons hcandidate, if_pos (FunctionDecl.overrides_iff_agreesWith.mpr hagrees)]

theorem exists_scans (s : Store) (f : FunctionDecl) (listed : List FunctionId) :
    exists scanned found, s.Scans f listed scanned found := by
  induction listed with
  | nil => exact ⟨[], none, .missed (List.forall_mem_nil _)⟩
  | cons id listed ih =>
      by_cases hid : s.Agrees f id
      · exact ⟨[] ++ [id], some id, .found rfl hid (List.forall_mem_nil _)⟩
      · rcases ih with ⟨scanned, found, hscans⟩
        cases hscans with
        | missed hnone => exact ⟨_, none, .missed (List.forall_mem_cons.mpr ⟨hid, hnone⟩)⟩
        | found hlisted hagrees hearlier =>
            rw [hlisted, ← List.cons_append]
            exact ⟨_, _, .found rfl hagrees (List.forall_mem_cons.mpr ⟨hid, hearlier⟩)⟩

/-!
# Scanning contract by contract
-/

theorem listedFunctions_cons {id : ContractId} {ids : List ContractId}
    {listed : List FunctionId} :
    s.listedFunctions (id :: ids) = .ok listed <->
      exists contract rest, s.contract id = .ok contract ∧ s.listedFunctions ids = .ok rest ∧
        contract.functions ++ rest = listed := by
  simp only [listedFunctions, List.mapM_cons, bind_eq_ok_iff, pure_eq_ok_iff]
  constructor
  · rintro ⟨_, ⟨contract, hcontract, contracts, hcontracts, rfl⟩, rfl⟩
    exact ⟨contract, _, hcontract, ⟨contracts, hcontracts, rfl⟩, rfl⟩
  · rintro ⟨contract, _, hcontract, ⟨contracts, hcontracts, rfl⟩, rfl⟩
    exact ⟨_, ⟨contract, hcontract, contracts, hcontracts, rfl⟩, rfl⟩

theorem exists_listedFunctions {ids : List ContractId} (h : s.ListsStored ids) :
    exists listed, s.listedFunctions ids = .ok listed ∧
      forall g, g ∈ listed -> exists decl, s.function g = .ok decl := by
  induction ids with
  | nil => exact ⟨[], rfl, List.forall_mem_nil _⟩
  | cons id ids ih =>
      rcases h id List.mem_cons_self with ⟨contract, hcontract, hstored⟩
      rcases ih fun c hc => h c (List.mem_cons_of_mem id hc) with ⟨rest, hrest, hothers⟩
      refine ⟨_, listedFunctions_cons.mpr ⟨contract, rest, hcontract, hrest, rfl⟩, ?_⟩
      exact List.forall_mem_append.mpr ⟨hstored, hothers⟩

theorem listsFirst_of_listedFunctions {ids : List ContractId} {first later : List FunctionId}
    (h : s.listedFunctions ids = .ok (first ++ later)) : s.ListsFirst ids first := by
  induction ids generalizing first later with
  | nil =>
      have hnil : [] = first ++ later := Except.ok.inj h
      rw [(List.nil_eq_append_iff.mp hnil).1]
      exact .nothing
  | cons id ids ih =>
      rcases listedFunctions_cons.mp h with ⟨contract, rest, hcontract, hrest, heq⟩
      rcases List.append_eq_append_iff.mp heq with ⟨middle, rfl, hmiddle⟩ | ⟨middle, hmiddle, _⟩
      · rw [hmiddle] at hrest
        exact .whole hcontract (ih hrest)
      · exact .part hcontract hmiddle

theorem findOverrideAlong_of_listsFirst {ids : List ContractId} {first : List FunctionId}
    (h : s.ListsFirst ids first) {g : FunctionId}
    (hfirst : s.findOverride f first = .ok (some g)) :
    s.findOverrideAlong f ids = .ok (some g) := by
  induction h with
  | nothing => cases hfirst
  | part hcontract hfunctions =>
      rw [findOverrideAlong]
      refine bind_eq_ok_iff.mpr ⟨_, hcontract, bind_eq_ok_iff.mpr ⟨some g, ?_, rfl⟩⟩
      rw [hfunctions]
      exact findOverride_append_eq_ok_iff.mpr (Or.inl ⟨g, rfl, hfirst⟩)
  | whole hcontract _ ih =>
      rw [findOverrideAlong]
      refine bind_eq_ok_iff.mpr ⟨_, hcontract, ?_⟩
      rcases findOverride_append_eq_ok_iff.mp hfirst with ⟨found, heq, hfound⟩ | ⟨hnone, hlater⟩
      · cases heq
        exact bind_eq_ok_iff.mpr ⟨_, hfound, rfl⟩
      · exact bind_eq_ok_iff.mpr ⟨_, hnone, ih hlater⟩

theorem findOverrideAlong_of_listedFunctions {ids : List ContractId} {listed : List FunctionId}
    (h : s.listedFunctions ids = .ok listed) (hnone : s.findOverride f listed = .ok none) :
    s.findOverrideAlong f ids = .ok none := by
  induction ids generalizing listed with
  | nil => rfl
  | cons id ids ih =>
      rcases listedFunctions_cons.mp h with ⟨contract, rest, hcontract, hrest, rfl⟩
      rcases findOverride_append_eq_ok_iff.mp hnone with ⟨g, heq, _⟩ | ⟨hfirst, hlater⟩
      · cases heq
      · exact bind_eq_ok_iff.mpr ⟨contract, hcontract,
          bind_eq_ok_iff.mpr ⟨none, hfirst, ih hrest hlater⟩⟩

/-!
# Respelling
-/

theorem respells_refl {id : FunctionId} (h : exists decl, s.function id = .ok decl) :
    s.Respells s id := by
  rcases h with ⟨decl, hdecl⟩
  exact ⟨decl, decl, hdecl, hdecl, rfl, rfl, rfl⟩

theorem Respells.exists_eq {id : FunctionId} (h : s.Respells s' id) (hf : s.function id = .ok f) :
    exists f', s'.function id = .ok f' ∧ f'.profile = f.profile ∧
      f'.dispatchesVirtually = f.dispatchesVirtually := by
  rcases h with ⟨decl, f', hdecl, hf', hprofile, hvirtual, hkind⟩
  cases hdecl.symm.trans hf
  refine ⟨f', hf', hprofile, ?_⟩
  rw [FunctionDecl.dispatchesVirtually, FunctionDecl.dispatchesVirtually, hvirtual, hkind]

theorem Respells.agrees {g : FunctionId} (h : s.Respells s' g) (hprofile : f'.profile = f.profile)
    (hagrees : s.Agrees f g) : s'.Agrees f' g := by
  rcases hagrees with ⟨candidate, hcandidate, hagrees⟩
  rcases h.exists_eq hcandidate with ⟨candidate', hcandidate', hsame, _⟩
  exact ⟨candidate', hcandidate', hagrees.of_profile hsame hprofile⟩

theorem Respells.disagrees {g : FunctionId} (h : s.Respells s' g)
    (hprofile : f'.profile = f.profile) (hdisagrees : ¬ s.Agrees f g) :
    exists candidate, s'.function g = .ok candidate ∧ ¬ candidate.AgreesWith f' := by
  rcases h with ⟨candidate, candidate', hcandidate, hcandidate', hsame, _⟩
  refine ⟨candidate', hcandidate', ?_⟩
  intro hagrees
  exact hdisagrees ⟨candidate, hcandidate, hagrees.of_profile hsame.symm hprofile.symm⟩

theorem Scans.findOverride {listed scanned : List FunctionId} {found : Option FunctionId}
    (h : s.Scans f listed scanned found) (hprofile : f'.profile = f.profile)
    (hrespells : forall e, e ∈ scanned -> s.Respells s' e) :
    s'.findOverride f' scanned = .ok found := by
  cases h with
  | found _ hagrees hearlier =>
      rw [List.forall_mem_append, List.forall_mem_singleton] at hrespells
      refine findOverride_append_eq_ok_iff.mpr (Or.inr ⟨findOverride_eq_none ?_, ?_⟩)
      · intro e he
        exact (hrespells.1 e he).disagrees hprofile (hearlier e he)
      · exact findOverride_singleton (hrespells.2.agrees hprofile hagrees)
  | missed hnone =>
      apply findOverride_eq_none
      intro e he
      exact (hrespells e he).disagrees hprofile (hnone e he)

section

variable {linearization linearization' : List ContractId} {id : FunctionId}

theorem Scans.finalOverride_of_found (hf : s.function id = .ok f)
    (hvirtual : f.dispatchesVirtually = true) {listed scanned : List FunctionId} {g : FunctionId}
    (h : s.Scans f listed scanned (some g))
    (hrespells : forall e, e ∈ id :: scanned -> s.Respells s' e)
    (hlists : s'.ListsFirst linearization' scanned) :
    s'.finalOverride linearization' id = .ok g := by
  rw [List.forall_mem_cons] at hrespells
  rcases hrespells.1.exists_eq hf with ⟨f', hf', hprofile, hdispatches⟩
  exact finalOverride_eq_of_found hf' (hdispatches.trans hvirtual)
    (findOverrideAlong_of_listsFirst hlists (h.findOverride hprofile hrespells.2))

theorem Scans.finalOverride_of_missed (hf : s.function id = .ok f)
    (hvirtual : f.dispatchesVirtually = true) {listed scanned : List FunctionId}
    (h : s.Scans f listed scanned none)
    (hrespells : forall e, e ∈ id :: scanned -> s.Respells s' e)
    (hlists : s'.listedFunctions linearization' = .ok scanned) :
    s'.finalOverride linearization' id = .ok id := by
  rw [List.forall_mem_cons] at hrespells
  rcases hrespells.1.exists_eq hf with ⟨f', hf', hprofile, hdispatches⟩
  rw [finalOverride_eq_search hf' (hdispatches.trans hvirtual),
    findOverrideAlong_of_listedFunctions hlists (h.findOverride hprofile hrespells.2)]
  rfl

theorem Scans.listsFirst {listed scanned : List FunctionId} {g : FunctionId}
    (h : s.Scans f listed scanned (some g))
    (hlisted : s.listedFunctions linearization = .ok listed) :
    s.ListsFirst linearization scanned := by
  cases h with
  | found heq _ _ =>
      rw [heq, List.append_cons] at hlisted
      exact listsFirst_of_listedFunctions hlisted

theorem Scans.subset {listed scanned : List FunctionId} {found : Option FunctionId}
    (h : s.Scans f listed scanned found) : scanned ⊆ listed := by
  cases h with
  | @found earlier later g heq _ _ =>
      have hsplit := List.append_cons earlier g later
      rw [heq, hsplit]
      exact List.subset_append_left (earlier ++ [g]) later
  | missed _ => exact List.Subset.refl _

theorem Respells.finalOverride_of_bound (hf : s.function id = .ok f)
    (hbound : f.dispatchesVirtually = false) (hrespells : s.Respells s' id) :
    s'.finalOverride linearization' id = .ok id := by
  rcases hrespells.exists_eq hf with ⟨f', hf', _, hdispatches⟩
  exact finalOverride_eq_self hf' (hdispatches.trans hbound)

theorem Scans.finalOverride_eq (hf : s.function id = .ok f)
    (hvirtual : f.dispatchesVirtually = true) {listed scanned : List FunctionId}
    {found : Option FunctionId} (h : s.Scans f listed scanned found)
    (hlisted : s.listedFunctions linearization = .ok listed)
    (hstored : forall g, g ∈ listed -> exists decl, s.function g = .ok decl) :
    s.finalOverride linearization id = .ok (found.getD id) := by
  have hrespells : forall e, e ∈ id :: scanned -> s.Respells s e := by
    rw [List.forall_mem_cons]
    exact ⟨respells_refl ⟨f, hf⟩, fun e he => respells_refl (hstored e (h.subset he))⟩
  cases found with
  | some g => exact h.finalOverride_of_found hf hvirtual hrespells (h.listsFirst hlisted)
  | none =>
      have hmissed := h
      cases h
      exact hmissed.finalOverride_of_missed hf hvirtual hrespells hlisted

theorem picksFirstMatch_of_bound (hf : s.function id = .ok f)
    (hbound : f.dispatchesVirtually = false) : s.PicksFirstMatch linearization id f id := by
  have hvirtual : f.isVirtual = true -> f.kind ≠ .constructor -> False := by
    intro hdeclared hkind
    cases hbound.symm.trans (FunctionDecl.dispatchesVirtually_eq_true_iff.mpr ⟨hdeclared, hkind⟩)
  exact {
    bound := fun _ => rfl
    dispatched := fun hdeclared hkind => (hvirtual hdeclared hkind).elim
    bound_respelled := fun _ _ _ hrespells => hrespells.finalOverride_of_bound hf hbound
    found_respelled := fun _ _ _ hdeclared hkind => (hvirtual hdeclared hkind).elim
    missed_respelled := fun _ hdeclared hkind => (hvirtual hdeclared hkind).elim }

theorem picksFirstMatch_of_scans (hf : s.function id = .ok f)
    (hvirtual : f.dispatchesVirtually = true) {listed scanned : List FunctionId}
    {found : Option FunctionId} (hscans : s.Scans f listed scanned found)
    (hlisted : s.listedFunctions linearization = .ok listed)
    (hstored : forall g, g ∈ listed -> exists decl, s.function g = .ok decl) :
    s.PicksFirstMatch linearization id f (found.getD id) := by
  rcases FunctionDecl.dispatchesVirtually_eq_true_iff.mp hvirtual with ⟨hdeclared, hkind⟩
  have hunbound : ¬ (f.isVirtual = false ∨ f.kind = .constructor) := by
    rintro (hfalse | hconstructor)
    · cases hdeclared.symm.trans hfalse
    · exact hkind hconstructor
  have hresult := hscans.finalOverride_eq hf hvirtual hlisted hstored
  -- All scans end at the result of the search.
  have hsame : forall listed' scanned' found',
      s.listedFunctions linearization = .ok listed' -> s.Scans f listed' scanned' found' ->
      found'.getD id = found.getD id := by
    intro listed' scanned' found' hlisted' hscans'
    cases hlisted.symm.trans hlisted'
    exact Except.ok.inj
      ((hscans'.finalOverride_eq hf hvirtual hlisted hstored).symm.trans hresult)
  exact {
    bound := fun hbound => absurd hbound hunbound
    dispatched := fun _ _ => ⟨listed, scanned, found, hlisted, hscans, rfl⟩
    bound_respelled := fun hbound => absurd hbound hunbound
    found_respelled := by
      intro listed' scanned' g _ _ hlisted' hscans' s' linearization' hrespells hfirst
      rw [← hsame listed' scanned' (some g) hlisted' hscans']
      exact hscans'.finalOverride_of_found hf hvirtual hrespells hfirst
    missed_respelled := by
      intro listed' _ _ hlisted' hscans' s' linearization' hrespells hall
      rw [← hsame listed' listed' none hlisted' hscans']
      exact hscans'.finalOverride_of_missed hf hvirtual hrespells hall }

theorem calls_run_the_first_match (hlists : s.ListsStored linearization)
    (hf : s.function id = .ok f) :
    exists target, s.finalOverride linearization id = .ok target ∧
      s.PicksFirstMatch linearization id f target := by
  cases hvirtual : f.dispatchesVirtually with
  | false => exact ⟨id, finalOverride_eq_self hf hvirtual, picksFirstMatch_of_bound hf hvirtual⟩
  | true =>
      rcases exists_listedFunctions hlists with ⟨listed, hlisted, hstored⟩
      rcases s.exists_scans f listed with ⟨scanned, found, hscans⟩
      exact ⟨found.getD id, hscans.finalOverride_eq hf hvirtual hlisted hstored,
        picksFirstMatch_of_scans hf hvirtual hscans hlisted hstored⟩

end

end Store

/-!
# Competing functions

The contract `C` lists a function of another name, an overload of `f`, one with other returns, and
then two that agree with the virtual function `f` of its base `B`. The first of the two is not
virtual itself.
-/

namespace Overloads

def function (name : String) (parameters returns : List Ty) (isVirtual : Bool) : FunctionDecl :=
  ⟨.named name, .function, parameters.map (⟨.named "", ·⟩), returns.map (⟨.named "", ·⟩), isVirtual,
    none, .dummy⟩

def store : Store where
  functions := { entries := #[
    function "g" [.uint 256] [] true,
    function "f" [.uint 256, .bool] [] true,
    function "f" [.uint 256] [.bool] true,
    function "f" [.uint 256] [] false,
    function "f" [.uint 256] [] true,
    function "f" [.uint 256] [] true] }
  contracts := { entries := #[
    ⟨.named "C", [⟨0⟩, ⟨1⟩], none, [⟨0⟩, ⟨1⟩, ⟨2⟩, ⟨3⟩, ⟨4⟩], [], .dummy⟩,
    ⟨.named "B", [⟨1⟩], none, [⟨5⟩], [], .dummy⟩] }

theorem listsStored : store.ListsStored [⟨0⟩, ⟨1⟩] := by
  have hcontracts : forall c, c ∈ [(⟨0⟩ : ContractId), ⟨1⟩] -> exists contract,
      store.contract c = .ok contract ∧
        forall id, id ∈ contract.functions -> id.index < store.functions.size := by
    rw [List.forall_mem_cons, List.forall_mem_singleton]
    exact ⟨⟨_, rfl, by decide⟩, ⟨_, rfl, by decide⟩⟩
  intro c hc
  rcases hcontracts c hc with ⟨contract, hcontract, hfunctions⟩
  refine ⟨contract, hcontract, ?_⟩
  intro id hid
  exact ⟨_, Arena.get_eq_ok_iff.mpr ⟨rfl, Array.getElem?_eq_getElem (hfunctions id hid)⟩⟩

end Overloads

theorem picksFirstMatch_overloads :
    Overloads.store.ListsStored [⟨0⟩, ⟨1⟩] ∧
      Overloads.store.function ⟨5⟩ = .ok (Overloads.function "f" [.uint 256] [] true) ∧
      Overloads.store.finalOverride [⟨0⟩, ⟨1⟩] ⟨5⟩ = .ok ⟨3⟩ ∧
      Overloads.store.PicksFirstMatch [⟨0⟩, ⟨1⟩] ⟨5⟩
        (Overloads.function "f" [.uint 256] [] true) ⟨3⟩ := by
  have hfunction : Overloads.store.function ⟨5⟩ =
      .ok (Overloads.function "f" [.uint 256] [] true) := rfl
  rcases Store.calls_run_the_first_match Overloads.listsStored hfunction with
    ⟨target, htarget, hpicks⟩
  have hfound : Overloads.store.finalOverride [⟨0⟩, ⟨1⟩] ⟨5⟩ = .ok ⟨3⟩ := rfl
  cases hfound.symm.trans htarget
  exact ⟨Overloads.listsStored, hfunction, hfound, hpicks⟩

end CallForest
