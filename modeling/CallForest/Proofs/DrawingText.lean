import CallForest.Proofs.Drawing
import CallForest.Proofs.LookupFaults
import CallForest.Proofs.QuotedText

/-!
# Reading a drawing

The text of a drawing has a line for each node and each edge, whatever the names in its labels are:
a label is quoted, so it can neither end its line nor look like a line of its own. What the drawing
shows of a graph can therefore be read off its text.
-/

namespace CallForest

/-!
# What a drawing shows
-/

structure NodePicture where
  id : NodeId
  isRoot : Bool
  label : String
  calls : List Edge
  deriving DecidableEq, Repr

/-- What a line of a drawing says, if it is neither the first nor the last. -/
inductive DrawnLine where
  | node (id : NodeId) (isRoot : Bool) (label : String)
  | edge (source : NodeId) (edge : Edge)
  deriving DecidableEq, Repr

namespace DrawnLine

def text : DrawnLine -> String
  | node id isRoot label =>
      let shape := if isRoot then "shape = box" else ""
      "    " ++ toString id.index ++ " [ " ++ shape ++ " label = " ++ Text.quote label ++ "]"
  | edge source e =>
      let style := if e.isRecursive then "style = dashed" else ""
      "    " ++ toString source.index ++ " -> " ++ toString e.target.index ++ " [ " ++ style ++ "]"

def callFrom? (id : NodeId) : DrawnLine -> Option Edge
  | node .. => none
  | edge source e => if source = id then some e else none

def picture? (lines : List DrawnLine) : DrawnLine -> Option NodePicture
  | node id isRoot label => some ⟨id, isRoot, label, lines.filterMap (callFrom? id)⟩
  | edge .. => none

end DrawnLine

def drawnLines (picture : List NodePicture) : List DrawnLine :=
  picture.map (fun x => .node x.id x.isRoot x.label) ++
    picture.flatMap (fun x => x.calls.map (.edge x.id))

def drawingLines (picture : List NodePicture) : List String :=
  "digraph \x7b" :: ((drawnLines picture).map DrawnLine.text ++ ["\x7d"])

def joinLines (lines : List String) : String :=
  String.join (lines.map (· ++ "\n"))

namespace Graph

def nodePicture (g : Graph) (id : NodeId) (n : Node) (label : String) : NodePicture :=
  ⟨id, g.roots.contains id, label, n.calls⟩

def picture (g : Graph) (s : Store) : Except Fault (List NodePicture) :=
  g.entries.mapM fun entry => do
    let label ← entry.2.label s
    pure (g.nodePicture entry.1 entry.2 label)

def edgeCount (g : Graph) : Nat :=
  (g.nodes.toList.flatMap Node.calls).length

def TargetsInRange (g : Graph) : Prop :=
  forall id n edge, g.node id = .ok n -> edge ∈ n.calls -> edge.target.index < g.size

/-!
# A drawing is made of its lines
-/

theorem dotNodeLine_eq (g : Graph) (id : NodeId) (label : String) :
    g.dotNodeLine id label = (DrawnLine.node id (g.roots.contains id) label).text ++ "\n" := by
  simp [dotNodeLine, DrawnLine.text, String.append_assoc]

theorem dotEdgeLine_eq (source : NodeId) (e : Edge) :
    dotEdgeLine source e = (DrawnLine.edge source e).text ++ "\n" := by
  simp [dotEdgeLine, DrawnLine.text, String.append_assoc]

theorem checkedEdgeLine_eq_ok_iff {g : Graph} {source : NodeId} {e : Edge} {line : String} :
    g.checkedEdgeLine source e = .ok line <->
      e.target.index < g.size ∧ line = dotEdgeLine source e := by
  rw [checkedEdgeLine, bind_pure_eq_ok_iff]
  constructor
  · intro h
    rcases h with ⟨n, hnode, rfl⟩
    exact ⟨exists_node_iff.mp ⟨n, hnode⟩, rfl⟩
  · intro h
    rcases h with ⟨hlt, rfl⟩
    rcases exists_node_iff.mpr hlt with ⟨n, hnode⟩
    exact ⟨n, hnode, rfl⟩

theorem targetsInRange_iff {g : Graph} :
    g.TargetsInRange <-> forall entry, entry ∈ g.entries -> forall edge, edge ∈ entry.2.calls ->
      edge.target.index < g.size := by
  constructor
  · intro h entry hentry edge hedge
    exact h entry.1 entry.2 edge (mem_entries_iff.mp hentry) hedge
  · intro h id n edge hnode hedge
    exact h (id, n) (mem_entries_iff.mpr hnode) edge hedge

theorem edgeLines_eq_ok_iff {g : Graph} {lines : List (List String)} :
    (g.entries.mapM fun entry => entry.2.calls.mapM (g.checkedEdgeLine entry.1)) = .ok lines <->
      g.TargetsInRange ∧
        lines = g.entries.map fun entry => entry.2.calls.map (dotEdgeLine entry.1) := by
  rw [targetsInRange_iff]
  exact mapM_eq_ok_iff_map fun entry _ => mapM_eq_ok_iff_map fun _ _ => checkedEdgeLine_eq_ok_iff

theorem nodeLines_eq_ok_iff {g : Graph} {s : Store} {lines : List String} :
    (g.entries.mapM fun entry => do
        let label ← entry.2.label s
        pure (g.dotNodeLine entry.1 label)) = .ok lines <->
      exists picture, g.picture s = .ok picture ∧ lines = picture.map fun x =>
        (DrawnLine.node x.id x.isRoot x.label).text ++ "\n" := by
  rw [picture, ← mapM_bind_pure_eq_ok_iff]
  simp only [bind_assoc, pure_bind, nodePicture, dotNodeLine_eq]

theorem calls_of_picture {g : Graph} {s : Store} {p : List NodePicture}
    (h : g.picture s = .ok p) :
    List.Forall₂ (fun entry x => x.id = entry.1 ∧ x.calls = entry.2.calls) g.entries p := by
  refine (mapM_eq_ok_iff.mp h).imp ?_
  intro entry x hx
  rcases bind_pure_eq_ok_iff.mp hx with ⟨label, _, rfl⟩
  exact ⟨rfl, rfl⟩

theorem edgeLines_of_picture {g : Graph} {s : Store} {p : List NodePicture}
    (h : g.picture s = .ok p) :
    (g.entries.map fun entry => entry.2.calls.map (dotEdgeLine entry.1)) =
      p.map fun x => x.calls.map fun e => (DrawnLine.edge x.id e).text ++ "\n" := by
  rw [← List.forall₂_eq_eq_eq, List.forall₂_map_left_iff, List.forall₂_map_right_iff]
  refine (calls_of_picture h).imp ?_
  rintro entry x ⟨hid, hcalls⟩
  rw [hid, hcalls]
  exact List.map_congr_left fun e _ => dotEdgeLine_eq entry.1 e

theorem joinLines_drawingLines (p : List NodePicture) :
    joinLines (drawingLines p) = "digraph \x7b\n" ++
      String.join (p.map fun x => (DrawnLine.node x.id x.isRoot x.label).text ++ "\n") ++
      String.join (p.map fun x => x.calls.map fun e =>
        (DrawnLine.edge x.id e).text ++ "\n").flatten ++ "\x7d\n" := by
  rw [← String.toList_inj]
  simp [joinLines, drawingLines, drawnLines, List.flatMap_map, List.map_flatMap,
    List.flatMap_assoc, ← List.flatMap_def, Function.comp_def]

/-- A graph can be drawn if its edges point at nodes and its nodes can be labelled. The text of the
drawing is that of the lines that the picture of the graph has. -/
theorem toDot_eq_ok_iff {g : Graph} {s : Store} {dot : String} :
    g.toDot s = .ok dot <-> g.TargetsInRange ∧
      exists p, g.picture s = .ok p ∧ dot = joinLines (drawingLines p) := by
  rw [toDot, bind_eq_ok_iff]
  simp only [bind_pure_eq_ok_iff]
  constructor
  · intro h
    rcases h with ⟨nodeLines, hnodes, edgeLines, hedges, rfl⟩
    rcases nodeLines_eq_ok_iff.mp hnodes with ⟨p, hp, rfl⟩
    rcases edgeLines_eq_ok_iff.mp hedges with ⟨htargets, rfl⟩
    refine ⟨htargets, p, hp, ?_⟩
    rw [joinLines_drawingLines, edgeLines_of_picture hp]
  · intro h
    rcases h with ⟨htargets, p, hp, rfl⟩
    refine ⟨_, nodeLines_eq_ok_iff.mpr ⟨p, hp, rfl⟩, _, edgeLines_eq_ok_iff.mpr ⟨htargets, rfl⟩, ?_⟩
    rw [joinLines_drawingLines, edgeLines_of_picture hp]

end Graph

/-!
# Reading a line
-/

namespace DrawnLine

def skip (word cs : List Char) : Bool × List Char :=
  match cs.dropPrefix? word with
  | some rest => (true, rest)
  | none => (false, cs)

def readNodeId (cs : List Char) : Option (NodeId × List Char) :=
  (Json.readDigits cs).map fun read => (⟨Json.ofDigits read.1⟩, read.2)

def readNode (id : NodeId) (cs : List Char) : Option DrawnLine := do
  let cs ← cs.dropPrefix? " [ ".toList
  let shape := skip "shape = box".toList cs
  let cs ← shape.2.dropPrefix? " label = \"".toList
  let label ← Text.readQuoted .character cs
  some (.node id shape.1 (String.ofList label.1))

def readEdge (source : NodeId) (cs : List Char) : Option DrawnLine := do
  let target ← readNodeId cs
  let cs ← target.2.dropPrefix? " [ ".toList
  let style := skip "style = dashed".toList cs
  some (.edge source (if style.1 then .recursive target.1 else .call target.1))

/-- Reads a line. The first line of a drawing and the last one say nothing. -/
def read? (cs : List Char) : Option DrawnLine := do
  let cs ← cs.dropPrefix? "    ".toList
  let id ← readNodeId cs
  let arrow := skip " -> ".toList id.2
  if arrow.1 then readEdge id.1 arrow.2 else readNode id.1 arrow.2

theorem dropPrefix?_append (word rest : List Char) :
    (word ++ rest).dropPrefix? word = some rest :=
  List.dropPrefix?_append_of_beq rest BEq.rfl

theorem skip_append (word rest : List Char) : skip word (word ++ rest) = (true, rest) := by
  rw [skip, dropPrefix?_append]

theorem endsNumber_append_of_head? {word : List Char} (h : word.head? = some ' ')
    (rest : List Char) : Json.EndsNumber (word ++ rest) := by
  rcases List.head?_eq_some_iff.mp h with ⟨_, rfl⟩
  exact ⟨rfl, by decide, by decide, by decide⟩

theorem readNodeId_toDigits (id : NodeId) {rest : List Char} (h : Json.EndsNumber rest) :
    readNodeId (Nat.toDigits 10 id.index ++ rest) = some (id, rest) := by
  have hvalue : Json.ofDigits (Nat.toDigits 10 id.index) = id.index := Nat.ofDigitChars_ten_toDigits
  rw [readNodeId, Json.readDigits_append Nat.toDigits_ne_nil
    (fun _ => Json.isDigit_of_mem_decimal) h, Option.map_some, hvalue]

theorem readNode_node (id : NodeId) (isRoot : Bool) (label : String) :
    readNode id (" [ ".toList ++ ((if isRoot then "shape = box" else "").toList ++
      (" label = \"".toList ++ (Text.escape label.toList ++ '"' :: "]".toList)))) =
      some (.node id isRoot label) := by
  have hshape : skip "shape = box".toList ((if isRoot then "shape = box" else "").toList ++
      (" label = \"".toList ++ (Text.escape label.toList ++ '"' :: "]".toList))) =
      (isRoot, " label = \"".toList ++ (Text.escape label.toList ++ '"' :: "]".toList)) := by
    cases isRoot with
    | true => exact skip_append _ _
    | false => rfl
  simp only [readNode, dropPrefix?_append, hshape, Text.readQuoted_escape, Option.bind_eq_bind,
    Option.bind_some, String.ofList_toList]

theorem readEdge_edge (source : NodeId) (e : Edge) :
    readEdge source (Nat.toDigits 10 e.target.index ++
      (" [ ".toList ++ ((if e.isRecursive then "style = dashed" else "").toList ++ "]".toList))) =
      some (.edge source e) := by
  have hstyle : (skip "style = dashed".toList
      ((if e.isRecursive then "style = dashed" else "").toList ++ "]".toList)).1 =
      e.isRecursive := by
    cases e with
    | call _ => rfl
    | recursive _ => exact congrArg Prod.fst (skip_append _ _)
  rw [readEdge, readNodeId_toDigits e.target (endsNumber_append_of_head? rfl _)]
  simp only [dropPrefix?_append, hstyle, Option.bind_eq_bind, Option.bind_some]
  cases e <;> rfl

theorem read?_text (line : DrawnLine) : read? line.text.toList = some line := by
  cases line with
  | node id isRoot label =>
      have htext : (node id isRoot label).text.toList = "    ".toList ++
          (Nat.toDigits 10 id.index ++ (" [ ".toList ++
            ((if isRoot then "shape = box" else "").toList ++ (" label = \"".toList ++
              (Text.escape label.toList ++ '"' :: "]".toList))))) := by
        simp [text, Text.toList_quote]
      rw [htext, read?, dropPrefix?_append, Option.bind_eq_bind, Option.bind_some,
        readNodeId_toDigits id (endsNumber_append_of_head? rfl _)]
      exact readNode_node id isRoot label
  | edge source e =>
      have htext : (edge source e).text.toList = "    ".toList ++
          (Nat.toDigits 10 source.index ++ (" -> ".toList ++
            (Nat.toDigits 10 e.target.index ++ (" [ ".toList ++
              ((if e.isRecursive then "style = dashed" else "").toList ++ "]".toList))))) := by
        simp [text]
      rw [htext, read?, dropPrefix?_append, Option.bind_eq_bind, Option.bind_some,
        readNodeId_toDigits source (endsNumber_append_of_head? rfl _)]
      simp only [Option.bind_eq_bind, Option.bind_some, skip_append, if_true]
      exact readEdge_edge source e

theorem lineEnd_not_mem_text (line : DrawnLine) : '\n' ∉ line.text.toList := by
  have hdigits : forall n : Nat, '\n' ∉ Nat.toDigits 10 n := by
    intro n hmem
    cases Json.isDigit_of_mem_decimal hmem
  cases line with
  | node id isRoot label =>
      cases isRoot <;> simp [text, hdigits, Text.lineEnd_not_mem_quote]
  | edge source e =>
      cases e <;> simp [text, hdigits, Edge.isRecursive]

end DrawnLine

/-!
# Reading all lines
-/

theorem toList_joinLines_cons (line : String) (lines : List String) :
    (joinLines (line :: lines)).toList = line.toList ++ '\n' :: (joinLines lines).toList := by
  simp [joinLines]

theorem splitOn_joinLines {lines : List String}
    (h : forall line, line ∈ lines -> '\n' ∉ line.toList) :
    (joinLines lines).toList.splitOn '\n' = lines.map String.toList ++ [[]] := by
  rw [List.splitOn_eq_splitOnP]
  induction lines with
  | nil => rfl
  | cons line lines ih =>
      rw [List.forall_mem_cons] at h
      have hline : forall c, c ∈ line.toList -> (c == '\n') = false := by
        intro c hc
        rw [beq_eq_false_iff_ne]
        rintro rfl
        exact h.1 hc
      rw [toList_joinLines_cons, List.splitOnP_append_cons_of_forall_mem hline _ rfl, ih h.2]
      rfl

theorem lineEnd_not_mem_drawingLines {p : List NodePicture} {line : String}
    (h : line ∈ drawingLines p) : '\n' ∉ line.toList := by
  simp only [drawingLines, List.mem_cons, List.mem_append, List.mem_map, List.not_mem_nil,
    or_false] at h
  rcases h with rfl | ⟨drawn, _, rfl⟩ | rfl
  · decide
  · exact drawn.lineEnd_not_mem_text
  · decide

def readPicture (dot : String) : List NodePicture :=
  let lines := (dot.toList.splitOn '\n').filterMap DrawnLine.read?
  lines.filterMap (DrawnLine.picture? lines)

theorem filterMap_read?_drawingLines (p : List NodePicture) :
    ((drawingLines p).map String.toList ++ [[]]).filterMap DrawnLine.read? = drawnLines p := by
  have hfirst : DrawnLine.read? "digraph \x7b".toList = none := rfl
  have hlast : ["\x7d".toList, []].filterMap DrawnLine.read? = [] := rfl
  have hread : DrawnLine.read? ∘ String.toList ∘ DrawnLine.text = some :=
    funext DrawnLine.read?_text
  simp only [drawingLines, List.map_cons, List.map_append, List.map_nil, List.cons_append,
    List.append_assoc, List.nil_append, List.filterMap_cons_none hfirst, List.filterMap_append,
    List.map_map, List.filterMap_map, hread, List.filterMap_some, hlast, List.append_nil]

theorem flatMap_ite_of_nodup {alpha beta kappa : Type} [DecidableEq kappa] (key : alpha -> kappa)
    (f : alpha -> List beta) {xs : List alpha} (h : (xs.map key).Nodup) {x : alpha} (hx : x ∈ xs) :
    xs.flatMap (fun y => if key y = key x then f y else []) = f x := by
  induction xs with
  | nil => cases hx
  | cons y xs ih =>
      rw [List.map_cons, List.nodup_cons] at h
      rw [List.flatMap_cons]
      rcases List.mem_cons.mp hx with rfl | hmem
      · have hrest : xs.flatMap (fun y => if key y = key x then f y else []) = [] := by
          rw [List.flatMap_eq_nil_iff]
          intro y hy
          refine if_neg fun heq => h.1 ?_
          rw [← heq]
          exact List.mem_map_of_mem hy
        rw [if_pos rfl, hrest, List.append_nil]
      · have hne : key y ≠ key x := by
          intro heq
          apply h.1
          rw [heq]
          exact List.mem_map_of_mem hmem
        rw [if_neg hne, ih h.2 hmem, List.nil_append]

theorem filterMap_callFrom?_edges (id source : NodeId) (calls : List Edge) :
    (calls.map (DrawnLine.edge source)).filterMap (DrawnLine.callFrom? id) =
      if source = id then calls else [] := by
  rw [List.filterMap_map]
  split_ifs with h
  · have hcall : DrawnLine.callFrom? id ∘ DrawnLine.edge source = some :=
      funext fun e => if_pos h
    rw [hcall, List.filterMap_some]
  · rw [List.filterMap_eq_nil_iff]
    exact fun e _ => if_neg h

theorem filterMap_callFrom?_drawnLines {p : List NodePicture} (h : (p.map NodePicture.id).Nodup)
    {x : NodePicture} (hx : x ∈ p) :
    (drawnLines p).filterMap (DrawnLine.callFrom? x.id) = x.calls := by
  have hnodes : (p.map fun y => DrawnLine.node y.id y.isRoot y.label).filterMap
      (DrawnLine.callFrom? x.id) = [] := by
    rw [List.filterMap_map, List.filterMap_eq_nil_iff]
    exact fun _ _ => rfl
  rw [drawnLines, List.filterMap_append, hnodes, List.nil_append, List.filterMap_flatMap]
  simp only [filterMap_callFrom?_edges]
  exact flatMap_ite_of_nodup NodePicture.id NodePicture.calls h hx

theorem filterMap_picture?_drawnLines {p : List NodePicture} (h : (p.map NodePicture.id).Nodup) :
    (drawnLines p).filterMap (DrawnLine.picture? (drawnLines p)) = p := by
  have hnode : forall x, x ∈ p ->
      DrawnLine.picture? (drawnLines p) (.node x.id x.isRoot x.label) = some x := by
    intro x hx
    rw [DrawnLine.picture?, filterMap_callFrom?_drawnLines h hx]
  have hedges : (p.flatMap fun x => x.calls.map (DrawnLine.edge x.id)).filterMap
      (DrawnLine.picture? (drawnLines p)) = [] := by
    rw [List.filterMap_eq_nil_iff]
    intro line hline
    rcases List.mem_flatMap.mp hline with ⟨x, _, hedge⟩
    rcases List.mem_map.mp hedge with ⟨e, _, rfl⟩
    rfl
  conv_lhs => arg 2; rw [drawnLines]
  rw [List.filterMap_append, hedges, List.append_nil, List.filterMap_map]
  exact (List.filterMap_congr hnode).trans List.filterMap_some

theorem readPicture_joinLines {p : List NodePicture} (h : (p.map NodePicture.id).Nodup) :
    readPicture (joinLines (drawingLines p)) = p := by
  simp only [readPicture, splitOn_joinLines fun _ => lineEnd_not_mem_drawingLines,
    filterMap_read?_drawingLines, filterMap_picture?_drawnLines h]

/-!
# The picture of a graph
-/

def Store.HasDecl (s : Store) (kind : DeclKind) (id : DeclId kind) : Prop :=
  exists decl, s.get id = .ok decl

theorem Node.exists_label {s : Store} {n : Node} (h : n.IsKnown s.HasDecl) :
    exists label, n.label s = .ok label := by
  have hlookup : forall (kind : DeclKind) (id : DeclId kind), s.HasDecl kind id ->
      FailsOnly (fun _ => False) (s.get id) := by
    rintro kind id ⟨decl, hdecl⟩
    rw [hdecl]
    exact .ok decl
  cases hlabel : n.label s with
  | ok label => exact ⟨label, rfl⟩
  | error fault => exact (Store.failsOnly_label hlookup h fault hlabel).elim

namespace Graph

theorem map_id_entries (g : Graph) :
    (g.entries.map fun entry => entry.1.index) = List.range g.size := by
  simp [entries, size, Function.comp_def, List.zipIdx_map_snd, List.range_eq_range']

theorem map_node_entries (g : Graph) : g.entries.map Prod.snd = g.nodes.toList := by
  simp [entries, Function.comp_def, List.zipIdx_map_fst]

section

variable {g : Graph} {s : Store} {p : List NodePicture}

theorem ids_of_picture (h : g.picture s = .ok p) :
    p.map (fun x => x.id.index) = List.range g.size := by
  rw [← map_id_entries, eq_comm, ← List.forall₂_eq_eq_eq, List.forall₂_map_left_iff,
    List.forall₂_map_right_iff]
  exact (calls_of_picture h).imp fun _ _ hentry => congrArg NodeId.index hentry.1.symm

theorem nodup_ids_of_picture (h : g.picture s = .ok p) : (p.map NodePicture.id).Nodup := by
  apply List.Nodup.of_map NodeId.index
  rw [List.map_map]
  exact (ids_of_picture h).symm ▸ List.nodup_range

theorem edgeCount_of_picture (h : g.picture s = .ok p) :
    (p.flatMap NodePicture.calls).length = g.edgeCount := by
  have hcalls : g.entries.map (fun entry => entry.2.calls) = p.map NodePicture.calls := by
    rw [← List.forall₂_eq_eq_eq, List.forall₂_map_left_iff, List.forall₂_map_right_iff]
    exact (calls_of_picture h).imp fun _ _ hentry => hentry.2.symm
  rw [edgeCount, ← map_node_entries, List.flatMap_map, List.flatMap_def, List.flatMap_def, hcalls]

theorem length_drawingLines (h : g.picture s = .ok p) :
    (drawingLines p).length = 2 + g.size + g.edgeCount := by
  have hsize : p.length = g.size := by
    simpa using congrArg List.length (ids_of_picture h)
  have hedges : (p.flatMap fun x => x.calls.map (DrawnLine.edge x.id)).length = g.edgeCount := by
    rw [← edgeCount_of_picture h]
    simp only [List.length_flatMap, List.length_map]
  simp only [drawingLines, drawnLines, List.length_cons, List.length_append, List.length_map,
    List.length_nil, hedges, hsize]
  omega

theorem exists_picture (h : forall id n, g.node id = .ok n -> n.IsKnown s.HasDecl) :
    exists p, g.picture s = .ok p := by
  rw [picture, exists_mapM_eq_ok_iff]
  intro entry hentry
  rcases Node.exists_label (h entry.1 entry.2 (mem_entries_iff.mp hentry)) with ⟨label, hlabel⟩
  exact ⟨_, bind_pure_eq_ok_iff.mpr ⟨label, hlabel, rfl⟩⟩

end

/-!
# What the text of a drawing tells
-/

/-- The drawing of a graph has a line for each node and each edge besides the first and the last.
Its picture is read off its text, so no other picture has the text. -/
structure IsDrawnBy (g : Graph) (s : Store) (dot : String) (p : List NodePicture) : Prop where
  toDot_eq : g.toDot s = .ok dot
  lines : exists lines, dot = joinLines lines ∧
    (forall line, line ∈ lines -> '\n' ∉ line.toList) ∧ lines.length = 2 + g.size + g.edgeCount
  ids : p.map (fun x => x.id.index) = List.range g.size
  nodes : forall id n, g.node id = .ok n -> exists label, n.label s = .ok label ∧
    ⟨id, g.roots.contains id, label, n.calls⟩ ∈ p
  read : readPicture dot = p
  determined : forall (g' : Graph) (s' : Store), g'.toDot s' = .ok dot -> g'.picture s' = .ok p

theorem drawing_tells_the_picture {g : Graph} {s : Store} (htargets : g.TargetsInRange)
    (hknown : forall id n, g.node id = .ok n -> n.IsKnown s.HasDecl) :
    exists dot p, g.IsDrawnBy s dot p := by
  rcases exists_picture hknown with ⟨p, hp⟩
  have hread := readPicture_joinLines (nodup_ids_of_picture hp)
  refine ⟨joinLines (drawingLines p), p, {
    toDot_eq := toDot_eq_ok_iff.mpr ⟨htargets, p, hp, rfl⟩
    lines := ⟨_, rfl, fun _ => lineEnd_not_mem_drawingLines, length_drawingLines hp⟩
    ids := ids_of_picture hp
    nodes := ?_
    read := hread
    determined := ?_ }⟩
  · intro id n hnode
    rcases exists_of_mem_forall₂ (mapM_eq_ok_iff.mp hp) (mem_entries_iff.mpr hnode) with
      ⟨x, hx, heq⟩
    rcases bind_pure_eq_ok_iff.mp heq with ⟨label, hlabel, rfl⟩
    exact ⟨label, hlabel, hx⟩
  · intro g' s' hdot
    rcases toDot_eq_ok_iff.mp hdot with ⟨_, p', hp', heq⟩
    have hread' := readPicture_joinLines (nodup_ids_of_picture hp')
    rw [← heq, hread] at hread'
    rw [hp', hread']

end Graph
/-!
# A name that looks like a line

The name of the state variable ends its label and its line, and goes on like the line of an edge.
-/

namespace Lookalike

def name : String :=
  "x\"]\n    0 -> 1 [ style = dashed]\n\x7d\\"

def store : Store where
  functions := { entries := #[⟨.named "f", .function, [], [], false, none, .dummy⟩] }
  stateVariables := { entries := #[⟨.named name, .bool, none, false, .dummy⟩] }

def graph : Graph where
  nodes := #[
    ⟨.function ⟨0⟩, [.call ⟨1⟩, .recursive ⟨0⟩], [⟨0⟩], []⟩,
    ⟨.stateVariable ⟨0⟩, [], [], [⟨0⟩]⟩]
  roots := [⟨0⟩]

theorem mem_nodes {id : NodeId} {n : Node} (h : graph.node id = .ok n) :
    n ∈ graph.nodes.toList :=
  Array.mem_toList_iff.mpr (Array.mem_of_getElem? (Graph.node_eq_ok_iff.mp h))

theorem targetsInRange : graph.TargetsInRange := by
  have hall : forall n, n ∈ graph.nodes.toList -> forall edge, edge ∈ n.calls ->
      edge.target.index < graph.size := by
    decide
  intro id n edge hnode
  exact hall n (mem_nodes hnode) edge

theorem isKnown {id : NodeId} {n : Node} (h : graph.node id = .ok n) :
    n.IsKnown store.HasDecl := by
  have hvariable : store.HasDecl .stateVariable ⟨0⟩ := ⟨_, rfl⟩
  have hvariables : forall v, v ∈ [(⟨0⟩ : StateVariableId)] ->
      store.HasDecl .stateVariable v :=
    List.forall_mem_singleton.mpr hvariable
  have hnone : forall v, v ∈ ([] : List StateVariableId) -> store.HasDecl .stateVariable v :=
    List.forall_mem_nil _
  have hmem := mem_nodes h
  rcases List.mem_cons.mp hmem with rfl | hmem
  · exact ⟨⟨_, rfl⟩, hvariables, hnone⟩
  · cases List.mem_singleton.mp hmem
    exact ⟨hvariable, hnone, hvariables⟩

end Lookalike

theorem isDrawnBy_lookalike :
    Lookalike.graph.TargetsInRange ∧
      (forall id n, Lookalike.graph.node id = .ok n -> n.IsKnown Lookalike.store.HasDecl) ∧
      exists dot p, Lookalike.graph.IsDrawnBy Lookalike.store dot p ∧ p = [
        ⟨⟨0⟩, true, "f()\nreads: " ++ Lookalike.name, [.call ⟨1⟩, .recursive ⟨0⟩]⟩,
        ⟨⟨1⟩, false, "state variable " ++ Lookalike.name ++ "\nwrites: " ++ Lookalike.name, []⟩] := by
  have hknown : forall id n, Lookalike.graph.node id = .ok n ->
      n.IsKnown Lookalike.store.HasDecl := fun _ _ => Lookalike.isKnown
  rcases Graph.drawing_tells_the_picture Lookalike.targetsInRange hknown with ⟨dot, p, hdrawn⟩
  refine ⟨Lookalike.targetsInRange, hknown, dot, p, hdrawn, ?_⟩
  have hpicture := hdrawn.determined _ _ hdrawn.toDot_eq
  cases hpicture
  rfl

end CallForest
