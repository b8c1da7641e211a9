import CallForest.Config.Json
import CallForest.Graph.Json
import CallForest.Proofs.JsonText

/-!
# Graphs and configurations as texts

A graph or a configuration can be read back from its text exactly if its numbers fit machine words.
There is no other condition: a graph may hold edges to nodes that it does not have, and a
configuration any text for a path.
-/

namespace CallForest

/-!
# Numbers that fit machine words
-/

def Definition.index : Definition -> Nat
  | .function id => id.index
  | .stateVariable id => id.index
  | .implicitConstructor id => id.index

structure Node.FitsWords (n : Node) : Prop where
  definition : n.definition.index < Json.wordBound
  calls : forall edge, edge ∈ n.calls -> edge.target.index < Json.wordBound
  reads : forall id, id ∈ n.reads -> id.index < Json.wordBound
  writes : forall id, id ∈ n.writes -> id.index < Json.wordBound

structure Graph.FitsWords (g : Graph) : Prop where
  nodes : forall n, n ∈ g.nodes.toList -> n.FitsWords
  roots : forall id, id ∈ g.roots -> id.index < Json.wordBound

def Config.FitsWords (c : Config) : Prop :=
  forall limit, c.maxCallDepth = some limit -> limit < Json.wordBound

/-!
# Reading what is written
-/

namespace Json

section

variable {alpha beta : Type}

/-- What is written of a value is read as this value if the value has a property, and not read
otherwise. -/
def Recovers (read : Json -> Option alpha) (write : alpha -> Json) (P : alpha -> Prop) : Prop :=
  forall x y, read (write x) = some y <-> x = y ∧ P x

variable {read : Json -> Option alpha} {write : alpha -> Json} {P : alpha -> Prop}

theorem Recovers.bind_eq_some_iff (h : Recovers read write P) {x : alpha}
    {next : alpha -> Option beta} {y : beta} :
    (read (write x)).bind next = some y <-> P x ∧ next x = some y := by
  rw [Option.bind_eq_some_iff]
  constructor
  · rintro ⟨x', hread, hnext⟩
    rcases (h x x').mp hread with ⟨rfl, hx⟩
    exact ⟨hx, hnext⟩
  · rintro ⟨hx, hnext⟩
    exact ⟨x, (h x x).mpr ⟨rfl, hx⟩, hnext⟩

theorem Recovers.map_eq_some_iff (h : Recovers read write P) {x : alpha} {f : alpha -> beta}
    {y : beta} :
    (read (write x)).map f = some y <-> f x = y ∧ P x := by
  rw [Option.map_eq_bind, h.bind_eq_some_iff, and_comm]
  exact and_congr_left' Option.some_inj

theorem Recovers.list (h : Recovers read write P) :
    Recovers (list? read) (fun xs => array (xs.map write)) (fun xs => forall x, x ∈ xs -> P x) := by
  intro xs ys
  show (xs.map write).mapM read = some ys <-> xs = ys ∧ forall x, x ∈ xs -> P x
  induction xs generalizing ys with
  | nil => simp
  | cons x xs ih =>
      rw [List.map_cons, List.mapM_cons, Option.bind_eq_bind, h.bind_eq_some_iff,
        Option.bind_eq_bind, Option.bind_eq_some_iff, List.forall_mem_cons]
      constructor
      · rintro ⟨hx, xs', hread, heq⟩
        rcases (ih xs').mp hread with ⟨rfl, hxs⟩
        exact ⟨Option.some.inj heq, hx, hxs⟩
      · rintro ⟨rfl, hx, hxs⟩
        exact ⟨hx, xs, (ih xs).mpr ⟨rfl, hxs⟩, rfl⟩

theorem Recovers.option (h : Recovers read write P) (hnull : forall x, write x ≠ null) :
    Recovers (option? read) (fun o => o.elim null write)
      (fun o => forall x, o = some x -> P x) := by
  intro o o'
  cases o with
  | none =>
      show some none = some o' <-> _
      rw [Option.some.injEq, and_iff_left]
      rintro x hx
      cases hx
  | some x =>
      have hread : option? read (write x) = (read (write x)).map some := by
        rw [option?]
        exact hnull x
      show option? read (write x) = some o' <-> _
      rw [hread, h.map_eq_some_iff]
      apply and_congr_right'
      constructor
      · intro hx _ heq
        cases heq
        exact hx
      · intro hx
        exact hx x rfl

theorem plain_list {write : alpha -> Json} (h : forall x, (write x).Plain) (xs : List alpha) :
    (array (xs.map write)).Plain := by
  apply Plain.array
  intro item hitem
  rcases List.mem_map.mp hitem with ⟨x, _, rfl⟩
  exact h x

theorem plain_ofNats (ns : List Nat) : (ofNats ns).Plain :=
  plain_list .natural ns

end

theorem recovers_word : Recovers word? natural (· < wordBound) := by
  intro n m
  rw [word?]
  split
  · next h => rw [Option.some.injEq, and_iff_left h]
  · next h =>
      constructor
      · intro heq
        cases heq
      · rintro ⟨_, hlt⟩
        exact absurd hlt h

theorem recovers_bool : Recovers bool? bool fun _ => True := by
  intro b b'
  rw [and_true]
  exact Option.some_inj

theorem recovers_string : Recovers string? ofString fun _ => True := by
  intro s s'
  rw [and_true]
  exact Option.some_inj

end Json

/-!
# Graphs
-/

theorem recovers_declId (kind : DeclKind) :
    Json.Recovers (@DeclId.ofJson? kind) (fun id => .natural id.index)
      (·.index < Json.wordBound) := by
  intro id id'
  exact Json.recovers_word.map_eq_some_iff

theorem recovers_nodeId :
    Json.Recovers NodeId.ofJson? (fun id => .natural id.index) (·.index < Json.wordBound) := by
  intro id id'
  exact Json.recovers_word.map_eq_some_iff

theorem recovers_definition :
    Json.Recovers Definition.ofJson? Definition.toJson (·.index < Json.wordBound) := by
  intro d d'
  cases d with
  | function id => exact (recovers_declId .function).map_eq_some_iff
  | stateVariable id => exact (recovers_declId .stateVariable).map_eq_some_iff
  | implicitConstructor id => exact (recovers_declId .contract).map_eq_some_iff

theorem recovers_edge :
    Json.Recovers Edge.ofJson? Edge.toJson (·.target.index < Json.wordBound) := by
  intro e e'
  cases e with
  | call id => exact recovers_nodeId.map_eq_some_iff
  | recursive id => exact recovers_nodeId.map_eq_some_iff

theorem Node.ofJson?_toJson (n : Node) :
    Node.ofJson? n.toJson = (do
      let definition ← Definition.ofJson? n.definition.toJson
      let calls ← Json.list? Edge.ofJson? (.array (n.calls.map Edge.toJson))
      let reads ← Json.list? DeclId.ofJson? (.array (n.reads.map fun id => .natural id.index))
      let writes ← Json.list? DeclId.ofJson? (.array (n.writes.map fun id => .natural id.index))
      some { definition, calls, reads, writes }) := by
  rw [toJson, Json.ofNats, Json.ofNats, List.map_map, List.map_map]
  rfl

theorem recovers_node : Json.Recovers Node.ofJson? Node.toJson Node.FitsWords := by
  intro n n'
  have hnumbers := (recovers_declId .stateVariable).list
  rw [Node.ofJson?_toJson]
  simp only [Option.bind_eq_bind]
  rw [recovers_definition.bind_eq_some_iff, recovers_edge.list.bind_eq_some_iff,
    hnumbers.bind_eq_some_iff, hnumbers.bind_eq_some_iff]
  constructor
  · rintro ⟨hdefinition, hcalls, hreads, hwrites, heq⟩
    exact ⟨Option.some.inj heq, hdefinition, hcalls, hreads, hwrites⟩
  · rintro ⟨rfl, hdefinition, hcalls, hreads, hwrites⟩
    exact ⟨hdefinition, hcalls, hreads, hwrites, rfl⟩

theorem Graph.ofJson?_toJson (g : Graph) :
    Graph.ofJson? g.toJson = (do
      let nodes ← Json.list? Node.ofJson? (.array (g.nodes.toList.map Node.toJson))
      let roots ← Json.list? NodeId.ofJson? (.array (g.roots.map fun id => .natural id.index))
      some { nodes := nodes.toArray, roots }) := by
  rw [toJson, Json.ofNats, List.map_map]
  rfl

theorem recovers_graph : Json.Recovers Graph.ofJson? Graph.toJson Graph.FitsWords := by
  intro g g'
  rw [Graph.ofJson?_toJson]
  simp only [Option.bind_eq_bind]
  rw [recovers_node.list.bind_eq_some_iff, recovers_nodeId.list.bind_eq_some_iff,
    Array.toArray_toList]
  constructor
  · rintro ⟨hnodes, hroots, heq⟩
    exact ⟨Option.some.inj heq, hnodes, hroots⟩
  · rintro ⟨rfl, hnodes, hroots⟩
    exact ⟨hnodes, hroots, rfl⟩

theorem Definition.plain_toJson (d : Definition) : d.toJson.Plain := by
  cases d with
  | function id | stateVariable id | implicitConstructor id =>
      apply Json.Plain.object
      rw [List.forall_mem_singleton]
      exact .natural id.index

theorem Edge.plain_toJson (e : Edge) : e.toJson.Plain := by
  cases e with
  | call id | recursive id =>
      apply Json.Plain.object
      rw [List.forall_mem_singleton]
      exact .natural id.index

theorem Node.plain_toJson (n : Node) : n.toJson.Plain := by
  apply Json.Plain.object
  rw [List.forall_mem_cons, List.forall_mem_cons, List.forall_mem_cons, List.forall_mem_singleton]
  exact ⟨n.definition.plain_toJson, Json.plain_list Edge.plain_toJson n.calls,
    Json.plain_ofNats _, Json.plain_ofNats _⟩

theorem Graph.plain_toJson (g : Graph) : g.toJson.Plain := by
  apply Json.Plain.object
  rw [List.forall_mem_cons, List.forall_mem_singleton]
  exact ⟨Json.plain_list Node.plain_toJson g.nodes.toList, Json.plain_ofNats _⟩

/-!
# Configurations
-/

theorem recovers_missingConstructor :
    Json.Recovers MissingConstructor.ofJson? MissingConstructor.toJson fun _ => True := by
  intro m m'
  rw [and_true]
  cases m with
  | synthesize => exact Option.some_inj
  | skip => exact Option.some_inj

theorem Config.ofJson?_toJson (c : Config) :
    Config.ofJson? c.toJson = (do
      let maxCallDepth ← Json.option? Json.word? (c.maxCallDepth.elim .null .natural)
      let trackNestedWrites ← Json.bool? (.bool c.trackNestedWrites)
      let trackCallArguments ← Json.bool? (.bool c.trackCallArguments)
      let missingConstructor ← MissingConstructor.ofJson? c.missingConstructor.toJson
      let printGraph ← Json.option? Json.string? (c.printGraph.elim .null .ofString)
      some { maxCallDepth, trackNestedWrites, trackCallArguments, missingConstructor,
             printGraph }) := by
  rfl

theorem recovers_config : Json.Recovers Config.ofJson? Config.toJson Config.FitsWords := by
  intro c c'
  have hlimit := Json.recovers_word.option (by rintro n h; cases h)
  have hpath := Json.recovers_string.option (by rintro s h; cases h)
  rw [Config.ofJson?_toJson]
  simp only [Option.bind_eq_bind]
  rw [hlimit.bind_eq_some_iff, Json.recovers_bool.bind_eq_some_iff,
    Json.recovers_bool.bind_eq_some_iff, recovers_missingConstructor.bind_eq_some_iff,
    hpath.bind_eq_some_iff]
  constructor
  · rintro ⟨hlimit, _, _, _, _, heq⟩
    exact ⟨Option.some.inj heq, hlimit⟩
  · rintro ⟨rfl, hlimit⟩
    exact ⟨hlimit, trivial, trivial, trivial, fun _ _ => trivial, rfl⟩

theorem Config.plain_toJson (c : Config) : c.toJson.Plain := by
  have hlimit : (c.maxCallDepth.elim Json.null Json.natural).Plain := by
    cases c.maxCallDepth with
    | none => exact .null
    | some limit => exact .natural limit
  have hpath : (c.printGraph.elim Json.null Json.ofString).Plain := by
    cases c.printGraph with
    | none => exact .null
    | some path => exact .string path
  apply Json.Plain.object
  rw [List.forall_mem_cons, List.forall_mem_cons, List.forall_mem_cons, List.forall_mem_cons,
    List.forall_mem_singleton]
  exact ⟨hlimit, .bool c.trackNestedWrites, .bool c.trackCallArguments,
    .string c.missingConstructor.text, hpath⟩

/-!
# Round trips
-/

theorem Graph.deserialize?_serialize_eq_some_iff {g g' : Graph} :
    Graph.deserialize? g.serialize = some g' <-> g = g' ∧ g.FitsWords := by
  rw [deserialize?, serialize, Json.parse?_render g.plain_toJson]
  exact recovers_graph g g'

theorem Config.deserialize?_serialize_eq_some_iff {c c' : Config} :
    Config.deserialize? c.serialize = some c' <-> c = c' ∧ c.FitsWords := by
  rw [deserialize?, serialize, Json.parse?_render c.plain_toJson]
  exact recovers_config c c'

/-- The texts of graphs and configurations lose nothing as long as the numbers fit machine words. -/
theorem texts_lose_nothing :
    (forall g : Graph, Graph.deserialize? g.serialize = some g <-> g.FitsWords) ∧
    (forall c : Config, Config.deserialize? c.serialize = some c <-> c.FitsWords) := by
  constructor
  · intro g
    rw [Graph.deserialize?_serialize_eq_some_iff]
    exact and_iff_right rfl
  · intro c
    rw [Config.deserialize?_serialize_eq_some_iff]
    exact and_iff_right rfl

end CallForest
