import CallForest.Config.Basic
import CallForest.Json.Printer
import CallForest.Json.Reader

/-!
# Configurations as JSON

A configuration is a record whose fields all have defaults.
-/

namespace CallForest

/-!
# Writing
-/

def MissingConstructor.toJson (m : MissingConstructor) : Json :=
  .ofString m.text

def Config.toJson (c : Config) : Json :=
  .ofFields [
    ("max_call_depth", c.maxCallDepth.elim .null .natural),
    ("track_nested_writes", .bool c.trackNestedWrites),
    ("track_call_arguments", .bool c.trackCallArguments),
    ("missing_constructor", c.missingConstructor.toJson),
    ("print_fcg_graph", c.printGraph.elim .null .ofString)]

def Config.serialize (c : Config) : String :=
  c.toJson.render

/-!
# Reading
-/

def MissingConstructor.ofJson? (j : Json) : Option MissingConstructor :=
  match j.variant? with
  | some (word, .null) => ofText? word
  | some _ => none
  | none => j.string?.bind ofText?

def Config.ofJson? (j : Json) : Option Config := do
  let fields ← j.fields? ["max_call_depth", "track_nested_writes", "track_call_arguments",
    "missing_constructor", "print_fcg_graph"]
  match fields with
  | [depth, nestedWrites, callArguments, missing, print] =>
      let maxCallDepth ← Json.withDefault none (Json.option? Json.word?) depth
      let trackNestedWrites ← Json.withDefault false Json.bool? nestedWrites
      let trackCallArguments ← Json.withDefault false Json.bool? callArguments
      let missingConstructor ←
        Json.withDefault .synthesize MissingConstructor.ofJson? missing
      let printGraph ← Json.withDefault none (Json.option? Json.string?) print
      some { maxCallDepth, trackNestedWrites, trackCallArguments, missingConstructor, printGraph }
  | _ => none

def Config.deserialize? (text : String) : Option Config :=
  (Json.parse? text).bind Config.ofJson?

end CallForest
