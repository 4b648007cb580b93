import PackageMigration.Json
import PackageMigration.Mapping.Table
/-
  Mapping tables as JSON text.

  * `Rule.ofJson?`: a rule from an object with the members `source` and `target`, or from a list of
    the two.
  * `Table.ofText?`: the table that a text describes.
-/
namespace PackageMigration

/-- The text of a JSON string. -/
def Json.asText? : Json → Option String
  | .string s => s
  | _ => none

/-- The text of the one member with this name: it has to be there and may not repeat. -/
def Json.field? (name : String) (members : List (Option String × Json)) : Option String :=
  match members.filter fun m => m.1 == some name with
  | [(_, v)] => v.asText?
  | _ => none

/-- A rule as an object, whose other members do not matter, or as a list of source and target. -/
def Rule.ofJson? : Json → Option Rule
  | .object members => do
    guard (members.all fun m => m.1.isSome)
    let source ← Json.field? "source" members
    let target ← Json.field? "target" members
    return ⟨bytes source, bytes target⟩
  | .array [source, target] => do
    return ⟨bytes (← source.asText?), bytes (← target.asText?)⟩
  | _ => none

/-- The rules that a text lists. -/
def Rule.listOfText? (text : String) : Option (List Rule) :=
  match Json.parse? text with
  | some (.array items) => items.mapM Rule.ofJson?
  | _ => none

/-- The table that a text describes: a JSON list of rules. -/
def Table.ofText? (text : String) : Except Table.Error Table :=
  match Rule.listOfText? text with
  | some rules => Table.ofRules? rules
  | none => .error .notRules

end PackageMigration
