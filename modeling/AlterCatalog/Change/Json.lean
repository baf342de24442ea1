import AlterCatalog.Change
import AlterCatalog.Json.Record

/-!
# Changes as JSON

A record of the catalog and one operand, tagged with the operation. The tag may stand anywhere in
an object and stands first in an array. Keys may repeat; of a repeated property the last value
counts. The whole value is taken in before its tag is known, so every part of it has to have a
value, and it may not nest deeper than 127 levels.
-/

namespace AlterCatalog

namespace Effect

def operandKey : Effect → String
  | resetProperties _ => "keys"
  | setProperties _ => "properties"
  | rename _ => "new_name"
  | setComment _ => "comment"

def toJson : Effect → Json
  | resetProperties keys => .ofStrings keys.keys
  | setProperties properties => .object (properties.entries.map fun e => (e.1, .string e.2))
  | rename newName => .ofStrings newName
  | setComment comment => .string comment

end Effect

namespace Change

def toJson (c : Change) : Json :=
  let operation := ("operation", Json.string c.operation)
  let catalog := ("catalog", Json.ofStrings c.catalog)
  let operand := (c.effect.operandKey, c.effect.toJson)
  match c.effect with
  | .resetProperties _ => .object [catalog, operand, operation]
  | .setProperties _ => .object [catalog, operation, operand]
  | .rename _ => .object [catalog, operand, operation]
  | .setComment _ => .object [catalog, operand, operation]

def propertyOfJson? (f : String × Json) : Option (String × String) :=
  f.2.asString?.map fun value => (f.1, value)

def propertiesOfJson? : Json → Option (Dictionary String)
  | .object fields => (fields.mapM propertyOfJson?).map Dictionary.ofList
  | _ => none

/-- A change's record without its tag, in which the operand stands under its own key. -/
def ofRecord? (key : String) (effect? : Json → Option Effect) (j : Json) : Option Change :=
  match j.record ["catalog", key] with
  | some [catalog, operand] => do return ⟨← catalog.asList? Json.asString?, ← effect? operand⟩
  | _ => none

/-- The tag of a tagged record, and the record without it. -/
def untag? : Json → Option (String × Json)
  | .object fields =>
    match Json.field fields "operation" with
    | some (.string operation) =>
      some (operation, .object (fields.filter fun f => f.1 != "operation"))
    | _ => none
  | .array (.string operation :: items) => some (operation, .array items)
  | _ => none

def ofJson? (j : Json) : Option Change :=
  if j.representable ∧ j.depth ≤ 127 then
    match untag? j with
    | some ("reset_properties", record) => ofRecord? "keys"
        (fun j => (j.asList? Json.asString?).map fun keys => .resetProperties (.ofKeys keys)) record
    | some ("set_properties", record) =>
      ofRecord? "properties" (fun j => (propertiesOfJson? j).map .setProperties) record
    | some ("rename", record) =>
      ofRecord? "new_name" (fun j => (j.asList? Json.asString?).map .rename) record
    | some ("set_comment", record) =>
      ofRecord? "comment" (fun j => j.asString?.map .setComment) record
    | _ => none
  else none

end Change

end AlterCatalog
