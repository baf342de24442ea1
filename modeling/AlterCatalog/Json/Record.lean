import AlterCatalog.Json

/-!
# Records and variants in JSON

A record is an object with its fields in any order, or an array with their values in the order of
the record. Unknown fields do not count; a known one may stand only once. A variant is its name
alone, or an object with its name as the only key.
-/

namespace AlterCatalog.Json

/-- The values under one key. -/
def valuesOf (key : String) (fields : List (String × Json)) : List Json :=
  (fields.filter fun f => f.1 == key).map Prod.snd

/-- The value of a field that may be missing but not stand twice. -/
def optionalField (fields : List (String × Json)) (key : String) : Option (Option Json) :=
  match valuesOf key fields with
  | [] => some none
  | [v] => some (some v)
  | _ => none

/-- The value of a field that has to stand once. -/
def field (fields : List (String × Json)) (key : String) : Option Json :=
  match valuesOf key fields with
  | [v] => some v
  | _ => none

/-- The values of the named fields, in the order of the names. -/
def record (names : List String) : Json → Option (List Json)
  | object fields => names.mapM (field fields)
  | array items => if items.length = names.length then some items else none
  | _ => none

/-- The values of the named fields; a missing one has none. An array may leave off its tail. -/
def partialRecord (names : List String) : Json → Option (List (Option Json))
  | object fields => names.mapM (optionalField fields)
  | array items =>
    if items.length ≤ names.length then
      some (items.map some ++ List.replicate (names.length - items.length) none)
    else none
  | _ => none

/-- The name of a variant, and its content where it has any. -/
def variant : Json → Option (String × Option Json)
  | string name => some (name, none)
  | object [(name, content)] => some (name, some content)
  | _ => none

end AlterCatalog.Json
