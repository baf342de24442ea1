import AlterCatalog.Json.Token

/-!
# Reading JSON

The tokens of a text are read one by one, with a stack of the arrays and objects that are still
open. The mode says what may come next; a value that has just ended goes to the innermost open
array or object, or is the whole text's.
-/

namespace AlterCatalog.Json

/-- An array or object that is still open; the latest items and fields come first. -/
inductive Open where
  | array (items : List Json)
  | object (fields : List (Option String × Json))
  /-- An object whose field of that key has no value yet. -/
  | field (fields : List (Option String × Json)) (key : Option String)

inductive Mode where
  | value
  | firstItem
  | firstKey
  | key
  | colon (key : Option String)
  | ended (value : Json)

structure Reader where
  mode : Mode := .value
  stack : List Open := []

namespace Reader

/-- An object from its fields, the latest first. -/
def closeObject (fields : List (Option String × Json)) : Json :=
  match fields.reverse.mapM fun (key, value) => key.map fun k => (k, value) with
  | some fields => .object fields
  | none => .unrepresentable

/-- Where a value may start. -/
def startValue (stack : List Open) : Token → Option Reader
  | .openArray => some ⟨.firstItem, .array [] :: stack⟩
  | .openObject => some ⟨.firstKey, .object [] :: stack⟩
  | .scalar v => some ⟨.ended v, stack⟩
  | .string (some s) => some ⟨.ended (.string s), stack⟩
  | .string none => some ⟨.ended .unrepresentable, stack⟩
  | _ => none

/-- After a value, which goes to the innermost open array or object. -/
def endValue (v : Json) : List Open → Token → Option Reader
  | .array items :: stack, .comma => some ⟨.value, .array (v :: items) :: stack⟩
  | .array items :: stack, .closeArray => some ⟨.ended (.array (v :: items).reverse), stack⟩
  | .field fields key :: stack, .comma => some ⟨.key, .object ((key, v) :: fields) :: stack⟩
  | .field fields key :: stack, .closeObject =>
    some ⟨.ended (closeObject ((key, v) :: fields)), stack⟩
  | _, _ => none

def step (r : Reader) (t : Token) : Option Reader :=
  match r.mode, r.stack, t with
  | .value, stack, t => startValue stack t
  | .firstItem, .array _ :: stack, .closeArray => some ⟨.ended (.array []), stack⟩
  | .firstItem, stack, t => startValue stack t
  | .firstKey, .object _ :: stack, .closeObject => some ⟨.ended (.object []), stack⟩
  | .firstKey, stack, .string key => some ⟨.colon key, stack⟩
  | .key, stack, .string key => some ⟨.colon key, stack⟩
  | .colon key, .object fields :: stack, .colon => some ⟨.value, .field fields key :: stack⟩
  | .ended v, stack, t => endValue v stack t
  | _, _, _ => none

def result? (r : Reader) : Option Json :=
  match r.mode, r.stack with
  | .ended v, [] => some v
  | _, _ => none

end Reader

def ofTokens? (ts : List Token) : Option Json :=
  (ts.foldlM Reader.step {}).bind Reader.result?

/-- Reads a whole text as one value. -/
def parse? (text : String) : Option Json := (tokens? text.toList).bind ofTokens?

end AlterCatalog.Json
