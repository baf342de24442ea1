/-!
# JSON values

A number is kept as an integer when it is written as one and fits 64 bits, with or without sign;
every other number is kept as written. Objects keep their fields in order, repeated ones too.

A text can be well formed and still stand for no value: an unpaired surrogate is no character, and
a number can be too large for floating point. Such a scalar, and an object with such a key, is
`unrepresentable`. Whoever reads it fails; whoever skips it does not notice.
-/

namespace AlterCatalog

inductive Json where
  | null
  | bool (b : Bool)
  | int (n : Int)
  | real (text : String)
  | string (s : String)
  | array (items : List Json)
  | object (fields : List (String × Json))
  | unrepresentable

namespace Json

mutual

/-- How many arrays and objects stand inside each other at most. -/
def depth : Json → Nat
  | array items => depthOfItems items + 1
  | object fields => depthOfFields fields + 1
  | _ => 0

def depthOfItems : List Json → Nat
  | [] => 0
  | j :: js => max j.depth (depthOfItems js)

def depthOfFields : List (String × Json) → Nat
  | [] => 0
  | (_, j) :: fs => max j.depth (depthOfFields fs)

end

mutual

/-- Whether every part of the value has a value. -/
def representable : Json → Bool
  | unrepresentable => false
  | array items => representableItems items
  | object fields => representableFields fields
  | _ => true

def representableItems : List Json → Bool
  | [] => true
  | j :: js => j.representable && representableItems js

def representableFields : List (String × Json) → Bool
  | [] => true
  | (_, j) :: fs => j.representable && representableFields fs

end

def asBool? : Json → Option Bool
  | bool b => some b
  | _ => none

def asString? : Json → Option String
  | string s => some s
  | _ => none

/-- An unsigned number of 64 bits. -/
def asCount? : Json → Option Nat
  | int n => if 0 ≤ n ∧ n < UInt64.size then some n.toNat else none
  | _ => none

def asUInt64? (j : Json) : Option UInt64 := j.asCount?.map Nat.toUInt64

/-- A signed number of 64 bits. -/
def asInt64? : Json → Option Int64
  | int n =>
    if Int64.minValue.toInt ≤ n ∧ n ≤ Int64.maxValue.toInt then some (Int64.ofInt n) else none
  | _ => none

/-- An array whose items all read. -/
def asList? {α : Type} (read : Json → Option α) : Json → Option (List α)
  | array items => items.mapM read
  | _ => none

def ofStrings (texts : List String) : Json := .array (texts.map .string)

end Json

end AlterCatalog
