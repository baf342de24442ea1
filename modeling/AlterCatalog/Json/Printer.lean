import AlterCatalog.Json

/-!
# Writing JSON

Either on one line without white space, or with each item and field on a line of its own, two
spaces deeper than what it belongs to; an empty array or object stays on one line. Strings escape
quotes, backslashes and control characters, and nothing else.
-/

namespace AlterCatalog.Json

def escape (c : Char) : List Char :=
  if c = '"' ∨ c = '\\' then ['\\', c]
  else if c = '\x08' then ['\\', 'b']
  else if c = '\x0c' then ['\\', 'f']
  else if c = '\n' then ['\\', 'n']
  else if c = '\r' then ['\\', 'r']
  else if c = '\t' then ['\\', 't']
  else if c.toNat < 0x20 then
    ['\\', 'u', '0', '0', Nat.digitChar (c.toNat / 16), Nat.digitChar (c.toNat % 16)]
  else [c]

def quote (s : String) : List Char := '"' :: (s.toList.flatMap escape ++ ['"'])

/-- The start of a line inside `depth` arrays and objects. -/
def newline (pretty : Bool) (depth : Nat) : List Char :=
  if pretty then '\n' :: List.replicate (2 * depth) ' ' else []

def colon (pretty : Bool) : List Char := if pretty then [':', ' '] else [':']

mutual

def characters (pretty : Bool) (depth : Nat) : Json → List Char
  | null => "null".toList
  | bool true => "true".toList
  | bool false => "false".toList
  | int n => (toString n).toList
  | real text => text.toList
  | string s => quote s
  | array [] => ['[', ']']
  | array (j :: js) =>
    '[' :: (newline pretty (depth + 1) ++ characters pretty (depth + 1) j ++
      itemCharacters pretty (depth + 1) js ++ newline pretty depth ++ [']'])
  | object [] => ['\x7b', '\x7d']
  | object ((k, j) :: fs) =>
    '\x7b' :: (newline pretty (depth + 1) ++ quote k ++ colon pretty ++
      characters pretty (depth + 1) j ++ fieldCharacters pretty (depth + 1) fs ++
      newline pretty depth ++ ['\x7d'])
  | unrepresentable => "null".toList

def itemCharacters (pretty : Bool) (depth : Nat) : List Json → List Char
  | [] => []
  | j :: js =>
    ',' :: (newline pretty depth ++ characters pretty depth j ++ itemCharacters pretty depth js)

def fieldCharacters (pretty : Bool) (depth : Nat) : List (String × Json) → List Char
  | [] => []
  | (k, j) :: fs =>
    ',' :: (newline pretty depth ++ quote k ++ colon pretty ++ characters pretty depth j ++
      fieldCharacters pretty depth fs)

end

/-- The value on one line. -/
def compact (j : Json) : String := String.ofList (j.characters false 0)

/-- The value over several lines. -/
def pretty (j : Json) : String := String.ofList (j.characters true 0)

end AlterCatalog.Json
