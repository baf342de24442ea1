/-!
# Places in a text

A location counts lines and columns from one and UTF-8 bytes from zero. Only a line feed starts a
new line; every other character is one column. A span runs from its start up to, and not
including, its end. Nodes that were built without a source sit at the all-zero location.
-/

namespace AlterCatalog

structure Location where
  line : Nat := 0
  column : Nat := 0
  offset : Nat := 0
deriving DecidableEq, Inhabited

namespace Location

/-- The place of the first character of a text. -/
def origin : Location := ⟨1, 1, 0⟩

/-- The place after one more character. -/
def step (l : Location) (c : Char) : Location :=
  if c = '\n' then ⟨l.line + 1, 1, l.offset + c.utf8Size⟩
  else ⟨l.line, l.column + 1, l.offset + c.utf8Size⟩

/-- The place after a stretch of text. -/
def advance (l : Location) (text : List Char) : Location := text.foldl step l

def describe (l : Location) : String :=
  "line " ++ toString l.line ++ ", column " ++ toString l.column

@[simp] theorem advance_nil (l : Location) : l.advance [] = l := rfl

@[simp] theorem advance_cons (l : Location) (c : Char) (text : List Char) :
    l.advance (c :: text) = (l.step c).advance text := rfl

theorem advance_append (l : Location) (a b : List Char) :
    l.advance (a ++ b) = (l.advance a).advance b := List.foldl_append

end Location

structure Span where
  start : Location := {}
  finish : Location := {}
deriving DecidableEq, Inhabited

namespace Span

/-- The least span over both: the start of smaller offset, the end of larger offset. Of two
locations with one offset the first span's stays. -/
def merge (a b : Span) : Span where
  start := if b.start.offset < a.start.offset then b.start else a.start
  finish := if a.finish.offset < b.finish.offset then b.finish else a.finish

end Span

end AlterCatalog
