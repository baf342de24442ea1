/-!
# Layout

How a statement is laid out as text. Unless told otherwise, lists are broken over lines with two
spaces a level, keywords stand in capitals, and a name is quoted only where it has to be.
-/

namespace AlterCatalog

inductive KeywordCase where
  | upper | lower
deriving DecidableEq

structure Layout where
  /-- Breaks list items onto lines of their own. -/
  pretty : Bool := true
  /-- The spaces of one level. Nothing but its type bounds them. -/
  indentWidth : UInt64 := 2
  keywordCase : KeywordCase := .upper
  /-- Quotes every part of a name. -/
  quoteAll : Bool := false
deriving DecidableEq

/-- Each statement on one line. -/
def Layout.compact : Layout := { pretty := false }

/-- The spaces that a line at a depth begins with. Where their number needs more than 64 bits, the
upper ones are lost. -/
def Layout.indent (l : Layout) (depth : Nat) : Nat := (depth.toUInt64 * l.indentWidth).toNat

theorem Layout.indent_eq (l : Layout) {depth : Nat}
    (h : depth * l.indentWidth.toNat < UInt64.size) :
    l.indent depth = depth * l.indentWidth.toNat := by
  rw [indent, UInt64.toNat_mul, Nat.toUInt64_eq, UInt64.toNat_ofNat', Nat.mod_mul_mod]
  exact Nat.mod_eq_of_lt h

/-- A word in the letter case of a layout; ASCII letters alone have a case. -/
def KeywordCase.apply (k : KeywordCase) (word : String) : String :=
  match k with
  | .upper => String.ofList (word.toList.map Char.toUpper)
  | .lower => String.ofList (word.toList.map Char.toLower)

end AlterCatalog
