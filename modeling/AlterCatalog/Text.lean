/-!
# Text

The classes of characters that the lexer tells apart, white space at the end of a text, and quoted
text.
-/

namespace AlterCatalog

/-! ## White space

The characters with the property White_Space: twenty-five code points, among them the line and
paragraph separators and the fixed-width spaces. -/

def isBlank (c : Char) : Bool :=
  let n := c.toNat
  (0x09 ≤ n && n ≤ 0x0D) || n == 0x20 || n == 0x85 || n == 0xA0 || n == 0x1680 ||
    (0x2000 ≤ n && n ≤ 0x200A) || n == 0x2028 || n == 0x2029 || n == 0x202F || n == 0x205F ||
    n == 0x3000

/-! ## Words

A word starts with an ASCII letter or an underscore and goes on with ASCII letters, digits,
underscores and dollar signs. -/

def isWordStart (c : Char) : Bool := c.isAlpha || c == '_'

def isWordPart (c : Char) : Bool := c.isAlphanum || c == '_' || c == '$'

def isWord : List Char → Bool
  | [] => false
  | c :: r => isWordStart c && r.all isWordPart

/-! ## The end of a text -/

/-- So many spaces. -/
def spaces (n : Nat) : String := String.ofList (List.replicate n ' ')

/-- A text without the characters of a class at its end. -/
def trimEnd (p : Char → Bool) (text : List Char) : List Char :=
  (text.reverse.dropWhile p).reverse

/-- What is trimmed off is of the class. -/
theorem exists_eq_trimEnd_append (p : Char → Bool) (text : List Char) :
    ∃ rest, text = trimEnd p text ++ rest ∧ ∀ c ∈ rest, p c = true := by
  refine ⟨(text.reverse.takeWhile p).reverse, ?_, fun c hc => ?_⟩
  · rw [trimEnd, ← List.reverse_append, List.takeWhile_append_dropWhile, List.reverse_reverse]
  · exact List.all_eq_true.1 List.all_takeWhile c (List.mem_reverse.1 hc)

theorem trimEnd_append (p : Char → Bool) (s t : List Char) :
    trimEnd p (s ++ t) = if trimEnd p t = [] then trimEnd p s else s ++ trimEnd p t := by
  unfold trimEnd
  rw [List.reverse_append, List.dropWhile_append]
  by_cases h : t.reverse.dropWhile p = []
  · simp [h]
  · simp [h]

theorem trimEnd_trimEnd (p : Char → Bool) (s : List Char) :
    trimEnd p (trimEnd p s) = trimEnd p s := by
  unfold trimEnd
  rw [List.reverse_reverse]
  cases h : s.reverse.dropWhile p with
  | nil => rfl
  | cons c r =>
    have hc := List.head?_dropWhile_not p s.reverse
    rw [h] at hc
    have hc : p c = false := hc
    simp [hc]

theorem trimEnd_isPrefix (p : Char → Bool) (s : List Char) : trimEnd p s <+: s := by
  obtain ⟨rest, h, -⟩ := exists_eq_trimEnd_append p s
  exact ⟨rest, h.symm⟩

/-- Trimming stops before a text that is trimmed itself. -/
theorem trimEnd_prefix_trimEnd {p : Char → Bool} {s t : List Char} (h : trimEnd p s <+: t) :
    trimEnd p s <+: trimEnd p t := by
  obtain ⟨r, rfl⟩ := h
  rw [trimEnd_append, trimEnd_trimEnd]
  split
  · exact List.prefix_rfl
  · exact List.prefix_append _ _

/-! ## Quoted text

Text between two quotes, in which every quote that belongs to the text is written twice. What
stands between the quotes ends at the first quote that is not one of a pair. -/

namespace Quoted

/-- Writes every quote twice. -/
def double (q : Char) : List Char → List Char
  | [] => []
  | c :: r => if c = q then q :: q :: double q r else c :: double q r

/-- Reads every pair of quotes as one. -/
def undouble (q : Char) : List Char → List Char
  | c :: d :: r => if c = q ∧ d = q then q :: undouble q r else c :: undouble q (d :: r)
  | r => r

/-- Cuts a text before its first quote that is not one of a pair. -/
def content (q : Char) : List Char → List Char × List Char
  | [] => ([], [])
  | [c] => if c = q then ([], [c]) else ([c], [])
  | c :: d :: r =>
    if c = q then
      if d = q then (q :: q :: (content q r).1, (content q r).2) else ([], c :: d :: r)
    else (c :: (content q (d :: r)).1, (content q (d :: r)).2)

def enclose (q : Char) (text : List Char) : List Char := q :: (double q text ++ [q])

/-- A character string literal. -/
def string (s : String) : String := String.ofList (enclose '\x27' s.toList)

/-- A delimited identifier. -/
def identifier (s : String) : String := String.ofList (enclose '\x60' s.toList)

/-- Nothing is lost between the content and the rest. -/
theorem content_append (q : Char) (s : List Char) : (content q s).1 ++ (content q s).2 = s := by
  fun_induction content q s <;> simp_all

theorem undouble_double (q : Char) (s : List Char) : undouble q (double q s) = s := by
  induction s with
  | nil => rfl
  | cons c r ih =>
    by_cases h : c = q
    · simp [double, h, undouble, ih]
    · cases hr : double q r with
      | nil => simp_all [double, undouble]
      | cons d r' => simp_all [double, undouble]

end Quoted

end AlterCatalog
