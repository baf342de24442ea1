import AlterCatalog.Proofs.Blocks
import AlterCatalog.Proofs.LexFaults
import Mathlib.Algebra.Group.Int.Defs

/-!
# Numbers in a text

Where a piece is looked for and digits stand, after a minus sign or not, what follows the digits
settles what is read. If it is a point and a digit the number is kept as text, however long it is.
Otherwise it has to fit 64 bits, and reading ends at its first character if it does not. No other
kind of piece gets a chance: none starts with a digit, nor with a minus sign before a digit.
-/

namespace AlterCatalog

/-- Reading a text gets to the place between `before` and `after`, to look for a piece there. -/
def Lexer.GetsTo (before after : List Char) : Prop :=
  ∃ ps qs, (pieces (before ++ after)).1 = ps ++ qs ∧ before = ps.flatMap Piece.text

/-- A point with a digit after it comes first. -/
def FractionFirst (rest : List Char) : Prop := ∃ d r, rest = '.' :: d :: r ∧ d.isDigit = true

/-- A token read at a place, and what is read after it. -/
def readToken (start : Location) (text : List Char) (t : Token) (rest : List Char) :
    Except LexError (List Placed) :=
  (tokenizeFrom (start.advance text) rest).map (⟨t, ⟨start, start.advance text⟩⟩ :: ·)

/-- What comes of reading at a place where digits stand, after a minus sign or not. -/
structure ReadsNumber (start : Location) (sign digits rest : List Char)
    (outcome : Except LexError (List Placed)) : Prop where
  decimal : FractionFirst rest → ∃ fraction after, rest = '.' :: (fraction ++ after) ∧
    IsDigits fraction ∧ (∀ d ∈ after.head?, d.isDigit = false) ∧
    outcome = readToken start (sign ++ digits ++ '.' :: fraction)
      (.decimal (String.ofList (sign ++ digits ++ '.' :: fraction))) after
  integer : ¬FractionFirst rest →
    -2 ^ 63 ≤ signedValue sign digits → signedValue sign digits ≤ 2 ^ 63 - 1 →
    ∃ n : Int64, n.toInt = signedValue sign digits ∧
      outcome = readToken start (sign ++ digits) (.integer n) rest
  outOfRange : ¬FractionFirst rest →
    signedValue sign digits < -2 ^ 63 ∨ 2 ^ 63 - 1 < signedValue sign digits →
    ∃ c ∈ (sign ++ digits).head?, outcome = .error ⟨.unexpectedCharacter c, start⟩

theorem tokenizeFrom_of_token {s text rest : List Char} {t : Token}
    (h : Lexer.scan s = some (⟨text, some t⟩, rest)) (start : Location) :
    tokenizeFrom start s = readToken start text t rest :=
  tokenizeFrom_of_scan h start

theorem tokenize_of_getsTo {before after : List Char} (h : Lexer.GetsTo before after) :
    ∃ tokens, tokenize (String.ofList before) = .ok (tokens ++ [endAt (.advance .origin before)]) ∧
      tokenize (String.ofList (before ++ after)) =
        (tokenizeFrom (.advance .origin before) after).map (tokens ++ ·) := by
  obtain ⟨ps, qs, hp, rfl⟩ := h
  obtain ⟨hs, hc, -⟩ := Lexer.pieces_eq_iff.1 (Prod.mk.eta (p := Lexer.pieces _)).symm
  rw [hp, List.flatMap_append, List.append_assoc, List.append_right_inj] at hs
  rw [hp, Lexer.cuts_append, ← hs] at hc
  refine ⟨_, tokenize_ofList (Lexer.pieces_of_cuts (hc.1.of_append (a := []))), ?_⟩
  rw [tokenize, String.toList_ofList, tokenizeFrom_append hc.1]

theorem digits_of_fractionFirst {rest : List Char} (h : FractionFirst rest) :
    ∃ fraction after, rest = '.' :: (fraction ++ after) ∧ IsDigits fraction ∧
      ∀ d ∈ after.head?, d.isDigit = false := by
  obtain ⟨d, r, rfl, hd⟩ := h
  refine ⟨(d :: r).takeWhile Char.isDigit, (d :: r).dropWhile Char.isDigit, ?_, ⟨?_, ?_⟩, ?_⟩
  · rw [List.takeWhile_append_dropWhile]
  · simp [hd]
  · exact mem_takeWhile
  · exact not_of_mem_head?_dropWhile

theorem not_isDigit_of_not_fractionFirst {rest : List Char} (h : ¬FractionFirst rest) :
    rest.head? = some '.' → ∀ d ∈ (rest.drop 1).head?, d.isDigit = false := by
  intro hp d hd
  obtain ⟨s, rfl⟩ := List.head?_eq_some_iff.1 hp
  obtain ⟨r, hr⟩ := List.head?_eq_some_iff.1 hd
  apply Bool.eq_false_iff.2
  intro hdigit
  rw [List.drop_one, List.tail_cons] at hr
  exact h ⟨d, r, by rw [hr], hdigit⟩

section
variable {sign digits rest : List Char} (hs : IsSign sign) (hd : IsDigits digits)
include hs hd

theorem tokenizeFrom_decimal {fraction after : List Char} (hf : IsDigits fraction)
    (ha : ∀ d ∈ after.head?, d.isDigit = false) (start : Location) :
    tokenizeFrom start (sign ++ (digits ++ '.' :: (fraction ++ after))) =
      readToken start (sign ++ digits ++ '.' :: fraction)
        (.decimal (String.ofList (sign ++ digits ++ '.' :: fraction))) after := by
  have hn := Lexer.number_decimal sign hd hf ha
  rw [List.append_assoc, List.cons_append] at hn
  apply tokenizeFrom_of_token
  rw [Lexer.scan_signed hs hd, hn]

variable (hr : ∀ d ∈ rest.head?, d.isDigit = false) (hp : ¬FractionFirst rest)
include hr hp

theorem scan_whole : Lexer.scan (sign ++ (digits ++ rest)) =
    (Lexer.integerToken? (signedValue sign digits)).map
      fun t => (⟨sign ++ digits, some t⟩, rest) := by
  rw [Lexer.scan_signed hs hd,
    Lexer.number_whole sign hd hr (not_isDigit_of_not_fractionFirst hp)]

theorem tokenizeFrom_integer {value : Int64} (hv : value.toInt = signedValue sign digits)
    (start : Location) : tokenizeFrom start (sign ++ (digits ++ rest)) =
      readToken start (sign ++ digits) (.integer value) rest := by
  apply tokenizeFrom_of_token
  rw [scan_whole hs hd hr hp, Lexer.integerToken?_eq_some_iff.2 ⟨value, hv, rfl⟩]
  rfl

theorem tokenizeFrom_outOfRange (hv : signedValue sign digits < Int64.minValue.toInt ∨
    Int64.maxValue.toInt < signedValue sign digits) (start : Location) :
    ∃ c ∈ (sign ++ digits).head?, tokenizeFrom start (sign ++ (digits ++ rest)) =
      .error ⟨.unexpectedCharacter c, start⟩ := by
  have hn : Lexer.scan (sign ++ (digits ++ rest)) = none := by
    rw [scan_whole hs hd hr hp, Lexer.integerToken?_eq_none_iff.2 hv]
    rfl
  obtain ⟨c, r, hc⟩ := List.exists_cons_of_ne_nil (List.append_ne_nil_of_right_ne_nil sign hd.1)
  have he : sign ++ (digits ++ rest) = c :: (r ++ rest) := by
    rw [← List.append_assoc, hc, List.cons_append]
  have stray : Stray c (r ++ rest) :=
    .outOfRange (by rw [← he, List.append_assoc]) hs hd hr (not_isDigit_of_not_fractionFirst hp) hv
  refine ⟨c, by rw [hc]; rfl, ?_⟩
  rw [he] at hn ⊢
  rw [tokenizeFrom_of_none hn, ← LexFault.eq_of_shows (.character stray)]

omit hp in
theorem readsNumber (start : Location) :
    ReadsNumber start sign digits rest (tokenizeFrom start (sign ++ (digits ++ rest))) where
  decimal hf := by
    obtain ⟨fraction, after, rfl, hfd, ha⟩ := digits_of_fractionFirst hf
    exact ⟨fraction, after, rfl, hfd, ha, tokenizeFrom_decimal hs hd hfd ha start⟩
  integer hf hmin hmax := by
    have hv := Int64.toInt_ofInt_of_le hmin (Int.lt_add_one_of_le hmax)
    exact ⟨_, hv, tokenizeFrom_integer hs hd hr hf hv start⟩
  outOfRange hf hv := tokenizeFrom_outOfRange hs hd hr hf hv start

end

theorem tokenize_toString (n : Int64) :
    tokenize (toString n.toInt) = readToken .origin (toString n.toInt).toList (.integer n) [] := by
  have he : Piece.EndsBefore ⟨(toString n.toInt).toList, some (.integer n)⟩ [] := by
    simp [Piece.EndsBefore]
  have hs := Lexer.scan_append (Spelling.lexeme_integer n) he
  rw [List.append_nil] at hs
  exact tokenizeFrom_of_token hs _

/-- **Numbers are exact at the limits.** Where reading gets to a longest run of digits, after a
minus sign or not, it reads a decimal with its digits as they stand if a fraction follows, the
integer that the digits stand for if it has 64 bits, and otherwise nothing. What comes after the
number is read from right after it. The decimal text of an integer of 64 bits reads as that integer
alone. -/
theorem tokenize_number :
    (∀ before sign digits rest : List Char, IsSign sign → IsDigits digits →
      (∀ d ∈ rest.head?, d.isDigit = false) → Lexer.GetsTo before (sign ++ (digits ++ rest)) →
      ∃ tokens outcome,
        tokenize (String.ofList before) = .ok (tokens ++ [endAt (.advance .origin before)]) ∧
        tokenize (String.ofList (before ++ (sign ++ (digits ++ rest)))) =
          outcome.map (tokens ++ ·) ∧
        ReadsNumber (.advance .origin before) sign digits rest outcome) ∧
    ∀ n : Int64,
      let finish := Location.advance .origin (toString n.toInt).toList
      tokenize (toString n.toInt) = .ok [⟨.integer n, ⟨.origin, finish⟩⟩, endAt finish] := by
  constructor
  · intro before sign digits rest hs hd hr hp
    obtain ⟨tokens, hb, hi⟩ := tokenize_of_getsTo hp
    exact ⟨tokens, _, hb, hi, readsNumber hs hd hr _⟩
  · intro n finish
    rw [tokenize_toString, readToken, tokenizeFrom_nil]
    rfl

/-- The least integer, with a zero before it and a point after it that begins no fraction. -/
theorem tokenize_number_least : ∃ (n : Int64) (tokens : List Placed), n.toInt = -2 ^ 63 ∧
    tokenize "SET -09223372036854775808.x" =
      (readToken ⟨1, 5, 4⟩ "-09223372036854775808".toList (.integer n) ['.', 'x']).map
        (tokens ++ ·) := by
  have digits : IsDigits "09223372036854775808".toList :=
    ⟨by decide, List.all_eq_true.1 (by decide)⟩
  have place : Lexer.GetsTo "SET ".toList "-09223372036854775808.x".toList := by
    refine ⟨((Lexer.pieces "SET -09223372036854775808.x".toList).1).take 2,
      ((Lexer.pieces "SET -09223372036854775808.x".toList).1).drop 2, ?_, ?_⟩
    · rw [List.take_append_drop]
      rfl
    · decide +kernel
  have point : ∀ d ∈ ".x".toList.head?, d.isDigit = false := by
    intro d hd
    cases hd
    rfl
  have noFraction : ¬FractionFirst ".x".toList := by
    rintro ⟨d, r, h, hd⟩
    cases h
    exact absurd hd (by decide)
  obtain ⟨tokens, outcome, -, hi, hn⟩ := tokenize_number.1 "SET ".toList ['-']
    "09223372036854775808".toList ".x".toList (.inr rfl) digits point place
  obtain ⟨n, hv, rfl⟩ := hn.integer noFraction (by decide +kernel) (by decide +kernel)
  have value : signedValue ['-'] "09223372036854775808".toList = -2 ^ 63 := by decide +kernel
  exact ⟨n, tokens, hv.trans value, hi⟩

end AlterCatalog
