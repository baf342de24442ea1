import AlterCatalog.Proofs.Lossless

/-!
# Where no token can be read

Reading stops at the first place where no piece starts. What stands there is then one of four
things: a quote or a comment that nothing closes, or a character that opens nothing. The fault is
chosen by the first two characters only, after the reading has failed for whatever reason it had;
that both agree is shown here by going through the ways in which reading can fail
(`LexFault.exists_shows`).
-/

namespace AlterCatalog

/-- No quote closes the text after an opening quote: one that is not the first of a pair. -/
def Unclosed (q : Char) (r : List Char) : Prop :=
  ¬∃ v rest, r = Quoted.double q v ++ q :: rest ∧ rest.head? ≠ some q

/-- A character, before some text, that opens neither a token nor filler. -/
inductive Stray : Char → List Char → Prop
  | outOfRange {c : Char} {r sign digits rest : List Char} : c :: r = sign ++ digits ++ rest →
      IsSign sign → IsDigits digits → (∀ d ∈ rest.head?, d.isDigit = false) →
      (rest.head? = some '.' → ∀ d ∈ (rest.drop 1).head?, d.isDigit = false) →
      signedValue sign digits < Int64.minValue.toInt ∨
        Int64.maxValue.toInt < signedValue sign digits → Stray c r
  | minus {r : List Char} : (∀ d ∈ r.head?, d.isDigit = false ∧ d ≠ '-') → Stray '-' r
  | slash {r : List Char} : r.head? ≠ some '*' → Stray '/' r
  | other {c : Char} {r : List Char} : isBlank c = false → c.isAlphanum = false →
      c ∉ ['_', '(', ')', ',', '=', '.', ';'] → c ∉ ['\x27', '\x60', '-', '/'] → Stray c r

/-- A fault and the text, of at least one character, that shows it. -/
inductive LexFault.Shows : Char → List Char → LexFault → Prop
  | string {r : List Char} : Unclosed '\x27' r → Shows '\x27' r .unterminatedString
  | identifier {r : List Char} : Unclosed '\x60' r → Shows '\x60' r .unterminatedIdentifier
  | comment {r : List Char} : ¬['*', '/'] <:+: r → Shows '/' ('*' :: r) .unterminatedComment
  | character {c : Char} {r : List Char} : Stray c r → Shows c r (.unexpectedCharacter c)

namespace Lexer

/-- A token, white space or a comment starts a text. -/
def Starts (s : List Char) : Prop :=
  ∃ (p : Piece) (rest : List Char), s = p.text ++ rest ∧ Lexeme p.text p.token ∧ p.EndsBefore rest

/-- The cutting of a text with a guard against pieces that take nothing of it; without a result
where the guard stops it. -/
def guarded (s : List Char) : Option (List Piece × List Char) :=
  match scan s with
  | none => some ([], s)
  | some (p, rest) =>
    if rest.length < s.length then (guarded rest).map fun (ps, r) => (p :: ps, r) else none
termination_by s.length

theorem guarded_eq (s : List Char) : guarded s = some (pieces s) := by
  fun_induction pieces s with
  | case1 s h => rw [guarded, h]
  | case2 s p rest h _ ih => simp only [guarded, h, if_pos (scan_length_lt h), ih, Option.map_some]

/-! ## Why scanning fails -/

theorem throughCommentClose_eq_none_iff {s : List Char} :
    throughCommentClose s = none ↔ ¬['*', '/'] <:+: s := by
  fun_induction throughCommentClose s with
  | case1 r => simp [List.infix_cons_iff]
  | case2 c r h ih =>
    rw [Option.map_eq_none_iff, ih, List.infix_cons_iff, not_or]
    refine (and_iff_right fun hp => ?_).symm
    obtain ⟨t, ht⟩ := hp
    cases ht
    exact h _ rfl rfl
  | case3 => simp

theorem quoted_eq_none_iff {q : Char} {token : String → Token} {r : List Char} :
    quoted q token r = none ↔ Unclosed q r := by
  constructor
  · rintro h ⟨v, rest, rfl, hr⟩
    rw [quoted_append q token hr] at h
    cases h
  · intro h
    obtain ⟨⟨v, hv⟩, hs⟩ := Quoted.content_is_double q r
    have hr := Quoted.content_append q r
    unfold quoted
    split
    · rfl
    · next raw close rest hc =>
      rw [hc] at hv hs hr
      obtain ⟨rfl, hq⟩ := hs
      exact absurd ⟨v, rest, by rw [← hr]; exact congrArg (· ++ _) hv, hq⟩ h

theorem integerToken?_eq_none_iff {n : Int} :
    integerToken? n = none ↔ n < Int64.minValue.toInt ∨ Int64.maxValue.toInt < n := by
  unfold integerToken?
  rw [ite_eq_right_iff, ← Int.not_le, ← Int.not_le, ← Decidable.not_and_iff_not_or_not]
  simp only [reduceCtorEq, imp_false]

/-- No number comes after a sign: there are no digits, or they stand for too large an integer. -/
theorem number_eq_none {sign r : List Char} (h : number sign r = none) :
    (∀ d ∈ r.head?, d.isDigit = false) ∨
    ∃ digits rest, r = digits ++ rest ∧ IsDigits digits ∧
      (∀ d ∈ rest.head?, d.isDigit = false) ∧
      (rest.head? = some '.' → ∀ d ∈ (rest.drop 1).head?, d.isDigit = false) ∧
      (signedValue sign digits < Int64.minValue.toInt ∨
        Int64.maxValue.toInt < signedValue sign digits) := by
  have split : r.takeWhile Char.isDigit ++ r.dropWhile Char.isDigit = r :=
    List.takeWhile_append_dropWhile
  have hd : ∀ c ∈ r.takeWhile Char.isDigit, c.isDigit = true := mem_takeWhile
  have hn : ∀ c ∈ (r.dropWhile Char.isDigit).head?, c.isDigit = false :=
    not_of_mem_head?_dropWhile
  unfold number at h
  generalize r.takeWhile Char.isDigit = digits at h split hd
  generalize r.dropWhile Char.isDigit = rest at h split hn
  subst split
  dsimp only at h
  by_cases hne : digits = []
  · subst hne
    exact .inl hn
  rw [if_neg hne] at h
  split at h
  · cases h
  next hf =>
  refine .inr ⟨digits, rest, rfl, ⟨hne, hd⟩, hn, fun hp d hd => ?_, ?_⟩
  · obtain ⟨s, hs⟩ := List.head?_eq_some_iff.1 hd
    by_contra hdigit
    exact hf ⟨hp, by simp [hs, hdigit]⟩
  · split at h
    · cases h
    · next ht => exact integerToken?_eq_none_iff.1 ht

end Lexer

theorem isAlphanum_eq_false {c : Char} (hd : c.isDigit = false) (hw : isWordStart c = false) :
    c.isAlphanum = false ∧ c ≠ '_' := by
  rw [isWordStart, Bool.or_eq_false_iff] at hw
  exact ⟨by rw [Char.isAlphanum, hw.1, hd]; rfl, by simpa using hw.2⟩

theorem Symbol.ofChar?_eq_none {c : Char} (h : Symbol.ofChar? c = none) :
    c ∉ ['(', ')', ',', '=', '.', ';'] := by
  rw [ofChar?, List.find?_eq_none] at h
  intro hc
  have hm : c ∈ [leftParen, rightParen, comma, equal, dot, semicolon].map char := hc
  obtain ⟨s, hs, rfl⟩ := List.mem_map.1 hm
  exact h s hs (beq_self_eq_true _)

theorem head_of_number {c : Char} {r sign digits rest : List Char}
    (h : c :: r = sign ++ digits ++ rest) (hs : IsSign sign) (hd : IsDigits digits) :
    c = '-' ∨ c.isDigit = true := by
  rcases hs with rfl | rfl
  · obtain ⟨d, ds, rfl⟩ := List.exists_cons_of_ne_nil hd.1
    cases h
    exact .inr (hd.2 c List.mem_cons_self)
  · cases h
    exact .inl rfl

namespace LexFault

theorem exists_shows {c : Char} {r : List Char} (h : Lexer.scan (c :: r) = none) :
    ∃ f, Shows c r f := by
  simp only [Lexer.scan] at h
  split at h
  · cases h
  next hb =>
  split at h
  · next hq =>
    subst hq
    exact ⟨_, .string (Lexer.quoted_eq_none_iff.1 h)⟩
  next hquote =>
  split at h
  · next hq =>
    subst hq
    exact ⟨_, .identifier (Lexer.quoted_eq_none_iff.1 h)⟩
  next htick =>
  split at h
  · next hc =>
    subst hc
    split at h
    · next hs =>
      obtain ⟨r, rfl⟩ := List.head?_eq_some_iff.1 hs
      rw [Lexer.blockComment, Option.map_eq_none_iff] at h
      exact ⟨_, .comment (Lexer.throughCommentClose_eq_none_iff.1 h)⟩
    · next hs => exact ⟨_, .character (.slash hs)⟩
  next hslash =>
  split at h
  · next hc =>
    subst hc
    split at h
    · cases h
    next hm =>
    refine ⟨_, .character ?_⟩
    rcases Lexer.number_eq_none h with hd | ⟨digits, rest, rfl, hd, hr, hp, hv⟩
    · exact .minus fun d hd' => ⟨hd d hd', by rintro rfl; exact hm hd'⟩
    · exact .outOfRange rfl (.inr rfl) hd hr hp hv
  next hminus =>
  split at h
  · next hd =>
    rcases Lexer.number_eq_none h with hn | ⟨digits, rest, he, hd, hr, hp, hv⟩
    · exact absurd hd (Bool.eq_false_iff.1 (hn c rfl))
    · exact ⟨_, .character (.outOfRange he (.inl rfl) hd hr hp hv)⟩
  next hd =>
  split at h
  · cases h
  next hw =>
  rw [Bool.not_eq_true] at hb hd hw
  obtain ⟨ha, hu⟩ := isAlphanum_eq_false hd hw
  have hs := Symbol.ofChar?_eq_none (Option.map_eq_none_iff.1 h)
  exact ⟨_, .character (.other hb ha (List.not_mem_cons_of_ne_of_not_mem hu hs)
    (by simp [hquote, htick, hminus, hslash]))⟩

/-- A text shows one fault at most, and it is told by the first two characters. -/
theorem eq_of_shows {c : Char} {r : List Char} {f : LexFault} (h : Shows c r f) : f = .of c r := by
  cases h with
  | string => rfl
  | identifier => rfl
  | comment => rfl
  | character h =>
    have other : c ≠ '\x27' → c ≠ '\x60' → (c = '/' → r.head? ≠ some '*') →
        .unexpectedCharacter c = LexFault.of c r := fun hs hi hc => by
      rw [LexFault.of, if_neg hs, if_neg hi, if_neg (not_and.2 hc)]
    cases h with
    | outOfRange he hs hd =>
      rcases head_of_number he hs hd with rfl | hc
      · exact other (by decide) (by decide) fun h => absurd h (by decide)
      · exact other (ne_of_class hc rfl) (ne_of_class hc rfl)
          fun h => absurd h (ne_of_class hc rfl)
    | minus => exact other (by decide) (by decide) fun h => absurd h (by decide)
    | slash hs => exact other (by decide) (by decide) fun _ => hs
    | other _ _ _ hc =>
      simp only [List.mem_cons, List.not_mem_nil, or_false, not_or] at hc
      exact other hc.1 hc.2.1 fun h => absurd h hc.2.2.2

end LexFault

theorem not_starts_of_scan {s : List Char} (h : Lexer.scan s = none) : ¬Lexer.Starts s := by
  rintro ⟨p, rest, hp⟩
  rw [Lexer.scan_eq_some_iff.2 hp] at h
  cases h

/-- **Faults of reading are exact.** Cutting a text into pieces always goes on, so reading ends. A
fault stands where no piece starts, after a text that can be read on its own, and it is the one that
the text from there on shows. -/
theorem tokenize_faults (input : String) :
    Lexer.guarded input.toList = some (Lexer.pieces input.toList) ∧
    ∀ e, tokenize input = .error e → ∃ before c r, input.toList = before ++ c :: r ∧
      e.location = .advance .origin before ∧ e.location.offset = String.utf8Len before ∧
      (∃ ts, tokenize (String.ofList before) = .ok ts) ∧
      ¬Lexer.Starts (c :: r) ∧ ∀ f, e.fault = f ↔ LexFault.Shows c r f := by
  refine ⟨Lexer.guarded_eq _, fun e h => ?_⟩
  obtain ⟨hi, hc, hn⟩ := Lexer.pieces_eq_iff.1 (Prod.mk.eta (p := Lexer.pieces input.toList)).symm
  simp only [tokenize, tokenizeFrom] at h
  generalize (Lexer.pieces input.toList).1 = ps at h hi hc
  generalize (Lexer.pieces input.toList).2 = after at h hi hc hn
  cases after with
  | nil => cases h
  | cons c r =>
    cases h
    have alone := tokenize_ofList (Lexer.pieces_of_cuts (Lexer.Cuts.of_append (a := []) hc))
    refine ⟨ps.flatMap Piece.text, c, r, hi, rfl, Location.offset_advance_origin _, ⟨_, alone⟩,
      not_starts_of_scan hn, fun f => ?_⟩
    constructor
    · rintro rfl
      obtain ⟨f, hf⟩ := LexFault.exists_shows hn
      exact LexFault.eq_of_shows hf ▸ hf
    · exact fun hf => (LexFault.eq_of_shows hf).symm

theorem tokenize_faults_too_large :
    let input := "RESET -99999999999999999999"
    ∃ before r, input.toList = before ++ '-' :: r ∧ Stray '-' r := by
  intro input
  have h : tokenize input = .error ⟨.unexpectedCharacter '-', ⟨1, 7, 6⟩⟩ := by decide +kernel
  obtain ⟨before, c, r, hi, -, -, -, -, hf⟩ := (tokenize_faults input).2 _ h
  cases (hf _).1 rfl with
  | character hs => exact ⟨before, r, hi, hs⟩

end AlterCatalog
