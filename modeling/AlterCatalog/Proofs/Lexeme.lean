import AlterCatalog.Proofs.Quoted
import AlterCatalog.Token.Lexer

/-!
# Lexemes

What a single piece of source can be, said without a scanner, and what may not come right after it.
A text starts with a piece exactly when it is a lexeme followed by something that does not belong
to it (`scan_eq_some_iff`). So a piece is the longest one that fits at its place, and what comes
after it counts for one or two characters at most.
-/

namespace AlterCatalog

def IsSign (s : List Char) : Prop := s = [] ∨ s = ['-']

def IsDigits (s : List Char) : Prop := s ≠ [] ∧ ∀ c ∈ s, c.isDigit = true

/-- An optional minus sign, digits, a point and digits. -/
def IsDecimal (s : List Char) : Prop :=
  ∃ sign whole fraction, IsSign sign ∧ IsDigits whole ∧ IsDigits fraction ∧
    s = sign ++ whole ++ '.' :: fraction

/-- The number that digits after a sign stand for. -/
def signedValue (sign digits : List Char) : Int :=
  if sign = [] then (Nat.ofDigitChars 10 digits 0 : Int) else -(Nat.ofDigitChars 10 digits 0 : Int)

inductive Lexeme : List Char → Option Token → Prop
  | blank {s : List Char} : s ≠ [] → (∀ c ∈ s, isBlank c = true) → Lexeme s none
  | lineComment {s : List Char} : '\n' ∉ s → Lexeme ('-' :: '-' :: s) none
  | blockComment {s : List Char} : ¬['*', '/'] <:+: s ++ ['*'] →
      Lexeme ('/' :: '*' :: (s ++ ['*', '/'])) none
  | string (v : List Char) : Lexeme (Quoted.enclose '\x27' v) (some (.string (String.ofList v)))
  | delimited (v : List Char) :
      Lexeme (Quoted.enclose '\x60' v) (some (.quotedIdentifier (String.ofList v)))
  | decimal {s : List Char} : IsDecimal s → Lexeme s (some (.decimal (String.ofList s)))
  | integer {sign digits : List Char} {value : Int64} : IsSign sign → IsDigits digits →
      value.toInt = signedValue sign digits → Lexeme (sign ++ digits) (some (.integer value))
  | word {s : List Char} : isWord s = true → Lexeme s (some (Lexer.wordToken s))
  | symbol (s : Symbol) : Lexeme [s.char] (some (.symbol s))

/-- A piece is over where the rest of the text starts: nothing of the rest belongs to it. -/
def Piece.EndsBefore (p : Piece) (rest : List Char) : Prop :=
  match p.token with
  | none =>
    if p.text.head? = some '-' then ∀ c ∈ rest.head?, c = '\n'
    else if p.text.head? = some '/' then True
    else ∀ c ∈ rest.head?, isBlank c = false
  | some (.string _) => rest.head? ≠ some '\x27'
  | some (.quotedIdentifier _) => rest.head? ≠ some '\x60'
  | some (.decimal _) => ∀ c ∈ rest.head?, c.isDigit = false
  | some (.integer _) =>
    (∀ c ∈ rest.head?, c.isDigit = false) ∧
      (rest.head? = some '.' → ∀ c ∈ (rest.drop 1).head?, c.isDigit = false)
  | some (.keyword _) => ∀ c ∈ rest.head?, isWordPart c = false
  | some (.identifier _) => ∀ c ∈ rest.head?, isWordPart c = false
  | some (.symbol _) => True
  | some .endOfInput => True

theorem Lexeme.ne_nil {s : List Char} {token : Option Token} (h : Lexeme s token) : s ≠ [] := by
  cases h with
  | blank hne _ => exact hne
  | decimal hd =>
    obtain ⟨_, _, _, _, _, _, rfl⟩ := hd
    simp
  | integer _ hd _ => simp [hd.1]
  | word hw =>
    rintro rfl
    cases hw
  | _ => simp [Quoted.enclose]

theorem token_ne_endOfInput {s : List Char} {t : Token} (h : Lexeme s (some t)) :
    t ≠ .endOfInput := by
  cases h with
  | word hw =>
    unfold Lexer.wordToken
    split <;> simp
  | _ => simp

theorem Piece.EndsBefore.of_append {p : Piece} {a b : List Char} (h : p.EndsBefore (a ++ b)) :
    p.EndsBefore a := by
  cases a with
  | nil => cases p with | mk text token => cases token with
    | none => simp [EndsBefore]
    | some t => cases t <;> simp [EndsBefore]
  | cons c a =>
    obtain ⟨text, token⟩ := p
    cases token with
    | none => exact h
    | some t =>
      cases t with
      | integer value =>
        refine ⟨h.1, fun hc d hd => h.2 hc d ?_⟩
        cases a with
        | nil => cases hd
        | cons e a => exact hd
      | _ => exact h

theorem endsBefore_word {s rest : List Char} :
    Piece.EndsBefore ⟨s, some (Lexer.wordToken s)⟩ rest ↔ ∀ c ∈ rest.head?, isWordPart c = false := by
  unfold Lexer.wordToken
  split <;> exact Iff.rfl

/-! ## Classes of characters -/

theorem ne_of_class {p : Char → Bool} {c d : Char} (hc : p c = true) (hd : p d = false) : c ≠ d := by
  intro h
  rw [h, hd] at hc
  cases hc

theorem isDigit_iff {c : Char} : c.isDigit = true ↔ 48 ≤ c.toNat ∧ c.toNat ≤ 57 := by
  simp only [Char.isDigit, Bool.and_eq_true, decide_eq_true_eq, ge_iff_le, UInt32.le_iff_toNat_le]
  rfl

theorem isAlpha_iff {c : Char} :
    c.isAlpha = true ↔ (65 ≤ c.toNat ∧ c.toNat ≤ 90) ∨ (97 ≤ c.toNat ∧ c.toNat ≤ 122) := by
  show (decide (c.val ≥ 'A'.val ∧ c.val ≤ 'Z'.val) ||
    decide (c.val ≥ 'a'.val) && decide (c.val ≤ 'z'.val)) = true ↔ _
  simp only [Bool.or_eq_true, Bool.and_eq_true, decide_eq_true_eq, ge_iff_le,
    UInt32.le_iff_toNat_le]
  exact Iff.rfl

theorem isWordStart_iff {c : Char} :
    isWordStart c = true ↔
      (65 ≤ c.toNat ∧ c.toNat ≤ 90) ∨ (97 ≤ c.toNat ∧ c.toNat ≤ 122) ∨ c.toNat = 95 := by
  simp only [isWordStart, Bool.or_eq_true, isAlpha_iff, beq_iff_eq, ← Char.toNat_inj, or_assoc]
  exact Iff.rfl

theorem isBlank_of_isDigit {c : Char} (h : c.isDigit = true) : isBlank c = false := by
  rw [isDigit_iff] at h
  simp only [isBlank, Bool.or_eq_false_iff, Bool.and_eq_false_iff, decide_eq_false_iff_not,
    beq_eq_false_iff_ne]
  omega

theorem isBlank_of_isWordStart {c : Char} (h : isWordStart c = true) : isBlank c = false := by
  rw [isWordStart_iff] at h
  simp only [isBlank, Bool.or_eq_false_iff, Bool.and_eq_false_iff, decide_eq_false_iff_not,
    beq_eq_false_iff_ne]
  omega

theorem isBlank_of_isWordPart {c : Char} (h : isWordPart c = true) : isBlank c = false := by
  simp only [isWordPart, Char.isAlphanum, Bool.or_eq_true, isAlpha_iff, isDigit_iff, beq_iff_eq,
    ← Char.toNat_inj] at h
  simp only [isBlank, Bool.or_eq_false_iff, Bool.and_eq_false_iff, decide_eq_false_iff_not,
    beq_eq_false_iff_ne]
  have : '_'.toNat = 95 := rfl
  have : '$'.toNat = 36 := rfl
  omega

theorem isDigit_of_isWordStart {c : Char} (h : isWordStart c = true) : c.isDigit = false := by
  rw [isWordStart_iff] at h
  rw [Bool.eq_false_iff, Ne, isDigit_iff]
  omega

/-- No lexeme with a token begins or ends with a blank. -/
theorem Lexeme.ends {s : List Char} {t : Token} (h : Lexeme s (some t)) :
    (∃ c r, s = c :: r ∧ isBlank c = false) ∧ ∃ r c, s = r ++ [c] ∧ isBlank c = false := by
  have tail : ∀ {r : List Char}, IsDigits r → ∃ r' c, r = r' ++ [c] ∧ isBlank c = false := by
    intro r hr
    rcases List.eq_nil_or_concat r with rfl | ⟨r', c, rfl⟩
    · exact absurd rfl hr.1
    · rw [List.concat_eq_append] at hr ⊢
      exact ⟨r', c, rfl, isBlank_of_isDigit (hr.2 c (by simp))⟩
  have head : ∀ {sign r : List Char} (rest : List Char), IsSign sign → IsDigits r →
      ∃ c r', sign ++ (r ++ rest) = c :: r' ∧ isBlank c = false := by
    intro sign r rest hs hr
    cases r with
    | nil => exact absurd rfl hr.1
    | cons c r =>
      rcases hs with rfl | rfl
      · exact ⟨c, r ++ rest, rfl, isBlank_of_isDigit (hr.2 c (by simp))⟩
      · exact ⟨'-', c :: (r ++ rest), rfl, rfl⟩
  cases h with
  | string v => exact ⟨⟨'\x27', _, rfl, rfl⟩, '\x27' :: Quoted.double '\x27' v, '\x27', rfl, rfl⟩
  | delimited v =>
    exact ⟨⟨'\x60', _, rfl, rfl⟩, '\x60' :: Quoted.double '\x60' v, '\x60', rfl, rfl⟩
  | decimal hd =>
    obtain ⟨sign, whole, fraction, hs, hw, hf, rfl⟩ := hd
    obtain ⟨r, c, rfl, hc⟩ := tail hf
    rw [List.append_assoc]
    exact ⟨head _ hs hw, sign ++ (whole ++ '.' :: r), c, by simp, hc⟩
  | @integer sign digits _ hs hd _ =>
    obtain ⟨r, c, hr, hc⟩ := tail hd
    have hh := head [] hs hd
    rw [List.append_nil] at hh
    exact ⟨hh, sign ++ r, c, by rw [hr, List.append_assoc], hc⟩
  | word hw =>
    cases s with
    | nil => cases hw
    | cons c r =>
      simp only [isWord, Bool.and_eq_true, List.all_eq_true] at hw
      refine ⟨⟨c, r, rfl, isBlank_of_isWordStart hw.1⟩, ?_⟩
      rcases List.eq_nil_or_concat (c :: r) with h | ⟨r', d, h⟩
      · cases h
      · rw [List.concat_eq_append] at h
        have hd : d ∈ c :: r := by simp [h]
        refine ⟨r', d, h, isBlank_of_isWordPart ?_⟩
        rcases List.mem_cons.1 hd with rfl | hd
        · exact Lexer.isWordPart_of_isWordStart hw.1
        · exact hw.2 d hd
  | symbol s => cases s <;> exact ⟨⟨_, [], rfl, rfl⟩, [], _, rfl, rfl⟩

/-! ## Runs -/

theorem takeWhile_dropWhile_append {p : Char → Bool} {s : List Char} (hs : ∀ c ∈ s, p c = true)
    (rest : List Char) (hr : ∀ c ∈ rest.head?, p c = false) :
    (s ++ rest).takeWhile p = s ∧ (s ++ rest).dropWhile p = rest := by
  rw [List.takeWhile_append_of_pos hs, List.dropWhile_append_of_pos hs]
  cases rest with
  | nil => simp
  | cons c rest => simp [hr c rfl]

theorem not_of_mem_head?_dropWhile {p : Char → Bool} {s : List Char} :
    ∀ c ∈ (s.dropWhile p).head?, p c = false := by
  intro c hc
  have h := List.head?_dropWhile_not p s
  rw [hc] at h
  exact h

theorem mem_takeWhile {p : Char → Bool} {s : List Char} : ∀ c ∈ s.takeWhile p, p c = true :=
  fun _ hc => List.all_eq_true.1 List.all_takeWhile _ hc

namespace Lexer

theorem run_append {p : Char → Bool} (token : List Char → Option Token) {s rest : List Char}
    (hs : ∀ c ∈ s, p c = true) (hr : ∀ c ∈ rest.head?, p c = false) :
    run p token (s ++ rest) = (⟨s, token s⟩, rest) := by
  obtain ⟨ht, hd⟩ := takeWhile_dropWhile_append hs rest hr
  simp only [run, ht, hd]

/-! ## Block comments -/

theorem throughCommentClose_cons {c : Char} {s : List Char} (h : ¬['*', '/'] <+: c :: s) :
    throughCommentClose (c :: s) =
      (throughCommentClose s).map fun (body, rest) => (c :: body, rest) := by
  rw [throughCommentClose]
  rintro r rfl rfl
  exact h (by simp)

theorem throughCommentClose_append_close (rest : List Char) :
    ∀ {s : List Char}, ¬['*', '/'] <:+: s ++ ['*'] →
      throughCommentClose (s ++ ['*', '/'] ++ rest) = some (s ++ ['*', '/'], rest)
  | [], _ => rfl
  | c :: s, h => by
    rw [List.cons_append, List.infix_cons_iff, not_or] at h
    have hc : ¬['*', '/'] <+: c :: (s ++ ['*', '/'] ++ rest) := by
      intro hp
      apply h.1
      cases s with
      | nil => simp at hp
      | cons d s => simpa using hp
    rw [List.cons_append, List.cons_append, throughCommentClose_cons hc,
      throughCommentClose_append_close rest h.2]
    rfl

theorem throughCommentClose_closed {s body rest : List Char}
    (h : throughCommentClose s = some (body, rest)) :
    ∃ t, body = t ++ ['*', '/'] ∧ ¬['*', '/'] <:+: t ++ ['*'] := by
  fun_induction throughCommentClose s generalizing body rest with
  | case1 r =>
    cases h
    exact ⟨[], rfl, by decide⟩
  | case2 c r hc ih =>
    obtain ⟨⟨b, r'⟩, hb, he⟩ := Option.map_eq_some_iff.1 h
    cases he
    obtain ⟨t, rfl, ht⟩ := ih hb
    refine ⟨c :: t, rfl, ?_⟩
    rw [List.cons_append, List.infix_cons_iff, not_or]
    refine ⟨fun hp => ?_, ht⟩
    rw [← throughCommentClose_append hb] at hc
    cases t with
    | nil => simp at hp
    | cons d t =>
      simp only [List.cons_append, List.cons_prefix_cons] at hp
      exact hc _ hp.1.symm (by rw [← hp.2.1]; rfl)
  | case3 => cases h

/-! ## Quoted tokens -/

theorem quoted_append (q : Char) (token : String → Token) {rest : List Char}
    (hr : rest.head? ≠ some q) (v : List Char) :
    quoted q token (Quoted.double q v ++ q :: rest) =
      some (⟨Quoted.enclose q v, some (token (String.ofList v))⟩, rest) := by
  have hs : Quoted.Stops q (q :: rest) := ⟨rfl, hr⟩
  rw [quoted, Quoted.content_double q hs v]
  simp only [Quoted.undouble_double]
  rfl

theorem quoted_enclosed {q : Char} {token : String → Token} {r rest : List Char} {p : Piece}
    (h : quoted q token r = some (p, rest)) :
    ∃ v, p = ⟨Quoted.enclose q v, some (token (String.ofList v))⟩ ∧ rest.head? ≠ some q := by
  unfold quoted at h
  split at h
  · cases h
  · next raw close rest' he =>
    cases h
    obtain ⟨_, ⟨v, rfl⟩, hq, hr⟩ := Quoted.content_eq_iff.1 he
    subst hq
    exact ⟨v, by rw [Quoted.undouble_double]; rfl, hr⟩

/-! ## Numbers -/

theorem integerToken?_eq_some_iff {n : Int} {t : Token} :
    integerToken? n = some t ↔ ∃ value : Int64, value.toInt = n ∧ t = .integer value := by
  unfold integerToken?
  constructor
  · intro h
    split at h
    · next hn =>
      cases h
      exact ⟨_, Int64.toInt_ofInt_of_le hn.1 (Int.lt_add_one_of_le hn.2), rfl⟩
    · cases h
  · rintro ⟨value, rfl, rfl⟩
    rw [if_pos ⟨value.minValue_le_toInt, value.toInt_le⟩, Int64.ofInt_toInt]

theorem number_decimal (sign : List Char) {whole fraction rest : List Char} (hw : IsDigits whole)
    (hf : IsDigits fraction) (hr : ∀ c ∈ rest.head?, c.isDigit = false) :
    number sign (whole ++ '.' :: fraction ++ rest) =
      some (⟨sign ++ whole ++ '.' :: fraction,
        some (.decimal (String.ofList (sign ++ whole ++ '.' :: fraction)))⟩, rest) := by
  obtain ⟨hwt, hwd⟩ := takeWhile_dropWhile_append hw.2 ('.' :: (fraction ++ rest)) (by simp)
  obtain ⟨hft, hfd⟩ := takeWhile_dropWhile_append hf.2 rest hr
  rw [List.append_assoc, List.cons_append]
  simp only [number, hwt, hwd, List.drop_succ_cons, List.drop_zero, hft, hfd, hw.1, hf.1,
    List.head?_cons, if_false, ne_eq, not_false_eq_true, and_self, if_true]

/-- Digits that no fraction follows. -/
theorem number_whole (sign : List Char) {digits rest : List Char} (hd : IsDigits digits)
    (hr : ∀ c ∈ rest.head?, c.isDigit = false)
    (hp : rest.head? = some '.' → ∀ c ∈ (rest.drop 1).head?, c.isDigit = false) :
    number sign (digits ++ rest) =
      (integerToken? (signedValue sign digits)).map fun t => (⟨sign ++ digits, some t⟩, rest) := by
  obtain ⟨hdt, hdd⟩ := takeWhile_dropWhile_append hd.2 rest hr
  have hf : ¬(rest.head? = some '.' ∧ (rest.drop 1).takeWhile Char.isDigit ≠ []) := by
    intro ⟨hdot, hne⟩
    have hn := hp hdot
    cases hc : rest.drop 1 with
    | nil => simp [hc] at hne
    | cons c s => simp [hc, hn c (by simp [hc])] at hne
  unfold signedValue
  simp only [number, hdt, hdd, hd.1, if_false, hf]
  split <;> simp only [*, Option.map_some, Option.map_none]

theorem number_integer {sign digits rest : List Char} {value : Int64} (hd : IsDigits digits)
    (hv : value.toInt = signedValue sign digits)
    (hr : Piece.EndsBefore ⟨sign ++ digits, some (.integer value)⟩ rest) :
    number sign (digits ++ rest) = some (⟨sign ++ digits, some (.integer value)⟩, rest) := by
  rw [number_whole sign hd hr.1 hr.2, integerToken?_eq_some_iff.2 ⟨value, hv, rfl⟩]
  rfl

theorem number_lexeme {sign r rest : List Char} {p : Piece} (hs : IsSign sign)
    (h : number sign r = some (p, rest)) : Lexeme p.text p.token ∧ p.EndsBefore rest := by
  have hd : ∀ c ∈ r.takeWhile Char.isDigit, c.isDigit = true := mem_takeWhile
  have hn : ∀ c ∈ (r.dropWhile Char.isDigit).head?, c.isDigit = false :=
    not_of_mem_head?_dropWhile
  unfold number at h
  generalize r.takeWhile Char.isDigit = digits at h hd
  generalize r.dropWhile Char.isDigit = tail at h hn
  simp only at h
  split at h
  · cases h
  next hne =>
  split at h
  · next hf =>
    cases h
    exact ⟨.decimal ⟨sign, digits, _, hs, ⟨hne, hd⟩, ⟨hf.2, mem_takeWhile⟩, rfl⟩,
      not_of_mem_head?_dropWhile⟩
  · next hf =>
    split at h
    · next t ht =>
      cases h
      obtain ⟨value, hv, rfl⟩ := integerToken?_eq_some_iff.1 ht
      refine ⟨.integer hs ⟨hne, hd⟩ hv, hn, fun hp c hc => ?_⟩
      cases hb : c.isDigit with
      | false => rfl
      | true =>
        refine absurd ⟨hp, ?_⟩ hf
        obtain ⟨s, hs⟩ := List.head?_eq_some_iff.1 hc
        simp [hs, hb]
    · cases h

/-! ## Pieces -/

theorem scan_blank {c : Char} (h : isBlank c = true) (r : List Char) :
    scan (c :: r) = some (run isBlank (fun _ => none) (c :: r)) := by
  simp only [scan, h, if_true]

theorem scan_digit {c : Char} (h : c.isDigit = true) (r : List Char) :
    scan (c :: r) = number [] (c :: r) := by
  rw [scan, if_neg (by simp [isBlank_of_isDigit h]), if_neg (ne_of_class h rfl),
    if_neg (ne_of_class h rfl), if_neg (ne_of_class h rfl), if_neg (ne_of_class h rfl), if_pos h]

theorem scan_wordStart {c : Char} (h : isWordStart c = true) (r : List Char) :
    scan (c :: r) = some (run isWordPart (fun w => some (wordToken w)) (c :: r)) := by
  rw [scan, if_neg (by simp [isBlank_of_isWordStart h]), if_neg (ne_of_class h rfl),
    if_neg (ne_of_class h rfl), if_neg (ne_of_class h rfl), if_neg (ne_of_class h rfl),
    if_neg (by simp [isDigit_of_isWordStart h]), if_pos h]

theorem scan_signed {sign digits : List Char} (hs : IsSign sign) (hd : IsDigits digits)
    (rest : List Char) : scan (sign ++ (digits ++ rest)) = number sign (digits ++ rest) := by
  cases digits with
  | nil => exact absurd rfl hd.1
  | cons c r =>
    have hc : c.isDigit = true := hd.2 c (by simp)
    rcases hs with rfl | rfl
    · exact scan_digit hc _
    · have hne : c ≠ '-' := ne_of_class hc rfl
      simp [scan, isBlank, hne]

theorem scan_append {text : List Char} {token : Option Token} (h : Lexeme text token)
    {rest : List Char} (he : Piece.EndsBefore ⟨text, token⟩ rest) :
    scan (text ++ rest) = some (⟨text, token⟩, rest) := by
  cases h with
  | blank hne hb =>
    cases text with
    | nil => exact absurd rfl hne
    | cons c r =>
      have hc := hb c (by simp)
      have hm : c ≠ '-' := ne_of_class hc rfl
      have hs : c ≠ '/' := ne_of_class hc rfl
      simp only [Piece.EndsBefore, List.head?_cons, Option.some.injEq, hm, hs, if_false] at he
      rw [List.cons_append, scan_blank hc, ← List.cons_append, run_append _ hb he]
  | @lineComment s hs =>
    have hm : ∀ c ∈ '-' :: '-' :: s, (c != '\n') = true := by
      intro c hc
      rw [bne_iff_ne]
      rintro rfl
      simp at hc
      exact hs hc
    have hr : ∀ c ∈ rest.head?, (c != '\n') = false := by
      intro c hc
      rw [he c hc]
      rfl
    have hl := run_append (fun _ => none) hm hr
    simp only [List.cons_append] at hl ⊢
    simp [scan, isBlank, lineComment, hl]
  | @blockComment s hs =>
    have hc := throughCommentClose_append_close rest hs
    simp only [List.cons_append, List.append_assoc, List.nil_append] at hc ⊢
    simp [scan, isBlank, blockComment, hc]
  | string v =>
    have hq := quoted_append '\x27' .string he v
    simp only [Quoted.enclose, List.cons_append, List.append_assoc, List.nil_append]
    simp [scan, isBlank, hq, Quoted.enclose]
  | delimited v =>
    have hq := quoted_append '\x60' .quotedIdentifier he v
    simp only [Quoted.enclose, List.cons_append, List.append_assoc, List.nil_append]
    simp [scan, isBlank, hq, Quoted.enclose]
  | decimal hd =>
    obtain ⟨sign, whole, fraction, hs, hw, hf, rfl⟩ := hd
    have hn := number_decimal sign hw hf he
    rw [List.append_assoc] at hn
    rw [List.append_assoc, List.append_assoc, scan_signed hs hw]
    exact hn
  | integer hs hd hv =>
    rw [List.append_assoc, scan_signed hs hd]
    exact number_integer hd hv he
  | word hw =>
    cases text with
    | nil => cases hw
    | cons c r =>
      simp only [isWord, Bool.and_eq_true, List.all_eq_true] at hw
      have hp : ∀ d ∈ c :: r, isWordPart d = true :=
        List.forall_mem_cons.2 ⟨isWordPart_of_isWordStart hw.1, hw.2⟩
      rw [List.cons_append, scan_wordStart hw.1, ← List.cons_append,
        run_append _ hp (endsBefore_word.1 he)]
  | symbol s => cases s <;> rfl

theorem scan_lexeme {s rest : List Char} {p : Piece} (h : scan s = some (p, rest)) :
    Lexeme p.text p.token ∧ p.EndsBefore rest := by
  cases s with
  | nil => cases h
  | cons c r =>
    simp only [scan] at h
    -- One split for each class that the first character is tried for, in the order of `scan`.
    split at h
    · next hb =>
      cases h
      have hm : c ≠ '-' := ne_of_class hb rfl
      have hs : c ≠ '/' := ne_of_class hb rfl
      refine ⟨.blank (by simp [hb]) mem_takeWhile, ?_⟩
      simp only [Piece.EndsBefore, List.takeWhile_cons, hb, if_true, List.head?_cons,
        Option.some.injEq, hm, hs, if_false]
      exact not_of_mem_head?_dropWhile
    split at h
    · obtain ⟨v, rfl, hr⟩ := quoted_enclosed h
      exact ⟨.string v, hr⟩
    split at h
    · obtain ⟨v, rfl, hr⟩ := quoted_enclosed h
      exact ⟨.delimited v, hr⟩
    split at h
    · split at h
      · obtain ⟨⟨body, rest'⟩, hb, he⟩ := Option.map_eq_some_iff.1 h
        cases he
        obtain ⟨t, rfl, ht⟩ := throughCommentClose_closed hb
        exact ⟨.blockComment ht, trivial⟩
      · cases h
    split at h
    · next hc =>
      subst hc
      split at h
      · next hm =>
        cases h
        obtain ⟨r, rfl⟩ := List.head?_eq_some_iff.1 hm
        refine ⟨.lineComment fun hn => ?_, fun c hc => ?_⟩
        · simpa using mem_takeWhile _ hn
        · simpa using not_of_mem_head?_dropWhile c hc
      · exact number_lexeme (.inr rfl) h
    split at h
    · exact number_lexeme (.inl rfl) h
    split at h
    · next hw =>
      cases h
      refine ⟨.word ?_, endsBefore_word.2 not_of_mem_head?_dropWhile⟩
      simp only [List.takeWhile_cons, isWordPart_of_isWordStart hw, if_true, isWord, hw,
        Bool.true_and]
      exact List.all_takeWhile
    · obtain ⟨sym, hsym, he⟩ := Option.map_eq_some_iff.1 h
      cases he
      have hc := List.find?_some hsym
      simp only [beq_iff_eq] at hc
      subst hc
      exact ⟨.symbol sym, trivial⟩

/-- **Longest piece.** A text starts with a piece exactly when it is a lexeme and what follows is
no part of it. -/
theorem scan_eq_some_iff {s rest : List Char} {p : Piece} :
    scan s = some (p, rest) ↔
      s = p.text ++ rest ∧ Lexeme p.text p.token ∧ p.EndsBefore rest := by
  constructor
  · intro h
    exact ⟨(scan_startsWith h).1, scan_lexeme h⟩
  · rintro ⟨rfl, hl, he⟩
    exact scan_append hl he

end Lexer

end AlterCatalog
