import AlterCatalog.Proofs.Pieces

/-!
# What stands between tokens

White space and closed comments are filler. Filler before or after a token of a text leaves its
tokens as they are: no character that opens filler goes on with a token, and what filler ends with
goes on with nothing. Only a line comment that its text does not close would take more with it, and
such a comment never stands right before a token.
-/

namespace AlterCatalog

/-- White space, block comments, and line comments with the line feed that closes them. -/
inductive Filler : List Char → Prop
  | nil : Filler []
  | blank {c : Char} {s : List Char} : isBlank c = true → Filler s → Filler (c :: s)
  | blockComment {body s : List Char} : ¬['*', '/'] <:+: body ++ ['*'] → Filler s →
      Filler ('/' :: '*' :: (body ++ ['*', '/']) ++ s)
  | lineComment {body s : List Char} : '\n' ∉ body → Filler s →
      Filler ('-' :: '-' :: body ++ '\n' :: s)

theorem Filler.head {c : Char} {s : List Char} (h : Filler (c :: s)) :
    isBlank c = true ∨ c = '-' ∨ c = '/' := by
  generalize hs : c :: s = x at h
  cases h with
  | nil => cases hs
  | blank hc =>
    cases hs
    exact .inl hc
  | blockComment =>
    cases hs
    exact .inr (.inr rfl)
  | lineComment =>
    cases hs
    exact .inr (.inl rfl)

/-- No token goes on with a character that opens filler. -/
theorem Filler.head_class {c : Char} {s : List Char} (h : Filler (c :: s)) :
    c.isDigit = false ∧ isWordPart c = false ∧ c ≠ '\x27' ∧ c ≠ '\x60' ∧ c ≠ '.' := by
  rcases h.head with hc | rfl | rfl
  · exact ⟨Bool.eq_false_iff.2 fun hd => ne_of_class hc (isBlank_of_isDigit hd) rfl,
      Bool.eq_false_iff.2 fun hw => ne_of_class hc (isBlank_of_isWordPart hw) rfl,
      ne_of_class hc rfl, ne_of_class hc rfl, ne_of_class hc rfl⟩
  · decide
  · decide

theorem Filler.append_blanks : ∀ {s r : List Char}, (∀ c ∈ s, isBlank c = true) → Filler r →
    Filler (s ++ r)
  | [], _, _, hr => hr
  | _ :: _, _, hs, hr => by
    obtain ⟨hc, hs⟩ := List.forall_mem_cons.1 hs
    exact .blank hc (append_blanks hs hr)

/-- What holds no token: filler, and then a line comment at most that nothing closes. -/
inductive Tokenless : List Char → Prop
  | filler {s : List Char} : Filler s → Tokenless s
  | opened {a b : List Char} : Filler a → '\n' ∉ b → Tokenless (a ++ '-' :: '-' :: b)

theorem Tokenless.prepend {y s : List Char} (hs : Tokenless s) (h : ∀ {r}, Filler r → Filler (y ++ r)) :
    Tokenless (y ++ s) := by
  cases hs with
  | filler hf => exact .filler (h hf)
  | opened ha hb =>
    rw [← List.append_assoc]
    exact .opened (h ha) hb

theorem Filler.of_lineFeed {s : List Char} (h : Filler ('\n' :: s)) : Filler s := by
  generalize hx : '\n' :: s = x at h
  cases h with
  | blank _ hs =>
    cases hx
    exact hs
  | _ => cases hx

theorem Tokenless.of_lineFeed {s : List Char} (h : Tokenless ('\n' :: s)) : Tokenless s := by
  generalize hx : '\n' :: s = x at h
  cases h with
  | filler hf => exact .filler (hx ▸ hf).of_lineFeed
  | @opened a b ha hb =>
    cases a with
    | nil => cases hx
    | cons c a =>
      cases hx
      exact .opened ha.of_lineFeed hb

/-- A token that is over where a text ends is also over where filler begins. -/
theorem Piece.EndsBefore.append_filler {text : List Char} {t : Token} {a x : List Char}
    (h : Piece.EndsBefore ⟨text, some t⟩ a) {c : Char} (hx : Filler (c :: x)) (b : List Char) :
    Piece.EndsBefore ⟨text, some t⟩ (a ++ c :: b) := by
  obtain ⟨hd, hw, hquote, htick, hdot⟩ := hx.head_class
  match a with
  | [] => cases t <;> simp [EndsBefore, hd, hw, hquote, htick, hdot]
  | [d] =>
    cases t with
    | integer => exact ⟨h.1, fun _ e he => by cases he; exact hd⟩
    | _ => exact h
  | d :: e :: a => cases t <;> exact h

/-- A token that is over before some text is also over before the text with filler in it. -/
theorem Piece.EndsBefore.insert {text : List Char} {t : Token} {a b x : List Char} (hx : Filler x)
    (h : Piece.EndsBefore ⟨text, some t⟩ (a ++ b)) :
    Piece.EndsBefore ⟨text, some t⟩ (a ++ (x ++ b)) := by
  cases x with
  | nil => exact h
  | cons c x => exact h.of_append.append_filler hx (x ++ b)

namespace Lexer

/-- The tokens of a text, and the text from where nothing more can be read. -/
def reading (s : List Char) : List Token × List Char :=
  ((pieces s).1.filterMap Piece.token, (pieces s).2)

theorem reading_nil : reading [] = ([], []) := by
  rw [reading, pieces_of_none rfl]
  rfl

theorem reading_of_scan {s rest : List Char} {p : Piece} (h : scan s = some (p, rest)) :
    reading s = (p.token.toList ++ (reading rest).1, (reading rest).2) := by
  rw [reading, pieces_of_some h]
  cases hp : p.token <;> simp [reading, hp]

theorem reading_skip {s rest : List Char} {text : List Char}
    (h : scan s = some (⟨text, none⟩, rest)) : reading s = reading rest := by
  rw [reading_of_scan h]
  rfl

theorem reading_dropWhile (s : List Char) : reading (s.dropWhile isBlank) = reading s := by
  cases s with
  | nil => rfl
  | cons c r =>
    by_cases hc : isBlank c = true
    · exact (reading_skip (scan_blank hc r)).symm
    · rw [List.dropWhile_cons_of_neg hc]

theorem reading_blank {c : Char} (hc : isBlank c = true) (r : List Char) :
    reading (c :: r) = reading r := by
  rw [← reading_dropWhile, List.dropWhile_cons_of_pos hc, reading_dropWhile]

theorem reading_filler {x : List Char} (h : Filler x) (rest : List Char) :
    reading (x ++ rest) = reading rest := by
  induction h with
  | nil => rfl
  | blank hc _ ih => rw [List.cons_append, reading_blank hc, ih]
  | blockComment hb _ ih =>
    rw [List.append_assoc, reading_skip (scan_append (.blockComment hb) trivial), ih]
  | @lineComment body s hb _ ih =>
    have he : Piece.EndsBefore ⟨'-' :: '-' :: body, none⟩ ('\n' :: s ++ rest) := by
      simp [Piece.EndsBefore]
    rw [List.append_assoc, reading_skip (scan_append (.lineComment hb) he)]
    exact (reading_blank rfl _).trans ih

/-- A piece without a token, before a text in which a later place changes: it is skipped as before,
unless it is a line comment and the change comes right after it. -/
theorem reading_blankPiece {text r r' : List Char} (hl : Lexeme text none)
    (he : Piece.EndsBefore ⟨text, none⟩ r) (ih : reading r' = reading r)
    (hr : text.head? = some '-' → r'.head? = r.head?) :
    reading (text ++ r') = reading (text ++ r) := by
  cases hl with
  | blank _ hb =>
    have hf : Filler text := by simpa using Filler.append_blanks hb .nil
    rw [reading_filler hf, reading_filler hf, ih]
  | blockComment hb =>
    rw [reading_skip (scan_append (.blockComment hb) trivial), ih,
      reading_skip (scan_append (.blockComment hb) trivial)]
  | @lineComment body hb =>
    have he' : Piece.EndsBefore ⟨'-' :: '-' :: body, none⟩ r' := by
      simp only [Piece.EndsBefore, List.head?_cons, if_true] at he ⊢
      rw [hr rfl]
      exact he
    rw [reading_skip (scan_append (.lineComment hb) he'), ih,
      reading_skip (scan_append (.lineComment hb) he)]

/-- A line comment is over at a line feed, with which no token begins. -/
theorem not_lineComment_before_token {text : List Char} {q : Piece} {r : List Char}
    (he : Piece.EndsBefore ⟨text, none⟩ (q.text ++ r)) (hq : Lexeme q.text q.token)
    (ht : q.token.isSome) : text.head? ≠ some '-' := by
  intro hm
  obtain ⟨t, ht⟩ := Option.isSome_iff_exists.1 ht
  rw [ht] at hq
  obtain ⟨⟨c, s, hc, hb⟩, -⟩ := hq.ends
  simp only [Piece.EndsBefore, hm, if_true, hc, List.cons_append, List.head?_cons,
    Option.mem_some_iff, forall_eq'] at he
  rw [he] at hb
  cases hb

/-- Filler at the seam of two stretches of pieces counts for nothing, if the seam is at a token. -/
theorem reading_insert {x : List Char} (hx : Filler x) {after : List Piece} {rest : List Char} :
    ∀ {before : List Piece}, Cuts (before ++ after) rest →
      (∀ p ∈ before.getLast?, p.token = none → ∃ q ∈ after.head?, q.token.isSome) →
      reading (before.flatMap Piece.text ++ (x ++ (after.flatMap Piece.text ++ rest))) =
        reading (before.flatMap Piece.text ++ (after.flatMap Piece.text ++ rest))
  | [], _, _ => reading_filler hx _
  | ⟨text, token⟩ :: before, h, hs => by
    obtain ⟨hl, he, hcut⟩ := h
    change Cuts (before ++ after) rest at hcut
    change Piece.EndsBefore _ ((before ++ after).flatMap Piece.text ++ rest) at he
    rw [List.flatMap_append, List.append_assoc] at he
    have ih := reading_insert hx hcut (by
      cases before with
      | nil => simp
      | cons b before => simpa using hs)
    simp only [List.flatMap_cons, List.append_assoc]
    cases token with
    | some t =>
      rw [reading_of_scan (scan_append hl (he.insert hx)), reading_of_scan (scan_append hl he), ih]
    | none =>
      refine reading_blankPiece hl he ih fun hm => ?_
      cases before with
      | cons b before =>
        obtain ⟨c, s, hc⟩ := List.exists_cons_of_ne_nil hcut.1.ne_nil
        simp [hc]
      | nil =>
        obtain ⟨q, hq, ht⟩ := hs _ rfl rfl
        obtain ⟨after, rfl⟩ := List.head?_eq_some_iff.1 hq
        rw [List.flatMap_nil, List.nil_append, List.flatMap_cons, List.append_assoc] at he
        exact absurd hm (not_lineComment_before_token he hcut.1 ht)

theorem tokenless_of_cuts : ∀ {ps : List Piece}, Cuts ps [] → (∀ p ∈ ps, p.token = none) →
    Tokenless (ps.flatMap Piece.text)
  | [], _, _ => .filler .nil
  | ⟨text, token⟩ :: ps, h, hn => by
    obtain ⟨hl, he, hcut⟩ := h
    obtain ⟨rfl, hps⟩ : token = none ∧ ∀ p ∈ ps, p.token = none := List.forall_mem_cons.1 hn
    have ih := tokenless_of_cuts hcut hps
    rw [List.flatMap_cons]
    rw [List.append_nil] at he
    generalize ps.flatMap Piece.text = r at he ih
    cases hl with
    | blank _ hb => exact ih.prepend (Filler.append_blanks hb)
    | blockComment hb => exact ih.prepend (.blockComment hb)
    | @lineComment body hb =>
      cases r with
      | nil =>
        rw [List.append_nil]
        exact .opened .nil hb
      | cons c r =>
        obtain rfl : c = '\n' := he c rfl
        have hc : ∀ {s}, Filler s → Filler ('-' :: '-' :: body ++ ['\n'] ++ s) := by
          intro s hs
          simpa using Filler.lineComment hb hs
        simpa using ih.of_lineFeed.prepend hc

theorem reading_tokenless {x : List Char} (h : Tokenless x) : reading x = ([], []) := by
  cases h with
  | filler hf =>
    have h := reading_filler hf []
    rw [List.append_nil] at h
    exact h.trans reading_nil
  | @opened a b ha hb =>
    have he : Piece.EndsBefore ⟨'-' :: '-' :: b, none⟩ [] := by simp [Piece.EndsBefore]
    have h := scan_append (.lineComment hb) he
    rw [List.append_nil] at h
    rw [reading_filler ha, reading_skip h, reading_nil]

theorem reading_eq_nil_iff {x : List Char} : reading x = ([], []) ↔ Tokenless x := by
  constructor
  · intro h
    have hp : pieces x = ((pieces x).1, []) := Prod.ext rfl (Prod.mk.inj h).2
    obtain ⟨hx, hc, -⟩ := pieces_eq_iff.1 hp
    rw [hx, List.append_nil]
    exact tokenless_of_cuts hc (List.filterMap_eq_nil_iff.1 (Prod.mk.inj h).1)
  · exact reading_tokenless

end Lexer

/-! ## Texts and their tokens -/

theorem readsAs_iff_reading {input : String} {tokens : List Token} :
    ReadsAs input tokens ↔ Lexer.reading input.toList = (tokens, []) := by
  rw [readsAs_iff]
  constructor
  · intro h
    obtain ⟨ps, hp, rfl⟩ := h
    rw [Lexer.reading, hp]
  · intro h
    obtain ⟨ht, hr⟩ := Prod.mk.inj h
    exact ⟨_, Prod.ext rfl hr, ht⟩

/-- What reads as no token. -/
theorem tokenize_eq_end_iff {x : String} :
    (∃ l, tokenize x = .ok [endAt l]) ↔ Tokenless x.toList := by
  rw [← Lexer.reading_eq_nil_iff, ← readsAs_iff_reading]
  constructor
  · rintro ⟨l, h⟩
    exact ⟨_, h, rfl⟩
  · rintro ⟨ts, h, ht⟩
    obtain ⟨ps, -, rfl⟩ := tokenize_eq_ok_iff.1 h
    rw [List.map_append] at ht
    have hnil := List.append_cancel_right ht
    rw [List.map_eq_nil_iff.1 hnil] at h
    exact ⟨_, h⟩

end AlterCatalog
