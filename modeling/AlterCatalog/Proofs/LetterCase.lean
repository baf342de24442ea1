import AlterCatalog.Proofs.Erasure

/-!
# Layout and the letter case of keywords

A keyword is a word that spells it in any letter case, and no other piece looks at the case of a
letter that comes after it. So a text with other letters in its keywords is cut at the same places
into the same tokens. And filler that is put in at an end of a token changes none of them.
-/

namespace AlterCatalog

/-! ## Letter case and classes of characters -/

theorem toNat_toUpper (c : Char) :
    c.toUpper.toNat = if 97 ≤ c.toNat ∧ c.toNat ≤ 122 then c.toNat - 32 else c.toNat := by
  have hc : ('a'.val ≤ c.val ∧ c.val ≤ 'z'.val) ↔ 97 ≤ c.toNat ∧ c.toNat ≤ 122 := by
    rw [UInt32.le_iff_toNat_le, UInt32.le_iff_toNat_le]
    exact Iff.rfl
  unfold Char.toUpper
  by_cases h : 97 ≤ c.toNat ∧ c.toNat ≤ 122
  · rw [dif_pos (hc.2 h), if_pos h]
    show (c.val + ('A'.val - 'a'.val)).toNat = _
    rw [UInt32.toNat_add]
    have : ('A'.val - 'a'.val).toNat = 4294967264 := rfl
    have : c.val.toNat = c.toNat := rfl
    omega
  · rw [dif_neg (mt hc.1 h), if_neg h]

theorem eq_or_isAlpha {c d : Char} (h : c.toUpper = d.toUpper) :
    c = d ∨ c.isAlpha = true ∧ d.isAlpha = true := by
  have hn := congrArg Char.toNat h
  rw [toNat_toUpper, toNat_toUpper] at hn
  rw [← Char.toNat_inj, isAlpha_iff, isAlpha_iff]
  grind

/-- A class that holds all letters or none does not look at letter case. -/
theorem class_eq {p : Char → Bool} {b : Bool} (hp : ∀ c, c.isAlpha = true → p c = b) {c d : Char}
    (h : c.toUpper = d.toUpper) : p c = p d := by
  rcases eq_or_isAlpha h with rfl | ⟨hc, hd⟩
  · rfl
  · rw [hp c hc, hp d hd]

theorem isWordStart_of_isAlpha {c : Char} (h : c.isAlpha = true) : isWordStart c = true := by
  simp [isWordStart, h]

theorem isBlank_eq {c d : Char} (h : c.toUpper = d.toUpper) : isBlank c = isBlank d :=
  class_eq (fun _ hc => isBlank_of_isWordStart (isWordStart_of_isAlpha hc)) h

theorem isDigit_eq {c d : Char} (h : c.toUpper = d.toUpper) : c.isDigit = d.isDigit :=
  class_eq (fun _ hc => isDigit_of_isWordStart (isWordStart_of_isAlpha hc)) h

theorem isWordStart_eq {c d : Char} (h : c.toUpper = d.toUpper) : isWordStart c = isWordStart d :=
  class_eq (fun _ => isWordStart_of_isAlpha) h

theorem isWordPart_eq {c d : Char} (h : c.toUpper = d.toUpper) : isWordPart c = isWordPart d :=
  class_eq (fun _ hc => Lexer.isWordPart_of_isWordStart (isWordStart_of_isAlpha hc)) h

theorem eq_iff_of_not_isAlpha {c d e : Char} (he : e.isAlpha = false) (h : c.toUpper = d.toUpper) :
    c = e ↔ d = e := by
  have hne : ∀ f : Char, f.isAlpha = true → (f == e) = false :=
    fun f hf => beq_eq_false_iff_ne.2 (ne_of_class hf he)
  rw [← beq_iff_eq, class_eq hne h, beq_iff_eq]

theorem utf8Size_eq {c d : Char} (h : c.toUpper = d.toUpper) : c.utf8Size = d.utf8Size := by
  have hone : ∀ {e : Char}, e.isAlpha = true → e.utf8Size = 1 := by
    intro e he
    rw [isAlpha_iff] at he
    rw [Char.utf8Size_eq_one_iff, UInt32.le_iff_toNat_le]
    have : e.val.toNat = e.toNat := rfl
    have : (127 : UInt32).toNat = 127 := rfl
    omega
  rcases eq_or_isAlpha h with rfl | ⟨hc, hd⟩
  · rfl
  · rw [hone hc, hone hd]

/-! ## Texts that differ in letter case -/

/-- The same characters, letter case aside. -/
def SameLetters (s s' : List Char) : Prop := List.Forall₂ (fun c d => c.toUpper = d.toUpper) s s'

namespace SameLetters

variable {s s' : List Char} (h : SameLetters s s')
include h

theorem map_toUpper : s.map Char.toUpper = s'.map Char.toUpper := by
  induction h with
  | nil => rfl
  | cons hc _ ih => rw [List.map_cons, List.map_cons, hc, ih]

theorem advance (l : Location) : l.advance s = l.advance s' := by
  induction h generalizing l with
  | nil => rfl
  | @cons c d _ _ hc _ ih =>
    have hstep : l.step c = l.step d := by
      have hn : c = '\n' ↔ d = '\n' := eq_iff_of_not_isAlpha rfl hc
      simp only [Location.step, hn, utf8Size_eq hc]
    rw [Location.advance_cons, Location.advance_cons, hstep, ih]

theorem all_isWordPart : s.all isWordPart = s'.all isWordPart := by
  induction h with
  | nil => rfl
  | cons hc _ ih => rw [List.all_cons, List.all_cons, isWordPart_eq hc, ih]

theorem isWord_eq : isWord s = isWord s' := by
  cases h with
  | nil => rfl
  | cons hc hs => rw [isWord, isWord, isWordStart_eq hc, all_isWordPart hs]

theorem head? {p : Char → Prop} (hp : ∀ {c d}, c.toUpper = d.toUpper → p c → p d)
    (hs : ∀ c ∈ s.head?, p c) : ∀ d ∈ s'.head?, p d := by
  cases h with
  | nil => simp
  | cons hc _ =>
    rintro d ⟨⟩
    exact hp hc (hs _ rfl)

theorem drop_one : SameLetters (s.drop 1) (s'.drop 1) := by
  cases h with
  | nil => exact .nil
  | cons _ hs => exact hs

theorem endsBefore {p : Piece} (he : p.EndsBefore s) : p.EndsBefore s' := by
  have other : ∀ {e : Char}, e.isAlpha = false → (s.head? = some e ↔ s'.head? = some e) := by
    intro e hne
    cases h with
    | nil => rfl
    | cons hc _ => simp [eq_iff_of_not_isAlpha hne hc]
  have digit : ∀ {t t'}, SameLetters t t' → (∀ c ∈ t.head?, c.isDigit = false) →
      ∀ c ∈ t'.head?, c.isDigit = false :=
    fun ht => ht.head? fun hc hd => (isDigit_eq hc).symm.trans hd
  obtain ⟨text, token⟩ := p
  cases token with
  | none =>
    simp only [Piece.EndsBefore] at he ⊢
    by_cases hm : text.head? = some '-'
    · rw [if_pos hm] at he ⊢
      exact h.head? (fun hc hn => (eq_iff_of_not_isAlpha rfl hc).1 hn) he
    · rw [if_neg hm] at he ⊢
      by_cases hs : text.head? = some '/'
      · rw [if_pos hs]
        trivial
      · rw [if_neg hs] at he ⊢
        exact h.head? (fun hc hb => (isBlank_eq hc).symm.trans hb) he
  | some t =>
    cases t with
    | string => exact mt (other rfl).2 he
    | quotedIdentifier => exact mt (other rfl).2 he
    | decimal => exact digit h he
    | integer => exact ⟨digit h he.1, fun hd => digit h.drop_one (he.2 ((other rfl).2 hd))⟩
    | keyword => exact h.head? (fun hc hw => (isWordPart_eq hc).symm.trans hw) he
    | identifier => exact h.head? (fun hc hw => (isWordPart_eq hc).symm.trans hw) he
    | symbol => trivial
    | endOfInput => trivial

end SameLetters

/-- Whether a keyword stands over an offset. -/
def InKeyword (ts : List Placed) (offset : Nat) : Prop :=
  ∃ t ∈ ts, (∃ k, t.token = .keyword k) ∧ t.span.start.offset ≤ offset ∧
    offset < t.span.finish.offset

/-- Two texts, the first with the given tokens from an offset on, that differ at most in the case
of letters in keywords. -/
inductive Recased (ts : List Placed) : Nat → List Char → List Char → Prop
  | nil {n : Nat} : Recased ts n [] []
  | keep {n : Nat} {c : Char} {s s' : List Char} : Recased ts (n + c.utf8Size) s s' →
      Recased ts n (c :: s) (c :: s')
  | letter {n : Nat} {c d : Char} {s s' : List Char} : InKeyword ts n → c.toUpper = d.toUpper →
      Recased ts (n + c.utf8Size) s s' → Recased ts n (c :: s) (d :: s')

namespace Recased

variable {ts us : List Placed}

theorem sameLetters {n : Nat} {s s' : List Char} (h : Recased ts n s s') : SameLetters s s' := by
  induction h with
  | nil => exact .nil
  | keep _ ih => exact .cons rfl ih
  | letter _ hc _ ih => exact .cons hc ih

theorem mono {n : Nat} {s s' : List Char} (h : Recased ts n s s')
    (hm : ∀ o, n ≤ o → InKeyword ts o → InKeyword us o) : Recased us n s s' := by
  induction h with
  | nil => exact .nil
  | keep _ ih => exact .keep (ih fun o ho => hm o (by omega))
  | letter hk hc _ ih => exact .letter (hm _ (Nat.le_refl _) hk) hc (ih fun o ho => hm o (by omega))

theorem eq_of_plain {n : Nat} {s s' : List Char} (h : Recased ts n s s')
    (hp : ∀ o, n ≤ o → o < n + String.utf8Len s → ¬InKeyword ts o) : s = s' := by
  induction h with
  | nil => rfl
  | @keep n c s s' _ ih =>
    rw [ih fun o h₁ h₂ => hp o (by omega) (by rw [String.utf8Len_cons]; omega)]
  | @letter n c d s s' hk _ _ _ =>
    refine absurd hk (hp n (Nat.le_refl _) ?_)
    have := c.utf8Size_pos
    rw [String.utf8Len_cons]
    omega

theorem of_append {b : List Char} : ∀ {a : List Char} {n : Nat} {s' : List Char},
    Recased ts n (a ++ b) s' → ∃ a' b', s' = a' ++ b' ∧ Recased ts n a a' ∧
      Recased ts (n + String.utf8Len a) b b'
  | [], n, s', h => ⟨[], s', rfl, .nil, h⟩
  | c :: a, n, s', h => by
    have hlen : n + String.utf8Len (c :: a) = n + c.utf8Size + String.utf8Len a := by
      rw [String.utf8Len_cons]
      omega
    cases h with
    | keep hs =>
      obtain ⟨a', b', rfl, ha, hb⟩ := of_append hs
      exact ⟨c :: a', b', rfl, .keep ha, hlen ▸ hb⟩
    | letter hk hc hs =>
      obtain ⟨a', b', rfl, ha, hb⟩ := of_append hs
      exact ⟨_ :: a', b', rfl, .letter hk hc ha, hlen ▸ hb⟩

end Recased

namespace Lexer

theorem keyword_of_lexeme {text : List Char} {k : Keyword} (h : Lexeme text (some (.keyword k))) :
    isWord text = true ∧ Keyword.ofWord? text = some k := by
  generalize ht : some (Token.keyword k) = token at h
  cases h with
  | word hw =>
    refine ⟨hw, ?_⟩
    rw [Option.some.injEq, wordToken] at ht
    split at ht <;> cases ht
    assumption
  | _ => cases ht

theorem lexeme_of_sameLetters {text text' : List Char} {k : Keyword}
    (h : Lexeme text (some (.keyword k))) (hs : SameLetters text text') :
    Lexeme text' (some (.keyword k)) := by
  obtain ⟨hw, hk⟩ := keyword_of_lexeme h
  have hk' : Keyword.ofWord? text' = some k := by
    rw [← hk, Keyword.ofWord?, Keyword.ofWord?, hs.map_toUpper]
  have ht : wordToken text' = .keyword k := by rw [wordToken, hk']
  exact ht ▸ .word (hs.isWord_eq ▸ hw)

theorem inKeyword_of_place {p : Piece} {ps : List Piece} {l : Location} {o : Nat}
    (h : InKeyword (place l (p :: ps)) o) :
    (∃ k, p.token = some (.keyword k)) ∧ o < (l.advance p.text).offset ∨
      (l.advance p.text).offset ≤ o ∧ InKeyword (place (l.advance p.text) ps) o := by
  obtain ⟨t, ht, ⟨k, hk⟩, hs, hf⟩ := h
  have later : t ∈ place (l.advance p.text) ps →
      (l.advance p.text).offset ≤ o ∧ InKeyword (place (l.advance p.text) ps) o := by
    intro ht
    exact ⟨(offset_le_start ht).trans hs, t, ht, ⟨k, hk⟩, hs, hf⟩
  rw [place] at ht
  cases hp : p.token with
  | none =>
    rw [hp] at ht
    exact .inr (later ht)
  | some u =>
    rw [hp] at ht
    rcases List.mem_cons.1 ht with rfl | ht
    · exact .inl ⟨⟨k, congrArg some hk⟩, hf⟩
    · exact .inr (later ht)

theorem piece_of_recased {p : Piece} {ps : List Piece} {l : Location} {text' : List Char}
    (hl : Lexeme p.text p.token) (h : Recased (place l (p :: ps)) l.offset p.text text') :
    Lexeme text' p.token ∧ ∀ rest, p.EndsBefore rest → Piece.EndsBefore ⟨text', p.token⟩ rest := by
  obtain ⟨text, token⟩ := p
  by_cases hk : ∃ k, token = some (.keyword k)
  · obtain ⟨k, rfl⟩ := hk
    exact ⟨lexeme_of_sameLetters hl h.sameLetters, fun _ he => he⟩
  · -- No keyword stands over a place in this piece, so nothing in it has changed.
    have hsame : text = text' := by
      refine h.eq_of_plain fun o _ ho hin => ?_
      rcases inKeyword_of_place hin with ⟨hk', -⟩ | ⟨hle, -⟩
      · exact hk hk'
      · rw [Location.offset_advance] at hle
        omega
    exact hsame ▸ ⟨hl, fun _ he => he⟩

/-- A text with other letters in its keywords is cut at the same places. -/
theorem pieces_of_recased : ∀ {ps : List Piece} {l : Location} {s' : List Char}, Cuts ps [] →
    Recased (place l ps) l.offset (ps.flatMap Piece.text) s' →
    ∃ qs, s' = qs.flatMap Piece.text ∧ Cuts qs [] ∧ place l qs = place l ps
  | [], l, s', _, h => by
    cases h
    exact ⟨[], rfl, trivial, rfl⟩
  | p :: ps, l, s', hc, h => by
    obtain ⟨hl, he, hc⟩ := hc
    obtain ⟨text', rest', rfl, ht, hr⟩ := h.of_append
    rw [← Location.offset_advance] at hr
    have hr' : Recased (place (l.advance p.text) ps) (l.advance p.text).offset
        (ps.flatMap Piece.text) rest' := by
      refine hr.mono fun o ho hk => ?_
      rcases inKeyword_of_place hk with ⟨-, hlt⟩ | ⟨-, hk⟩
      · omega
      · exact hk
    obtain ⟨qs, rfl, hqs, hplace⟩ := pieces_of_recased hc hr'
    obtain ⟨hl', he'⟩ := piece_of_recased hl ht
    rw [List.append_nil] at he
    refine ⟨⟨text', p.token⟩ :: qs, rfl, ⟨hl', ?_, hqs⟩, ?_⟩
    · rw [List.append_nil]
      exact he' _ (hr.sameLetters.endsBefore he)
    · simp only [place, ← ht.sameLetters.advance l, hplace]

end Lexer

/-- A text with other letters in its keywords has the same tokens at the same places. -/
theorem tokenize_recased {input input' : String} {ts : List Placed} (h : tokenize input = .ok ts)
    (hr : Recased ts 0 input.toList input'.toList) : tokenize input' = .ok ts := by
  obtain ⟨ps, hp, rfl⟩ := tokenize_eq_ok_iff.1 h
  obtain ⟨hi, hc, -⟩ := Lexer.pieces_eq_iff.1 hp
  have hadv := hr.sameLetters.advance .origin
  rw [hadv]
  rw [List.append_nil] at hi
  have hr' : Recased (Lexer.place .origin ps) Location.origin.offset (ps.flatMap Piece.text)
      input'.toList := by
    rw [← hi]
    refine hr.mono fun o _ ⟨t, ht, ⟨k, hk⟩, ho⟩ => ?_
    rcases List.mem_append.1 ht with ht | ht
    · exact ⟨t, ht, ⟨k, hk⟩, ho⟩
    · rw [List.mem_singleton.1 ht] at hk
      cases hk
  obtain ⟨qs, hq, hqs, hplace⟩ := Lexer.pieces_of_recased hc hr'
  have hpq := Lexer.pieces_of_cuts hqs
  rw [← hq] at hpq
  rw [tokenize_of_pieces hpq, hplace]

/-! ## Filler at a token -/

/-- A text with another one put in at a location. -/
def Location.insert (l : Location) (input x : String) : String :=
  Span.slice ⟨.origin, l⟩ input ++ x ++ String.Pos.Raw.extract input ⟨l.offset⟩ input.rawEndPos

theorem Location.toList_insert (a b : List Char) (x : String) :
    ((Location.advance .origin a).insert (String.ofList (a ++ b)) x).toList =
      a ++ (x.toList ++ b) := by
  have hb := slice_advance a b []
  have ha := slice_advance [] a b
  have hlen : (String.ofList (a ++ b)).rawEndPos =
      ⟨(Location.advance .origin (a ++ b)).offset⟩ := by
    rw [String.rawEndPos_ofList, offset_advance_origin]
  rw [List.append_nil, Span.slice] at hb
  rw [List.nil_append, advance_nil] at ha
  rw [insert, ha, hlen, hb]
  simp

/-- Filler put in where a token begins or ends leaves the tokens as they are. -/
theorem tokenize_insert {input : String} {ts : List Placed} (h : tokenize input = .ok ts)
    {t : Placed} (ht : t ∈ ts) (hne : t.token ≠ .endOfInput) {l : Location}
    (hl : l = t.span.start ∨ l = t.span.finish) {x : String} (hx : Filler x.toList) :
    ∃ us, tokenize (l.insert input x) = .ok us ∧
      us.map Placed.token = ts.map Placed.token := by
  obtain ⟨ps, hp, rfl⟩ := tokenize_eq_ok_iff.1 h
  obtain ⟨hi, hc, -⟩ := Lexer.pieces_eq_iff.1 hp
  have seam : ∀ before after, ps = before ++ after →
      (∀ p ∈ before.getLast?, p.token = none → ∃ q ∈ after.head?, q.token.isSome) →
      l = .advance .origin (before.flatMap Piece.text) →
      Lexer.reading (l.insert input x).toList = Lexer.reading input.toList := by
    rintro before after rfl hs rfl
    have hr := Lexer.reading_insert hx hc hs
    rw [List.append_nil] at hr
    rw [List.flatMap_append, List.append_nil] at hi
    have hins := Location.toList_insert (before.flatMap Piece.text) (after.flatMap Piece.text) x
    rw [← hi, String.ofList_toList] at hins
    rw [hins, hr, hi]
  have hread : Lexer.reading (l.insert input x).toList = Lexer.reading input.toList := by
    rcases List.mem_append.1 ht with hm | hm
    · obtain ⟨before, p, after, rfl, hp, hspan⟩ := Lexer.mem_place hm
      rw [hspan] at hl
      rcases hl with rfl | rfl
      · exact seam before (p :: after) rfl (fun _ _ _ => ⟨p, rfl, by simp [hp]⟩) rfl
      · exact seam (before ++ [p]) after (by simp) (by simp [hp]) (by simp)
    · exact absurd (List.mem_singleton.1 hm ▸ rfl) hne
  rw [readsAs_iff_reading.1 ⟨_, h, by rw [List.map_append]; rfl⟩] at hread
  obtain ⟨us, hu, hus⟩ := readsAs_iff_reading.2 hread
  exact ⟨us, hu, by rw [hus, List.map_append]; rfl⟩

/-- **Layout and letter case do not count.** Filler before or after a token, and other letters in a
keyword, leave the tokens of a text and what both readers make of it; letters leave the spans too.
What reads as no token is filler, unless its last line comment is open. -/
theorem layout_and_letterCase {input : String} {ts : List Placed} (h : tokenize input = .ok ts) :
    (∀ t ∈ ts, t.token ≠ .endOfInput → ∀ l, l = t.span.start ∨ l = t.span.finish →
      ∀ x : String, Filler x.toList →
        (∃ us, tokenize (l.insert input x) = .ok us ∧
          us.map Placed.token = ts.map Placed.token) ∧
        ReadAlike input (l.insert input x)) ∧
    (∀ input' : String, Recased ts 0 input.toList input'.toList →
      tokenize input' = .ok ts ∧ parseStatement input' = parseStatement input ∧
        parseScript input' = parseScript input) ∧
    ∀ x : String, (∃ l, tokenize x = .ok [endAt l]) ↔ Tokenless x.toList := by
  refine ⟨fun t ht hne l hl x hx => ?_, fun input' hr => ?_, fun x => tokenize_eq_end_iff⟩
  · obtain ⟨us, hu, hus⟩ := tokenize_insert h ht hne hl hx
    exact ⟨⟨us, hu, hus⟩, readAlike_of_map_token h hu hus.symm⟩
  · have h' := tokenize_recased h hr
    refine ⟨h', ?_, ?_⟩
    · rw [parseStatement, parseStatement, h, h']
    · rw [parseScript_eq_verdict h, parseScript_eq_verdict h']

/-- A comment put between a keyword and a number that stand side by side, and a changed letter. -/
theorem layout_and_letterCase_between : ∃ ts, tokenize "a/**/SET-1" = .ok ts ∧
    (∃ us, tokenize "a/**/SET--\n-1" = .ok us ∧ us.map Placed.token = ts.map Placed.token) ∧
    tokenize "a/**/sET-1" = .ok ts := by
  have h : tokenize "a/**/SET-1" = .ok [⟨.identifier "a", ⟨⟨1, 1, 0⟩, ⟨1, 2, 1⟩⟩⟩,
      ⟨.keyword .set, ⟨⟨1, 6, 5⟩, ⟨1, 9, 8⟩⟩⟩, ⟨.integer (-1), ⟨⟨1, 9, 8⟩, ⟨1, 11, 10⟩⟩⟩,
      ⟨.endOfInput, ⟨⟨1, 11, 10⟩, ⟨1, 11, 10⟩⟩⟩] := by decide +kernel
  obtain ⟨layout, letters, -⟩ := layout_and_letterCase h
  refine ⟨_, h, ?_, ?_⟩
  · have hx : Filler "--\n".toList := .lineComment (List.not_mem_nil (a := '\n')) .nil
    have hi := layout _ (List.mem_cons_of_mem _ (List.mem_cons_self ..)) (by simp) _ (.inr rfl) _ hx
    have he : (Location.mk 1 9 8).insert "a/**/SET-1" "--\n" = "a/**/SET--\n-1" := by decide +kernel
    exact he ▸ hi.1
  · refine (letters "a/**/sET-1" ?_).1
    refine .keep (.keep (.keep (.keep (.keep (.letter ?_ rfl (.keep (.keep (.keep (.keep .nil)))))))))
    exact ⟨_, List.mem_cons_of_mem _ (List.mem_cons_self ..), ⟨_, rfl⟩, by decide, by decide⟩

end AlterCatalog
