import AlterCatalog.Proofs.Derivations
import AlterCatalog.Proofs.Lossless
import AlterCatalog.Proofs.Reading

/-!
# Sentences

The tokens of a text end with the end of the input, which stands nowhere else. Over such tokens the
reader of one statement and the grammar of sentences agree: it accepts what the grammar derives,
with the tree of the derivation.
-/

namespace AlterCatalog.Parser

open Grammar

/-- Tokens of which the last, and no other, is the end of the input. -/
inductive Terminated : Tokens → Prop
  | stop {t : Placed} : t.token = .endOfInput → Terminated [t]
  | more {t : Placed} {ts : Tokens} : t.token ≠ .endOfInput → Terminated ts → Terminated (t :: ts)

theorem Terminated.tail {t : Placed} {ts : Tokens} (h : Terminated (t :: ts))
    (ht : t.token ≠ .endOfInput) : Terminated ts := by
  cases h with
  | stop h => exact absurd h ht
  | more _ h => exact h

theorem Terminated.drop {rest : Tokens} : ∀ {us : Tokens}, Terminated (us ++ rest) →
    .endOfInput ∉ us.map Placed.token → Terminated rest
  | [], h, _ => h
  | u :: us, h, hu => by
    rw [List.map_cons, List.mem_cons, not_or] at hu
    exact (h.tail (Ne.symm hu.1)).drop hu.2

theorem Terminated.eq_of_atEnd {ts : Tokens} (h : Terminated ts) (he : atEnd ts = true) :
    ∃ e, ts = [e] ∧ e.token = .endOfInput := by
  cases h with
  | stop ht => exact ⟨_, rfl, ht⟩
  | more ht _ =>
    simp only [atEnd, decide_eq_true_eq] at he
    exact absurd he ht

theorem endOfInput_not_mem_separated {α : Type} {separator : Symbol} {phrase : List Token → α → Prop}
    (hp : ∀ {ts a}, phrase ts a → .endOfInput ∉ ts) {ts : List Token} {as : List α}
    (h : Separated separator phrase ts as) : .endOfInput ∉ ts := by
  induction h with
  | one ha => exact hp ha
  | more ha _ ih => simp [hp ha, ih]

theorem endOfInput_not_mem_nameOf {ts : List Token} {n : Name} (h : NameOf ts n) :
    .endOfInput ∉ ts := by
  obtain ⟨hs⟩ := h
  refine endOfInput_not_mem_separated ?_ hs
  rintro _ _ ⟨t, rfl, ht⟩
  cases ht <;> simp

theorem endOfInput_not_mem_literalOf {ts : List Token} {l : Literal} (h : LiteralOf ts l) :
    .endOfInput ∉ ts := by
  obtain ⟨hv⟩ := h
  cases hv <;> simp

theorem endOfInput_not_mem_settingOf {ts : List Token} {s : Setting} (h : SettingOf ts s) :
    .endOfInput ∉ ts := by
  obtain ⟨hk, hv⟩ := h
  simp [endOfInput_not_mem_literalOf hk, endOfInput_not_mem_literalOf hv]

theorem endOfInput_not_mem_listed {α : Type} {phrase : List Token → α → Prop}
    (hp : ∀ {ts a}, phrase ts a → .endOfInput ∉ ts) {ts : List Token} {l : Listing α}
    (h : Listed phrase ts l) : .endOfInput ∉ ts := by
  cases h with
  | none => simp
  | some hs => simp [endOfInput_not_mem_separated hp hs]

theorem endOfInput_not_mem_statementOf {ts : List Token} {s : Statement} (h : StatementOf ts s) :
    .endOfInput ∉ ts := by
  obtain ⟨hn, ha⟩ := h
  cases ha with
  | set hl => simp [endOfInput_not_mem_nameOf hn, endOfInput_not_mem_listed endOfInput_not_mem_settingOf hl]
  | reset hl => simp [endOfInput_not_mem_nameOf hn, endOfInput_not_mem_listed endOfInput_not_mem_literalOf hl]
  | rename hn' => simp [endOfInput_not_mem_nameOf hn, endOfInput_not_mem_nameOf hn']
  | comment hl => simp [endOfInput_not_mem_nameOf hn, endOfInput_not_mem_literalOf hl]

/-- A statement begins with a word, so with no semicolon and not at the end. -/
theorem head_of_statementOf {us : Tokens} {s : Statement} (h : StatementOf (us.map Placed.token) s) :
    ∃ t us', us = t :: us' ∧ t.token = .keyword .alter := by
  generalize hu : us.map Placed.token = ts at h
  obtain ⟨_, _⟩ := h
  obtain ⟨t, us', rfl, ht, _⟩ := List.map_eq_cons_iff.1 hu
  exact ⟨t, us', rfl, ht⟩

/-- What is left when a semicolon at the front is taken off. -/
def afterSemicolon (rest : Tokens) : Tokens :=
  if rest.head?.any isSemicolon then rest.tail else rest

theorem single_eq (ts : Tokens) : single ts =
    if atEnd ts then .error .emptyInput
    else
      match statement ts with
      | .error rest => .error (.atHead rest)
      | .ok (s, rest) =>
        if atEnd (afterSemicolon rest) then .ok s else .error (.atHead (afterSemicolon rest)) :=
  rfl

theorem single_cons_of_error {t : Placed} {ts rest : Tokens} (ht : t.token ≠ .endOfInput)
    (h : statement (t :: ts) = .error rest) : single (t :: ts) = .error (.atHead rest) := by
  rw [single_eq, if_neg (by simp [atEnd, ht]), h]

/-- What is left after a statement decides whether it is a sentence. -/
theorem single_cons_of_ok {t : Placed} {ts rest : Tokens} {s : Statement}
    (ht : t.token ≠ .endOfInput) (h : statement (t :: ts) = .ok (s, rest)) :
    single (t :: ts) =
      if atEnd (afterSemicolon rest) then .ok s else .error (.atHead (afterSemicolon rest)) := by
  rw [single_eq, if_neg (by simp [atEnd, ht]), h]

theorem single_of_statement {us rest : Tokens} {s : Statement}
    (hs : StatementOf (us.map Placed.token) s.bare) (h : statement (us ++ rest) = .ok (s, rest)) :
    single (us ++ rest) =
      if atEnd (afterSemicolon rest) then .ok s else .error (.atHead (afterSemicolon rest)) := by
  obtain ⟨t, us', rfl, ht⟩ := head_of_statementOf hs
  exact single_cons_of_ok (by simp [ht]) h

/-- What may stand after the only statement. -/
theorem map_token_of_atEnd {rest : Tokens} (h : Terminated rest)
    (he : atEnd (afterSemicolon rest) = true) :
    rest.map Placed.token = [.endOfInput] ∨
      rest.map Placed.token = [.symbol .semicolon, .endOfInput] := by
  by_cases hs : rest.head?.any isSemicolon = true
  · rw [afterSemicolon, if_pos hs] at he
    obtain ⟨t, hr, ht⟩ := (Option.any_eq_true _ _).1 hs
    obtain ⟨rest, rfl⟩ := List.head?_eq_some_iff.1 hr
    simp only [isSemicolon, decide_eq_true_eq] at ht
    have hrest := h.tail (by simp [ht])
    obtain ⟨e, rfl, het⟩ := hrest.eq_of_atEnd he
    exact .inr (by simp [ht, het])
  · rw [afterSemicolon, if_neg hs] at he
    obtain ⟨e, rfl, het⟩ := h.eq_of_atEnd he
    exact .inl (by simp [het])

theorem statement_of_single {ts : Tokens} {s : Statement} (h : single ts = .ok s) :
    ∃ rest, statement ts = .ok (s, rest) ∧ atEnd (afterSemicolon rest) = true := by
  rw [single_eq] at h
  split at h
  · cases h
  · split at h
    · cases h
    · next s' rest hs =>
      split at h <;> cases h
      next he => exact ⟨rest, hs, he⟩

theorem single_sound {ts : Tokens} {s : Statement} (ht : Terminated ts) (h : single ts = .ok s) :
    Sentence (ts.map Placed.token) s.bare := by
  obtain ⟨rest, hst, he⟩ := statement_of_single h
  obtain ⟨us, rfl, hs, -⟩ := statement_sound hst
  rw [List.map_append]
  rcases map_token_of_atEnd (ht.drop (endOfInput_not_mem_statementOf hs)) he with hr | hr
  · exact hr ▸ .plain hs
  · exact hr ▸ .closed hs

theorem single_complete {ts : Tokens} {s : Statement} (h : Sentence (ts.map Placed.token) s) :
    ∃ s', s'.bare = s ∧ single ts = .ok s' := by
  generalize hu : ts.map Placed.token = tokens at h
  cases h with
  | plain hs =>
    obtain ⟨us, rest, rfl, rfl, hr⟩ := List.map_eq_append_iff.1 hu
    obtain ⟨e, rfl, he⟩ := List.map_eq_singleton_iff.1 hr
    obtain ⟨s', rfl, hs'⟩ := statement_complete [e] (by simp [he]) hs
    refine ⟨s', rfl, ?_⟩
    rw [single_of_statement hs hs']
    simp [afterSemicolon, isSemicolon, atEnd, he]
  | closed hs =>
    obtain ⟨us, rest, rfl, rfl, hr⟩ := List.map_eq_append_iff.1 hu
    obtain ⟨c, rest', rfl, hc, hr'⟩ := List.map_eq_cons_iff.1 hr
    obtain ⟨e, rfl, he⟩ := List.map_eq_singleton_iff.1 hr'
    obtain ⟨s', rfl, hs'⟩ := statement_complete [c, e] (by simp [hc]) hs
    refine ⟨s', rfl, ?_⟩
    rw [single_of_statement hs hs']
    simp [afterSemicolon, isSemicolon, atEnd, hc, he]

theorem terminated_append {e : Placed} (he : e.token = .endOfInput) : ∀ {ts : Tokens},
    (∀ t ∈ ts, t.token ≠ .endOfInput) → Terminated (ts ++ [e])
  | [], _ => .stop he
  | _ :: _, h => .more (h _ (by simp)) (terminated_append he fun t ht => h t (by simp [ht]))

theorem terminated_of_tokenize {input : String} {ts : Tokens} (h : tokenize input = .ok ts) :
    Terminated ts := by
  obtain ⟨ps, hp, rfl⟩ := tokenize_eq_ok_iff.1 h
  exact terminated_append rfl (Lexer.lossless_place hp).endOnce

end AlterCatalog.Parser

namespace AlterCatalog

open Grammar

theorem parseStatement_eq_ok_iff {input : String} {s : Statement} :
    parseStatement input = .ok s ↔ ∃ ts, tokenize input = .ok ts ∧ Parser.single ts = .ok s := by
  unfold parseStatement
  cases tokenize input with
  | error e => simp
  | ok ts => simp

/-- **Reading is the grammar.** A text reads as a statement, spans aside, exactly when the grammar
derives the statement from its tokens; and tokens have one derivation at most. -/
theorem parseStatement_iff_sentence :
    (∀ (input : String) (s : Statement),
      (∃ t, parseStatement input = .ok t ∧ t.same s = true) ↔
        ∃ ts, tokenize input = .ok ts ∧ Sentence (ts.map Placed.token) s.bare) ∧
    (∀ (ts : List Token) (s : Statement),
      Sentence ts s ↔ ∃ d : Derivation, d.tokens = ts ∧ d.statement = s) ∧
    ∀ d e : Derivation, d.tokens = e.tokens → d = e := by
  refine ⟨fun input s => ⟨?_, ?_⟩, sentence_iff, Derivation.tokens_inj⟩
  · intro ⟨t, h, hs⟩
    obtain ⟨ts, ht, hsingle⟩ := parseStatement_eq_ok_iff.1 h
    rw [Statement.same_iff] at hs
    exact ⟨ts, ht, hs ▸ Parser.single_sound (Parser.terminated_of_tokenize ht) hsingle⟩
  · intro ⟨ts, ht, hs⟩
    obtain ⟨t, htb, hsingle⟩ := Parser.single_complete hs
    exact ⟨t, parseStatement_eq_ok_iff.2 ⟨ts, ht, hsingle⟩, Statement.same_iff.2 htb⟩

end AlterCatalog
