import AlterCatalog.Proofs.Segments

/-!
# One statement, or a script of one

Reading one statement and reading a script start with the same statement and part ways only after
it: the one takes a single semicolon off and wants the end, the other goes on behind any number of
them. So where no semicolon comes first they fail at a first statement alike, and a script of one
statement is that statement unless it has more semicolons than one.
-/

namespace AlterCatalog.Parser

open Grammar

/-! ## The kinds of error -/

theorem atHead_ne_lexical (ts : Tokens) (e : LexError) : ParseError.atHead ts ≠ .lexical e := by
  cases ts with
  | nil => simp [ParseError.atHead]
  | cons t ts =>
    rw [ParseError.atHead]
    split <;> simp

theorem atHead_ne_emptyInput (ts : Tokens) : ParseError.atHead ts ≠ .emptyInput := by
  cases ts with
  | nil => simp [ParseError.atHead]
  | cons t ts =>
    rw [ParseError.atHead]
    split <;> simp

theorem single_error {ts : Tokens} {e : ParseError} (h : single ts = .error e) :
    (e = .emptyInput ∧ atEnd ts = true) ∨ ∃ rest, e = .atHead rest := by
  rw [single_eq] at h
  split at h
  · next he => exact .inl ⟨(Except.error.inj h).symm, he⟩
  · split at h
    · next rest _ => exact .inr ⟨rest, (Except.error.inj h).symm⟩
    · split at h
      · cases h
      · exact .inr ⟨_, (Except.error.inj h).symm⟩

/-! ## The first statement -/

theorem not_semicolon_of_statement {ts rest : Tokens} {s : Statement}
    (h : statement ts = .ok (s, rest)) : ts.head?.any isSemicolon = false := by
  obtain ⟨us, rfl, hs, -⟩ := statement_sound h
  obtain ⟨t, us, rfl, ht⟩ := head_of_statementOf hs
  simp [isSemicolon, ht]

theorem dropWhile_isSemicolon {ts : Tokens} (h : ts.head?.any isSemicolon = false) :
    ts.dropWhile isSemicolon = ts := by
  cases ts with
  | nil => rfl
  | cons t ts => exact List.dropWhile_cons_of_neg (by simpa using h)

theorem countP_of_statement {ts rest : Tokens} {s : Statement} (h : statement ts = .ok (s, rest)) :
    ts.countP isSemicolon = rest.countP isSemicolon := by
  obtain ⟨us, rfl, -, -⟩ := statement_sound h
  have hus : us.countP isSemicolon = 0 := by
    refine List.countP_eq_zero.2 fun t ht => ?_
    simp [(not_isStop_iff.1 (local_statement.not_isStop_of_mem h t ht)).1]
  rw [List.countP_append, hus, Nat.zero_add]

/-- A script fails at its first statement as that statement does alone. -/
theorem single_of_script_refused {ts : Tokens} {e : ParseError}
    (hfirst : ts.head?.any isSemicolon = false) (h : script ts = ([], some e)) :
    single ts = .error e := by
  rw [script_eq, dropWhile_isSemicolon hfirst] at h
  rw [single_eq]
  split at h
  · cases h
  next he =>
  rw [if_neg he]
  cases hs : statement ts with
  | error rest =>
    rw [hs] at h
    cases h
    rfl
  | ok p =>
    obtain ⟨s, rest⟩ := p
    rw [hs] at h
    dsimp only at h ⊢
    split at h
    · cases h
    next hr =>
    cases h
    -- What follows is neither the end nor a semicolon, so nothing is taken off it.
    rw [Bool.or_eq_true, not_or] at hr
    rw [afterSemicolon, if_neg hr.2, if_neg hr.1]

/-! ## What may follow the only statement -/

theorem Terminated.atEnd_iff {rest : Tokens} (h : Terminated rest) :
    atEnd rest = true ↔
      atEnd (rest.dropWhile isSemicolon) = true ∧ rest.countP isSemicolon = 0 := by
  cases h with
  | stop ht => simp [isSemicolon, ht, atEnd]
  | @more t rest hne hrest =>
    have he : ¬atEnd (t :: rest) = true := by simp [atEnd, hne]
    by_cases ht : isSemicolon t = true
    · simp [he, ht]
    · rw [List.dropWhile_cons_of_neg ht]
      simp [he]

/-- The end comes after one semicolon at most when it comes after any number of them, and there is
one at most. -/
theorem Terminated.atEnd_afterSemicolon_iff {rest : Tokens} (h : Terminated rest) :
    atEnd (afterSemicolon rest) = true ↔
      atEnd (rest.dropWhile isSemicolon) = true ∧ rest.countP isSemicolon ≤ 1 := by
  cases h with
  | stop ht => simp [afterSemicolon, isSemicolon, ht, atEnd]
  | @more t rest hne hrest =>
    by_cases ht : isSemicolon t = true
    · have ha : afterSemicolon (t :: rest) = rest := if_pos ht
      rw [ha, List.dropWhile_cons_of_pos ht, List.countP_cons_of_pos ht, hrest.atEnd_iff]
      simp
    · have ha : afterSemicolon (t :: rest) = t :: rest := if_neg ht
      have he : ¬atEnd (t :: rest) = true := by simp [atEnd, hne]
      rw [ha, List.dropWhile_cons_of_neg ht]
      simp [he]

theorem ends_of_atEnd_afterSemicolon {rest : Tokens} (h : atEnd (afterSemicolon rest) = true) :
    (atEnd rest || rest.head?.any isSemicolon) = true := by
  rw [Bool.or_eq_true]
  by_cases hs : rest.head?.any isSemicolon = true
  · exact .inr hs
  · rw [afterSemicolon, if_neg hs] at h
    exact .inl h

theorem Terminated.of_statement {ts rest : Tokens} {s : Statement} (h : Terminated ts)
    (hs : statement ts = .ok (s, rest)) : Terminated rest := by
  obtain ⟨us, rfl, hp, -⟩ := statement_sound hs
  exact h.drop (endOfInput_not_mem_statementOf hp)

/-- A script of one statement is that statement, if it begins with it and has one semicolon at
most. -/
theorem single_eq_ok_iff_script {ts : Tokens} {s : Statement} (ht : Terminated ts) :
    single ts = .ok s ↔ script ts = ([s], none) ∧ ts.head?.any isSemicolon = false ∧
      ts.countP isSemicolon ≤ 1 := by
  constructor
  · intro h
    obtain ⟨rest, hs, he⟩ := statement_of_single h
    obtain ⟨hend, hcount⟩ := (ht.of_statement hs).atEnd_afterSemicolon_iff.1 he
    refine ⟨?_, not_semicolon_of_statement hs, countP_of_statement hs ▸ hcount⟩
    obtain ⟨us, rfl, hp, -⟩ := statement_sound hs
    rw [script_of_statement hp hs (ends_of_atEnd_afterSemicolon he), script_eq_nil_iff.2 hend]
  · rintro ⟨h, hfirst, hcount⟩
    rw [script_eq, dropWhile_isSemicolon hfirst] at h
    split at h
    · cases h
    next hne =>
    cases hs : statement ts with
    | error rest =>
      rw [hs] at h
      cases h
    | ok p =>
      obtain ⟨s', rest⟩ := p
      rw [hs] at h
      dsimp only at h
      split at h
      · obtain ⟨hss, hn⟩ := Prod.mk.inj h
        obtain ⟨rfl, hnil⟩ := List.cons.inj hss
        have hend := script_eq_nil_iff.1 (Prod.ext hnil hn)
        rw [countP_of_statement hs] at hcount
        have he := (ht.of_statement hs).atEnd_afterSemicolon_iff.2 ⟨hend, hcount⟩
        rw [single_eq, if_neg hne, hs]
        exact if_pos he
      · cases h

end AlterCatalog.Parser

namespace AlterCatalog

/-! ## Whole texts -/

theorem parseStatement_eq_lexical_iff {input : String} {e : LexError} :
    parseStatement input = .error (.lexical e) ↔ tokenize input = .error e := by
  unfold parseStatement
  cases tokenize input with
  | error e' => simp
  | ok ts =>
    simp only [reduceCtorEq, iff_false]
    intro h
    rcases Parser.single_error h with ⟨h, -⟩ | ⟨rest, h⟩
    · cases h
    · exact Parser.atHead_ne_lexical rest e h.symm

theorem Parser.verdict_eq_error {read : List Statement × Option ParseError} {e : ParseError}
    (h : Parser.verdict read = .error e) :
    read.2 = some e ∨ (read = ([], none) ∧ e = .emptyInput) := by
  rcases read with ⟨_ | ⟨s, ss⟩, _ | e'⟩ <;> cases h
  · exact .inr ⟨rfl, rfl⟩
  · exact .inl rfl
  · exact .inl rfl

theorem parseScript_eq_lexical_iff {input : String} {e : LexError} :
    parseScript input = .error (.lexical e) ↔ tokenize input = .error e := by
  cases h : tokenize input with
  | error e' => simp [parseScript, readScript, h]
  | ok ts =>
    simp only [reduceCtorEq, iff_false, parseScript_eq_verdict h]
    intro h
    rcases Parser.verdict_eq_error h with h | ⟨-, h⟩
    · obtain ⟨rest, h⟩ := Parser.script_error h
      exact Parser.atHead_ne_lexical rest e h.symm
    · cases h

theorem parseScript_of_empty_statement {input : String}
    (h : parseStatement input = .error .emptyInput) : parseScript input = .error .emptyInput := by
  cases ht : tokenize input with
  | error e => simp [parseStatement, ht] at h
  | ok ts =>
    rw [parseStatement, ht] at h
    rcases Parser.single_error h with ⟨-, he⟩ | ⟨rest, h⟩
    · have hend := (Parser.terminated_of_tokenize ht).atEnd_iff.1 he
      exact parseScript_of_empty ht (Parser.script_eq_nil_iff.2 hend.1)
    · exact absurd h.symm (Parser.atHead_ne_emptyInput rest)

theorem parseStatement_of_script_refused {input : String} {e : ParseError}
    (h : parseScript input = .error e) (hnone : (readScript input).1 = [])
    (hfirst : ∀ ts, tokenize input = .ok ts → ts.head?.any Parser.isSemicolon = false) :
    parseStatement input = .error e := by
  cases ht : tokenize input with
  | error e' =>
    rw [parseStatement, ht]
    simpa [parseScript, readScript, ht] using h
  | ok ts =>
    rw [readScript_fst ht] at hnone
    rw [parseScript_eq_verdict ht] at h
    rw [parseStatement, ht]
    rcases Parser.verdict_eq_error h with hs | ⟨hs, rfl⟩
    · exact Parser.single_of_script_refused (hfirst ts ht) (Prod.ext hnone hs)
    · have he := Parser.script_eq_nil_iff.1 hs
      rw [Parser.dropWhile_isSemicolon (hfirst ts ht)] at he
      exact if_pos he

/-- **The readers agree.** A text is one statement exactly when it is a script of that statement
alone which begins with it and has one semicolon at most. An error of the tokens is the same for
both, an empty statement is an empty script, and what a script makes of a first statement that it
refuses, the reader of one statement makes of it too. -/
theorem readers_agree (input : String) :
    (∀ s, parseStatement input = .ok s ↔ parseScript input = .ok [s] ∧
      ∃ ts, tokenize input = .ok ts ∧ ts.head?.any Parser.isSemicolon = false ∧
        ts.countP Parser.isSemicolon ≤ 1) ∧
    (∀ e, parseStatement input = .error (.lexical e) ↔
      parseScript input = .error (.lexical e)) ∧
    (parseStatement input = .error .emptyInput → parseScript input = .error .emptyInput) ∧
    ∀ e, parseScript input = .error e → (readScript input).1 = [] →
      (∀ ts, tokenize input = .ok ts → ts.head?.any Parser.isSemicolon = false) →
        parseStatement input = .error e := by
  refine ⟨fun s => ?_, fun e => ?_, parseScript_of_empty_statement,
    fun e => parseStatement_of_script_refused⟩
  · rw [parseStatement_eq_ok_iff, parseScript_eq_ok_iff]
    constructor
    · rintro ⟨ts, ht, hs⟩
      obtain ⟨hscript, hfirst, hcount⟩ :=
        (Parser.single_eq_ok_iff_script (Parser.terminated_of_tokenize ht)).1 hs
      exact ⟨⟨by simp, ts, ht, hscript⟩, ts, ht, hfirst, hcount⟩
    · rintro ⟨⟨-, ts, ht, hscript⟩, ts', ht', hfirst, hcount⟩
      obtain rfl := Except.ok.inj (ht.symm.trans ht')
      exact ⟨ts, ht, (Parser.single_eq_ok_iff_script (Parser.terminated_of_tokenize ht)).2
        ⟨hscript, hfirst, hcount⟩⟩
  · rw [parseStatement_eq_lexical_iff, parseScript_eq_lexical_iff]

theorem readers_agree_refused :
    parseStatement " -- ;\n" = .error .emptyInput ∧ parseScript " -- ;\n" = .error .emptyInput ∧
    parseScript "ALTER CATALOG c RESET (1) x; ALTER" =
      .error (.unexpectedToken (.identifier "x") ⟨1, 27, 26⟩) ∧
    parseStatement "ALTER CATALOG c RESET (1) x; ALTER" =
      .error (.unexpectedToken (.identifier "x") ⟨1, 27, 26⟩) := by
  have hempty : parseStatement " -- ;\n" = .error .emptyInput := by decide +kernel
  have hrefused : parseScript "ALTER CATALOG c RESET (1) x; ALTER" =
      .error (.unexpectedToken (.identifier "x") ⟨1, 27, 26⟩) := by decide +kernel
  have hfirst : (tokenize "ALTER CATALOG c RESET (1) x; ALTER").map
      (fun ts => ts.head?.any Parser.isSemicolon) = .ok false := by decide +kernel
  obtain ⟨-, -, empty, -⟩ := readers_agree " -- ;\n"
  obtain ⟨-, -, -, refused⟩ := readers_agree "ALTER CATALOG c RESET (1) x; ALTER"
  refine ⟨hempty, empty hempty, hrefused, refused _ hrefused (by decide +kernel) fun ts ht => ?_⟩
  rw [ht] at hfirst
  exact Except.ok.inj hfirst

end AlterCatalog
