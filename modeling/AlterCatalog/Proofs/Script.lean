import AlterCatalog.Proofs.Sentences

/-!
# Scripts

A script is read from one statement to the next; the semicolons before a statement do not count.
Every statement that is read was a phrase of the text, and phrases that are each closed by a
semicolon are all read.
-/

namespace AlterCatalog.Parser

open Grammar

/-- What reading a script does with its first statement. -/
theorem script_eq (ts : Tokens) : script ts =
    if atEnd (ts.dropWhile isSemicolon) then ([], none)
    else
      match statement (ts.dropWhile isSemicolon) with
      | .error rest => ([], some (.atHead rest))
      | .ok (s, rest) =>
        if atEnd rest || rest.head?.any isSemicolon then (s :: (script rest).1, (script rest).2)
        else ([], some (.atHead rest)) := by
  rw [script]
  split
  · rfl
  · split
    · next h => rw [h]
    · next h => simp only [h]

/-- A script has nothing to read when only semicolons stand before the end. -/
theorem script_eq_nil_iff {ts : Tokens} :
    script ts = ([], none) ↔ atEnd (ts.dropWhile isSemicolon) = true := by
  rw [script_eq]
  by_cases he : atEnd (ts.dropWhile isSemicolon) = true
  · simp [he]
  · rw [if_neg he, iff_false_right he]
    cases statement (ts.dropWhile isSemicolon) with
    | error rest => simp
    | ok p =>
      dsimp only
      split <;> simp

theorem script_error {ts : Tokens} {e : ParseError} (h : (script ts).2 = some e) :
    ∃ rest, e = .atHead rest := by
  fun_induction script ts with
  | case1 => cases h
  | case2 ts he rest hs => exact ⟨rest, (Option.some.inj h).symm⟩
  | case3 ts he s rest hs _ hr ih => exact ih h
  | case4 ts he s rest hs _ hr => exact ⟨rest, (Option.some.inj h).symm⟩

theorem script_semicolon {t : Placed} (h : t.token = .symbol .semicolon) (ts : Tokens) :
    script (t :: ts) = script ts := by
  have hd : (t :: ts).dropWhile isSemicolon = ts.dropWhile isSemicolon :=
    List.dropWhile_cons_of_pos (by simp [isSemicolon, h])
  rw [script_eq, script_eq ts, hd]

theorem script_of_end {t : Placed} (h : t.token = .endOfInput) : script [t] = ([], none) := by
  have hd : [t].dropWhile isSemicolon = [t] := List.dropWhile_cons_of_neg (by simp [isSemicolon, h])
  rw [script_eq, hd, if_pos (by simp [atEnd, h])]

section
variable {t : Placed} (hs : isSemicolon t = false) (he : t.token ≠ .endOfInput) {ts rest : Tokens}
include hs he

theorem script_cons_of_error (h : statement (t :: ts) = .error rest) :
    script (t :: ts) = ([], some (.atHead rest)) := by
  rw [script_eq, List.dropWhile_cons_of_neg (by simp [hs]), if_neg (by simp [atEnd, he]), h]

theorem script_cons_of_ok {s : Statement} (h : statement (t :: ts) = .ok (s, rest)) :
    script (t :: ts) =
      if atEnd rest || rest.head?.any isSemicolon then (s :: (script rest).1, (script rest).2)
      else ([], some (.atHead rest)) := by
  rw [script_eq, List.dropWhile_cons_of_neg (by simp [hs]), if_neg (by simp [atEnd, he]), h]

end

theorem script_of_statement {us rest : Tokens} {s : Statement}
    (hs : StatementOf (us.map Placed.token) s.bare) (h : statement (us ++ rest) = .ok (s, rest))
    (hr : atEnd rest || rest.head?.any isSemicolon) :
    script (us ++ rest) = (s :: (script rest).1, (script rest).2) := by
  obtain ⟨t, us', rfl, ht⟩ := head_of_statementOf hs
  exact (script_cons_of_ok (by simp [isSemicolon, ht]) (by simp [ht]) h).trans (if_pos hr)

/-- Each statement that is read is a phrase of the text. -/
theorem script_sound {ts : Tokens} {s : Statement} (h : s ∈ (script ts).1) :
    ∃ us, us <:+: ts ∧ StatementOf (us.map Placed.token) s.bare := by
  fun_induction script ts with
  | case1 ts he => cases h
  | case2 ts he rest hs => cases h
  | case3 ts he s' rest hs _ hr ih =>
    obtain ⟨us, hu, hp, -⟩ := statement_sound hs
    -- What is left to read is always a suffix, so what one statement took is an infix.
    have hsuffix : us ++ rest <:+ ts := hu ▸ List.dropWhile_suffix _
    rcases List.mem_cons.1 h with rfl | h
    · exact ⟨us, (List.prefix_append us rest).isInfix.trans hsuffix.isInfix, hp⟩
    · obtain ⟨vs, hv, hp'⟩ := ih h
      exact ⟨vs, hv.trans ((List.suffix_append us rest).trans hsuffix).isInfix, hp'⟩
  | case4 ts he s' rest hs _ hr => cases h

/-- Phrases with a semicolon after each are read one by one. -/
theorem script_complete {α : Type} {tokens : α → List Token} {tree : α → Statement} :
    ∀ {as : List α} {ts : Tokens}, (∀ a ∈ as, StatementOf (tokens a) (tree a)) →
      ts.map Placed.token =
        (as.flatMap fun a => tokens a ++ [.symbol .semicolon]) ++ [.endOfInput] →
      ∃ ss, ss.map Statement.bare = as.map tree ∧ script ts = (ss, none)
  | [], ts, _, ht => by
    obtain ⟨e, rfl, he⟩ := List.map_eq_singleton_iff.1 ht
    exact ⟨[], rfl, script_of_end he⟩
  | a :: as, ts, h, ht => by
    obtain ⟨ha, has⟩ := List.forall_mem_cons.1 h
    rw [List.flatMap_cons, List.append_assoc, List.append_assoc] at ht
    obtain ⟨us, rest, rfl, hus, hrest⟩ := List.map_eq_append_iff.1 ht
    rw [← hus] at ha
    obtain ⟨c, rest', rfl, hc, hrest'⟩ := List.map_eq_cons_iff.1 hrest
    obtain ⟨s, hb, hs⟩ := statement_complete (c :: rest') (by simp [hc]) ha
    obtain ⟨ss, hss, hscript⟩ := script_complete has hrest'
    refine ⟨s :: ss, by rw [List.map_cons, List.map_cons, hb, hss], ?_⟩
    rw [script_of_statement (hb ▸ ha) hs (by simp [isSemicolon, hc]), script_semicolon hc, hscript]

end AlterCatalog.Parser

namespace AlterCatalog

theorem readScript_fst {input : String} {ts : List Placed} (h : tokenize input = .ok ts) :
    (readScript input).1 = (Parser.script ts).1 := by
  simp only [readScript, h]
  rcases Parser.script ts with ⟨_ | ⟨s, ss⟩, _ | e⟩ <;> rfl

/-- What a script makes of the statements that were read from it and the failure after them. -/
def Parser.verdict : List Statement × Option ParseError → Except ParseError (List Statement)
  | (_, some e) => .error e
  | ([], none) => .error .emptyInput
  | (s :: ss, none) => .ok (s :: ss)

theorem parseScript_eq_verdict {input : String} {ts : List Placed} (h : tokenize input = .ok ts) :
    parseScript input = Parser.verdict (Parser.script ts) := by
  simp only [parseScript, readScript, h]
  rcases Parser.script ts with ⟨_ | ⟨s, ss⟩, _ | e⟩ <;> rfl

theorem parseScript_eq_ok_iff {input : String} {ss : List Statement} :
    parseScript input = .ok ss ↔
      ss ≠ [] ∧ ∃ ts, tokenize input = .ok ts ∧ Parser.script ts = (ss, none) := by
  cases h : tokenize input with
  | error e => simp [parseScript, readScript, h]
  | ok ts =>
    rw [parseScript_eq_verdict h]
    rcases hr : Parser.script ts with ⟨read, _ | e⟩
    · cases read with
      | nil => simp [Parser.verdict, hr]
      | cons s read =>
        simp only [Parser.verdict, Except.ok.injEq, exists_eq_left', hr, Prod.mk.injEq, and_true]
        constructor
        · rintro rfl
          exact ⟨by simp, rfl⟩
        · exact fun h => h.2
    · simp [Parser.verdict, hr]

end AlterCatalog
