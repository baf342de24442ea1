import AlterCatalog.Proofs.Agreement
import AlterCatalog.Proofs.Refusal
import AlterCatalog.Proofs.RoundTrip

/-!
# Tokens as they are shown

A token is shown as a lexeme of its own: a keyword in capitals, quoted text with its quotes doubled
again, a number as it is written. White space goes on with no token, so the tokens of a text, shown
with one space between them, read as the same tokens. The token that a refusal names is one of
them.
-/

namespace AlterCatalog

open Spelling

/-- The tokens of a text as they are shown, with one space between them. -/
def showTokens (ts : List Placed) : String :=
  " ".intercalate ((ts.filter fun t => t.token ≠ .endOfInput).map fun t => t.token.display)

/-! ## One token -/

theorem lexeme_keyword_text (k : Keyword) : Lexeme k.text.toList (some (.keyword k)) := by
  have hw : isWord k.text.toList = true := by cases k <;> decide
  have ht : Lexer.wordToken k.text.toList = .keyword k := by cases k <;> decide
  exact ht ▸ Lexeme.word hw

/-- A token is shown as a lexeme that is that token. -/
theorem Lexeme.display {text : List Char} {t : Token} (h : Lexeme text (some t)) :
    Lexeme t.display.toList (some t) := by
  cases h with
  | string v =>
    simp only [Token.display, Quoted.string, String.toList_ofList]
    exact .string v
  | delimited v =>
    simp only [Token.display, Quoted.identifier, String.toList_ofList]
    exact .delimited v
  | decimal hd =>
    simp only [Token.display, String.toList_ofList]
    exact .decimal hd
  | integer => exact lexeme_integer _
  | word hw =>
    have h := Lexeme.word hw
    unfold Lexer.wordToken at h ⊢
    split
    · exact lexeme_keyword_text _
    · next hn =>
      rw [hn] at h
      simp only [Token.display, String.toList_ofList]
      exact h
  | symbol s =>
    simp only [Token.display, String.toList_singleton]
    exact .symbol s

/-- The piece that shows a token. -/
def Token.piece (t : Token) : Piece := ⟨t.display.toList, some t⟩

/-! ## Tokens with spaces between them -/

theorem block_spaced : ∀ {ps : List Piece}, ps ≠ [] → (∀ p ∈ ps, Block [p]) →
    Block (ps.intersperse space)
  | [p], _, h => h p (by simp)
  | p :: q :: ps, _, h => by
    obtain ⟨hp, hps⟩ := List.forall_mem_cons.1 h
    exact block_space hp (block_spaced (by simp) hps)

theorem filterMap_spaced : ∀ ps : List Piece,
    (ps.intersperse space).filterMap Piece.token = ps.filterMap Piece.token
  | [] => rfl
  | [_] => rfl
  | p :: q :: ps => by
    have ih := filterMap_spaced (q :: ps)
    rw [List.intersperse_cons_cons, List.filterMap_cons, List.filterMap_cons_none rfl, ih,
      ← List.filterMap_cons]

section
variable {ps : List Piece} (h : ∀ p ∈ ps, Lexeme p.text p.token)
include h

theorem block_piece {t : Token} (ht : t ∈ ps.filterMap Piece.token) : Block [t.piece] := by
  obtain ⟨p, hp, hpt⟩ := List.mem_filterMap.1 ht
  have hl := h p hp
  rw [hpt] at hl
  exact .of_piece hl.display rfl

theorem readsAs_display {t : Token} (ht : t ∈ ps.filterMap Piece.token) :
    ReadsAs t.display [t] := by
  have hr := (block_piece h ht).readsAs_join
  simpa [Token.piece] using hr

theorem readsAs_spaced : ReadsAs (" ".intercalate ((ps.filterMap Piece.token).map Token.display))
    (ps.filterMap Piece.token) := by
  generalize hts : ps.filterMap Piece.token = ts
  by_cases hn : ts = []
  · subst hn
    exact ⟨_, tokenizeFrom_nil .origin, rfl⟩
  · have hb : Block ((ts.map Token.piece).intersperse space) := by
      refine block_spaced (by simpa using hn) (List.forall_mem_map.2 fun t ht => ?_)
      exact block_piece h (hts ▸ ht)
    have hr := hb.readsAs_join
    rw [Piece.join_intersperse, filterMap_spaced, List.map_map, List.filterMap_map] at hr
    have hs : String.ofList space.text = " " := rfl
    simpa [Token.piece, hs, Function.comp_def] using hr

end

/-! ## The token a refusal names -/

section
variable {input : String} {ts : List Placed} (h : tokenize input = .ok ts)
include h

theorem exists_lexemes : ∃ ps : List Piece, (∀ p ∈ ps, Lexeme p.text p.token) ∧
    (ts.filter fun t => t.token ≠ .endOfInput).map Placed.token = ps.filterMap Piece.token ∧
    ts.map Placed.token = ps.filterMap Piece.token ++ [.endOfInput] := by
  obtain ⟨ps, hp, rfl⟩ := tokenize_eq_ok_iff.1 h
  have hend := (Lexer.lossless_place hp).endOnce
  refine ⟨ps, fun p => Lexer.lexeme_of_mem_cuts (Lexer.pieces_eq_iff.1 hp).2.1, ?_, ?_⟩
  · rw [List.filter_append, List.filter_eq_self.2 (by simpa using hend)]
    simp [endAt]
  · rw [List.map_append, Lexer.map_token_place]
    rfl

theorem refused_at_token {e : ParseError} (he : parseStatement input = .error e ∨
    parseScript input = .error e) : e = .emptyInput ∨ ∃ t ∈ ts, e = .atHead [t] := by
  have hterm := Parser.terminated_of_tokenize h
  rcases he with he | he
  · unfold parseStatement at he
    rw [h] at he
    exact Parser.single_refused hterm he
  · rw [parseScript_eq_verdict h] at he
    rcases Parser.verdict_eq_error he with hs | ⟨-, rfl⟩
    · exact .inr (Parser.script_refused hterm hs)
    · exact .inl rfl

/-- **Tokens are shown as source text.** The tokens of a text, shown with one space between them,
read as the same tokens; each of them reads as itself; and so does the token that a refusal names,
which is one of them. -/
theorem tokens_shown_read_back :
    (∃ us, tokenize (showTokens ts) = .ok us ∧ us.map Placed.token = ts.map Placed.token) ∧
      (∀ t ∈ ts, t.token ≠ .endOfInput → ReadsAs t.token.display [t.token]) ∧
      ∀ found location, (parseStatement input = .error (.unexpectedToken found location) ∨
        parseScript input = .error (.unexpectedToken found location)) →
          (∃ t ∈ ts, t.token = found ∧ t.span.start = location) ∧
          ReadsAs found.display [found] ∧
          (ParseError.unexpectedToken found location).message =
            "Unexpected token " ++ found.display ++ " at " ++ location.describe := by
  obtain ⟨ps, hl, hshown, hall⟩ := exists_lexemes h
  have single : ∀ t ∈ ts, t.token ≠ .endOfInput → ReadsAs t.token.display [t.token] := by
    intro t ht hne
    refine readsAs_display hl ?_
    rw [← hshown]
    exact List.mem_map_of_mem (List.mem_filter.2 ⟨ht, by simpa using hne⟩)
  refine ⟨?_, single, fun found location he => ?_⟩
  · have hr := readsAs_spaced hl
    rw [← hshown, List.map_map, hshown] at hr
    rw [hall]
    exact hr
  · rcases refused_at_token h he with he | ⟨t, ht, he⟩
    · cases he
    · by_cases hend : t.token = .endOfInput
      · simp [ParseError.atHead, hend] at he
      · simp only [ParseError.atHead, if_neg hend, ParseError.unexpectedToken.injEq] at he
        obtain ⟨rfl, rfl⟩ := he
        exact ⟨⟨t, ht, rfl, rfl⟩, single t ht hend, rfl⟩

end

theorem tokens_shown_read_back_every_kind :
    let input := "seT\x60/*\x60\x60--\x60.'it''s\n--'=-9223372036854775808,1.50,'';null$ -- end"
    let shown := "SET \x60/*\x60\x60--\x60 . 'it''s\n--' = -9223372036854775808 , 1.50 , '' ; null$"
    (tokenize input).map showTokens = .ok shown ∧ ∃ us, tokenize shown = .ok us ∧
      (tokenize input).map (List.map Placed.token) = .ok (us.map Placed.token) := by
  intro input shown
  have hshown : (tokenize input).map showTokens = .ok shown := by decide +kernel
  refine ⟨hshown, ?_⟩
  cases h : tokenize input with
  | error e =>
    rw [h] at hshown
    cases hshown
  | ok ts =>
    rw [h] at hshown
    obtain ⟨⟨us, hu, ht⟩, -⟩ := tokens_shown_read_back h
    rw [Except.ok.inj hshown] at hu
    exact ⟨us, hu, congrArg Except.ok ht.symm⟩

end AlterCatalog
