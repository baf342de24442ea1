import AlterCatalog.Proofs.Room
import AlterCatalog.Proofs.Script

/-!
# Reading back what was written

The spelling of a statement is a block, so its text is cut into the pieces it was made of, and
their tokens are a phrase of the grammar; both readers take it whole. Statements that come from
reading or that pass validation are among those that can be written.
-/

namespace AlterCatalog

open Grammar Spelling

/-! ## The text of a block -/

namespace Block

variable {ps : List Piece} (h : Block ps)
include h

theorem pieces_join : Lexer.pieces (Piece.join ps).toList = (ps, []) := by
  rw [Piece.join, String.toList_ofList]
  exact Lexer.pieces_of_cuts (h.cuts [] sealed_nil)

theorem readsAs_join : ReadsAs (Piece.join ps) (ps.filterMap Piece.token) :=
  readsAs_of_cuts (h.cuts [] sealed_nil)

theorem ordered_place : Parser.Ordered (Lexer.place .origin ps) := by
  have hl := Lexer.lossless_place h.pieces_join
  exact ⟨hl.nonempty, (List.pairwise_append.1 hl.ordered).1⟩

/-- The span of a phrase that is all of a text. -/
theorem span_of_covers {sp : Span} (hc : Parser.Covers sp (Lexer.place .origin ps)) :
    sp.start = .origin ∧ sp.finish.offset = (Piece.join ps).utf8ByteSize := by
  obtain ⟨hs, hf⟩ := hc
  constructor
  · obtain ⟨p, qs, rfl, hp⟩ := h.first
    obtain ⟨t, ht⟩ := Option.isSome_iff_exists.1 hp
    simp only [Lexer.place, ht, List.head?_cons, Option.map_some, Option.some.injEq] at hs
    exact hs.symm
  · obtain ⟨qs, p, rfl, hp⟩ := h.last
    obtain ⟨t, ht⟩ := Option.isSome_iff_exists.1 hp
    rw [Lexer.place_append, Lexer.place_of_token ht, List.getLast?_concat, Option.map_some,
      Option.some.injEq] at hf
    rw [← hf, ← Location.advance_append, Location.offset_advance_origin, Piece.join,
      ← String.utf8Len_toList, String.toList_ofList]
    simp

/-- A block whose tokens are a statement reads as that statement, alone or as a script. -/
theorem parse {s : Statement} (hs : StatementOf (ps.filterMap Piece.token) s) :
    ∃ t, t.bare = s ∧ parseStatement (Piece.join ps) = .ok t ∧
      parseScript (Piece.join ps) = .ok [t] ∧ t.span.start = .origin ∧
      t.span.finish.offset = (Piece.join ps).utf8ByteSize := by
  obtain ⟨e, he, ht⟩ : ∃ e, e.token = .endOfInput ∧
      tokenize (Piece.join ps) = .ok (Lexer.place .origin ps ++ [e]) :=
    ⟨_, rfl, tokenize_of_pieces h.pieces_join⟩
  rw [← Lexer.map_token_place .origin ps] at hs
  obtain ⟨t, rfl, hst⟩ := Parser.statement_complete [e] (by simp [he]) hs
  -- Reading is run once more for its span: it took all tokens but the last.
  obtain ⟨us, hus, -, hc⟩ := Parser.statement_sound hst
  obtain rfl := List.append_cancel_right hus
  refine ⟨t, rfl, parseStatement_eq_ok_iff.2 ⟨_, ht, ?_⟩,
    parseScript_eq_ok_iff.2 ⟨by simp, _, ht, ?_⟩, h.span_of_covers (hc h.ordered_place)⟩
  · rw [Parser.single_of_statement hs hst]
    simp [Parser.afterSemicolon, Parser.isSemicolon, Parser.atEnd, he]
  · rw [Parser.script_of_statement hs hst (by simp [Parser.atEnd, he]), Parser.script_of_end he]

end Block

/-! ## What is read can be written -/

theorem isDecimal_of_lexeme {text : List Char} {d : String}
    (h : Lexeme text (some (.decimal d))) : IsDecimal d.toList := by
  generalize ht : some (Token.decimal d) = token at h
  cases h with
  | decimal hd =>
    cases ht
    rw [String.toList_ofList]
    exact hd
  | word hw =>
    rw [Option.some.injEq, Lexer.wordToken] at ht
    split at ht <;> cases ht
  | _ => cases ht

theorem legible_of_tokenize {input : String} {ts us : List Placed} {s : Statement}
    (h : tokenize input = .ok ts) (hu : us <:+: ts) (hs : StatementOf (us.map Placed.token) s.bare) :
    s.Legible := by
  rw [← Statement.legible_bare]
  refine legible_of_statementOf hs fun t ht d hd => ?_
  obtain ⟨u, hu', rfl⟩ := List.mem_map.1 ht
  obtain ⟨ps, hp, rfl⟩ := tokenize_eq_ok_iff.1 h
  rcases List.mem_append.1 (hu.subset hu') with hm | hm
  · obtain ⟨_, p, _, rfl, hp', -⟩ := Lexer.mem_place hm
    have hl := Lexer.lexeme_of_mem_cuts (Lexer.pieces_eq_iff.1 hp).2.1 (p := p) (by simp)
    rw [hp', hd] at hl
    exact isDecimal_of_lexeme hl
  · rw [List.mem_singleton.1 hm] at hd
    cases hd

theorem legible_of_parseStatement {input : String} {s : Statement}
    (h : parseStatement input = .ok s) : s.Legible := by
  obtain ⟨ts, ht, hs⟩ := parseStatement_eq_ok_iff.1 h
  obtain ⟨rest, hst, -⟩ := Parser.statement_of_single hs
  obtain ⟨us, rfl, hp, -⟩ := Parser.statement_sound hst
  exact legible_of_tokenize ht (List.prefix_append us rest).isInfix hp

theorem legible_of_parseScript {input : String} {ss : List Statement}
    (h : parseScript input = .ok ss) : ∀ s ∈ ss, s.Legible := by
  obtain ⟨-, ts, ht, hs⟩ := parseScript_eq_ok_iff.1 h
  intro s hm
  have hm' : s ∈ (Parser.script ts).1 := by rw [hs]; exact hm
  obtain ⟨us, hu, hp⟩ := Parser.script_sound hm'
  exact legible_of_tokenize ht hu hp

/-- A statement whose names and texts hold quotes, a keyword, a line feed and a comment. -/
def Statement.awkward : Statement where
  catalog := ⟨["a\x60b", "SET", ""], {}⟩
  action := .set ⟨[⟨⟨.text "it\x27s; --", {}⟩, ⟨.decimal "-0.50", {}⟩, {}⟩,
    ⟨⟨.text "/*\n", {}⟩, ⟨.null, {}⟩, {}⟩], {}⟩

end AlterCatalog
