import AlterCatalog.Proofs.RoundTrip

/-!
# Names are quoted where they have to be

The writer asks of a part of a name whether it is a word and no keyword; the lexer tries a text for
every kind of piece. Both come to one question: does the part read as one bare identifier, itself?
A dot goes on with no part of a name, so a written name reads as its parts with dots between them.
-/

namespace AlterCatalog

open Spelling

/-- What a part of a name reads as once it is written. -/
def Layout.partToken (l : Layout) (part : String) : Token :=
  if l.namePart part = part then .identifier part else .quotedIdentifier part

/-! ## Bare words -/

theorem word_of_lexeme_identifier {text : List Char} {name : String}
    (h : Lexeme text (some (.identifier name))) :
    text = name.toList ∧ isWord text = true ∧ Keyword.ofWord? text = none := by
  generalize ht : some (Token.identifier name) = token at h
  cases h with
  | word hw =>
    rw [Option.some.injEq, Lexer.wordToken] at ht
    split at ht
    · cases ht
    · next hk =>
      cases ht
      exact ⟨String.toList_ofList.symm, hw, hk⟩
  | _ => cases ht

theorem readsAs_identifier_iff {name : String} : ReadsAs name [.identifier name] ↔
    isRegularName name = true ∧ isKeyword name = false := by
  constructor
  · intro h
    obtain ⟨ps, hp, ht⟩ := readsAs_iff.1 h
    have hm : Token.identifier name ∈ ps.filterMap Piece.token := by simp [ht]
    obtain ⟨p, hps, hpt⟩ := List.mem_filterMap.1 hm
    have hl := Lexer.lexeme_of_mem_cuts (Lexer.pieces_eq_iff.1 hp).2.1 hps
    rw [hpt] at hl
    obtain ⟨htext, hw, hk⟩ := word_of_lexeme_identifier hl
    rw [htext] at hw hk
    exact ⟨hw, by simp [isKeyword, hk]⟩
  · intro h
    obtain ⟨hw, hk⟩ := h
    have hb : Block [⟨name.toList, some (.identifier name)⟩] :=
      .of_piece (lexeme_identifier hw hk) rfl
    simpa using hb.readsAs_join

/-! ## Parts of a name -/

/-- Quotes make a text longer. -/
theorem quoted_ne_self (name : String) : Quoted.identifier name ≠ name := by
  intro h
  have hl := congrArg (fun s => s.toList.length) h
  have hd := Quoted.length_le_double '\x60' name.toList
  simp only [Quoted.identifier, Quoted.enclose, String.toList_ofList, List.length_cons,
    List.length_append] at hl
  omega

theorem namePart_eq_self_iff (l : Layout) (name : String) :
    l.namePart name = name ↔ l.quoteAll = false ∧ ReadsAs name [.identifier name] := by
  rw [readsAs_identifier_iff]
  unfold Layout.namePart
  by_cases hq : (l.quoteAll || !isRegularName name || isKeyword name) = true
  · rw [if_pos hq]
    simp only [Bool.or_eq_true, Bool.not_eq_true'] at hq
    refine ⟨fun h => absurd h (quoted_ne_self name), fun h => ?_⟩
    obtain ⟨ha, hw, hk⟩ := h
    simp [ha, hw, hk] at hq
  · rw [if_neg hq]
    simpa [and_assoc] using hq

theorem part_token_eq (l : Layout) (name : String) :
    (part l name).token = some (l.partToken name) := by
  unfold part Layout.partToken Layout.namePart
  split
  · rw [if_neg (quoted_ne_self name)]
  · rw [if_pos rfl]

theorem filterMap_name (l : Layout) : ∀ parts : List String,
    (name l parts).filterMap Piece.token = (parts.map l.partToken).intersperse (.symbol .dot)
  | [] => rfl
  | [p] => by simp [name, part_token_eq]
  | p :: q :: ps => by
    have ih := filterMap_name l (q :: ps)
    simp [name, part_token_eq, ih, symbol]

/-- **Names are quoted where they have to be, and only there.** What the writer adds for a name reads
as its parts with dots between them, and a part is written bare exactly when the layout lets it and
it reads as one bare identifier, itself. -/
theorem name_quoted_where_needed (w : Writer) {parts : List String} (h : parts ≠ []) :
    ∃ text, text = ".".intercalate (parts.map w.layout.namePart) ∧
      (Sink.name parts w).text = w.beginToken.text ++ text ∧
      ReadsAs text ((parts.map w.layout.partToken).intersperse (.symbol .dot)) ∧
      (∀ part, w.layout.namePart part = part ↔
        w.layout.quoteAll = false ∧ ReadsAs part [.identifier part]) ∧
      ∀ name, isRegularName name = true ∧ isKeyword name = false ↔
        ReadsAs name [.identifier name] := by
  refine ⟨_, rfl, rfl, ?_, namePart_eq_self_iff w.layout, fun _ => readsAs_identifier_iff.symm⟩
  have ht := (block_name w.layout parts h).readsAs_join
  rw [Writer.join_name, filterMap_name] at ht
  exact ht

theorem name_quoted_where_needed_awkward :
    ReadsAs "plain.\x60\x60.\x60Null\x60.\x60a\x60\x60b\x60._$1"
      [.identifier "plain", .symbol .dot, .quotedIdentifier "", .symbol .dot,
        .quotedIdentifier "Null", .symbol .dot, .quotedIdentifier "a\x60b", .symbol .dot,
        .identifier "_$1"] := by
  obtain ⟨text, ht, -, hr, -⟩ := name_quoted_where_needed { layout := .compact }
    (show ["plain", "", "Null", "a\x60b", "_$1"] ≠ [] by simp)
  have he : text = "plain.\x60\x60.\x60Null\x60.\x60a\x60\x60b\x60._$1" := by
    rw [ht]
    decide
  rw [he] at hr
  exact hr

end AlterCatalog
