import AlterCatalog.Proofs.Pieces
import AlterCatalog.Proofs.Spelling

/-!
# Blocks

Blanks and symbols of a spelling are chosen so that no piece runs into the next. A phrase is a
block: it begins and ends with a token, and whatever comes after it, a blank, a comma, a closing
parenthesis, a semicolon or nothing, seals it. So the text of its pieces is cut into the same
pieces again.
-/

namespace AlterCatalog

/-! ## Lexemes of a layout -/

namespace Spelling

theorem lexeme_keyword (l : Layout) (k : Keyword) :
    Lexeme (keyword l k).text (keyword l k).token := by
  have hw : isWord (keyword l k).text = true := by
    cases hc : l.keywordCase <;> cases k <;> simp only [keyword, hc] <;> decide
  have ht : Lexer.wordToken (keyword l k).text = .keyword k := by
    cases hc : l.keywordCase <;> cases k <;> simp only [keyword, hc] <;> decide
  have h := Lexeme.word hw
  rw [ht] at h
  exact h

theorem lexeme_identifier {name : String} (hw : isRegularName name = true)
    (hk : isKeyword name = false) : Lexeme name.toList (some (.identifier name)) := by
  have h := Lexeme.word hw
  rw [isKeyword, Option.isSome_eq_false_iff, Option.isNone_iff_eq_none] at hk
  rw [Lexer.wordToken, hk, String.ofList_toList] at h
  exact h

theorem lexeme_part (l : Layout) (name : String) :
    Lexeme (part l name).text (part l name).token := by
  unfold part
  split
  · have h := Lexeme.delimited name.toList
    rw [String.ofList_toList] at h
    exact h
  · next hq =>
    simp only [Bool.or_eq_true, Bool.not_eq_true', not_or, Bool.not_eq_true,
      Bool.not_eq_false] at hq
    exact lexeme_identifier hq.1.2 hq.2

theorem lexeme_integer (value : Int64) :
    Lexeme (toString value.toInt).toList (some (.integer value)) := by
  have digits : ∀ n : Nat, IsDigits (Nat.repr n).toList := by
    intro n
    rw [Nat.repr_eq_ofList_toDigits, String.toList_ofList]
    exact ⟨Nat.toDigits_ne_nil, fun c hc => Nat.isDigit_of_mem_toDigits (by decide) (by decide) hc⟩
  cases hv : value.toInt with
  | ofNat n =>
    have hs : signedValue [] (Nat.repr n).toList = value.toInt := by
      simp [signedValue, hv]
    exact .integer (.inl rfl) (digits n) hs.symm
  | negSucc n =>
    have hs : signedValue ['-'] (Nat.repr (n + 1)).toList = value.toInt := by
      simp [signedValue, hv, Int.negSucc_eq]
    have h := Lexeme.integer (.inr rfl) (digits (n + 1)) hs.symm
    have ht : (toString (Int.negSucc n)).toList = ['-'] ++ (Nat.repr (n + 1)).toList := by
      rw [← String.toList_ofList (l := ['-']), ← String.toList_append]
      rfl
    rw [ht]
    exact h

theorem lexeme_literal (l : Layout) {v : LiteralValue} (h : v.Legible) :
    Lexeme (literal l v).text (literal l v).token := by
  cases v with
  | text value =>
    have hs := Lexeme.string value.toList
    rw [String.ofList_toList] at hs
    exact hs
  | integer value => exact lexeme_integer value
  | decimal digits =>
    have hd := Lexeme.decimal (h digits rfl)
    rw [String.ofList_toList] at hd
    exact hd
  | boolean value => cases value <;> exact lexeme_keyword l _
  | null => exact lexeme_keyword l _

theorem lexeme_lineStart (l : Layout) (depth : Nat) : Lexeme (lineStart l depth).text none := by
  refine .blank (by simp [lineStart]) fun c hc => ?_
  rcases List.mem_cons.1 hc with rfl | hc
  · rfl
  · rw [(List.mem_replicate.1 hc).2]
    rfl

theorem lexeme_space : Lexeme space.text none :=
  .blank (by simp [space]) (List.forall_mem_singleton.2 rfl)

end Spelling

/-! ## Blocks -/

/-- A rest that no piece with a token goes on with. -/
def Sealed (rest : List Char) : Prop :=
  ∀ c ∈ rest.head?, c = ' ' ∨ c = '\n' ∨ c = ',' ∨ c = ')' ∨ c = ';'

theorem endsBefore_of_sealed {s rest : List Char} (t : Token) (h : Sealed rest) :
    Piece.EndsBefore ⟨s, some t⟩ rest := by
  have stop : ∀ p : Char → Bool, p ' ' = false → p '\n' = false → p ',' = false → p ')' = false →
      p ';' = false → ∀ c ∈ rest.head?, p c = false := by
    intro p h₁ h₂ h₃ h₄ h₅ c hc
    rcases h c hc with rfl | rfl | rfl | rfl | rfl <;> assumption
  have ne : ∀ q : Char, q ≠ ' ' → q ≠ '\n' → q ≠ ',' → q ≠ ')' → q ≠ ';' →
      rest.head? ≠ some q := by
    intro q h₁ h₂ h₃ h₄ h₅ hq
    rcases h q hq with rfl | rfl | rfl | rfl | rfl <;> contradiction
  cases t with
  | keyword k => exact stop isWordPart rfl rfl rfl rfl rfl
  | identifier n => exact stop isWordPart rfl rfl rfl rfl rfl
  | string v => exact ne _ (by decide) (by decide) (by decide) (by decide) (by decide)
  | quotedIdentifier n => exact ne _ (by decide) (by decide) (by decide) (by decide) (by decide)
  | decimal d => exact stop Char.isDigit rfl rfl rfl rfl rfl
  | integer v =>
    refine ⟨stop Char.isDigit rfl rfl rfl rfl rfl, fun hp => absurd hp ?_⟩
    exact ne _ (by decide) (by decide) (by decide) (by decide) (by decide)
  | symbol s => trivial
  | endOfInput => trivial

/-- Pieces that begin and end with a token, and are cut from their text before any sealed rest. -/
structure Block (ps : List Piece) : Prop where
  cuts : ∀ rest, Sealed rest → Lexer.Cuts ps rest
  first : ∃ p qs, ps = p :: qs ∧ p.token.isSome = true
  last : ∃ qs p, ps = qs ++ [p] ∧ p.token.isSome = true

theorem sealed_nil : Sealed [] := fun _ h => nomatch h

theorem sealed_space (r : List Char) : Sealed (' ' :: r) := fun _ h => .inl (Option.some.inj h.symm)

theorem sealed_newline (r : List Char) : Sealed ('\n' :: r) :=
  fun _ h => .inr (.inl (Option.some.inj h.symm))

theorem sealed_comma (r : List Char) : Sealed (',' :: r) :=
  fun _ h => .inr (.inr (.inl (Option.some.inj h.symm)))

theorem sealed_rightParen (r : List Char) : Sealed (')' :: r) :=
  fun _ h => .inr (.inr (.inr (.inl (Option.some.inj h.symm))))

theorem sealed_semicolon (r : List Char) : Sealed (';' :: r) :=
  fun _ h => .inr (.inr (.inr (.inr (Option.some.inj h.symm))))

namespace Block

theorem lexeme {ps : List Piece} (h : Block ps) {p : Piece} (hp : p ∈ ps) :
    Lexeme p.text p.token :=
  Lexer.lexeme_of_mem_cuts (h.cuts [] sealed_nil) hp

theorem first_char {ps : List Piece} (h : Block ps) :
    ∃ c r, ps.flatMap Piece.text = c :: r ∧ isBlank c = false := by
  obtain ⟨p, qs, rfl, hp⟩ := h.first
  obtain ⟨t, ht⟩ := Option.isSome_iff_exists.1 hp
  have hl := h.lexeme (p := p) (by simp)
  rw [ht] at hl
  obtain ⟨⟨c, r, hc, hb⟩, -⟩ := hl.ends
  exact ⟨c, r ++ qs.flatMap Piece.text, by rw [List.flatMap_cons, hc, List.cons_append], hb⟩

theorem last_char {ps : List Piece} (h : Block ps) :
    ∃ r c, ps.flatMap Piece.text = r ++ [c] ∧ isBlank c = false := by
  obtain ⟨qs, p, rfl, hp⟩ := h.last
  obtain ⟨t, ht⟩ := Option.isSome_iff_exists.1 hp
  have hl := h.lexeme (p := p) (by simp)
  rw [ht] at hl
  obtain ⟨-, r, c, hc, hb⟩ := hl.ends
  exact ⟨qs.flatMap Piece.text ++ r, c, by simp [hc], hb⟩

theorem of_piece {p : Piece} (h : Lexeme p.text p.token) (ht : p.token.isSome = true) :
    Block [p] := by
  obtain ⟨t, hp⟩ := Option.isSome_iff_exists.1 ht
  refine ⟨fun rest hr => ⟨h, ?_, trivial⟩, ⟨p, [], rfl, ht⟩, ⟨[], p, rfl, ht⟩⟩
  obtain ⟨text, token⟩ := p
  cases hp
  exact endsBefore_of_sealed t hr

/-- Two blocks with pieces between them that keep them apart. -/
theorem join {ps qs : List Piece} (hp : Block ps) (gs : List Piece)
    (hs : ∀ r, Sealed (gs.flatMap Piece.text ++ r))
    (hg : ∀ c r, isBlank c = false → Lexer.Cuts gs (c :: r)) (hq : Block qs) :
    Block (ps ++ (gs ++ qs)) := by
  constructor
  · intro rest hr
    refine Lexer.cuts_append.2 ⟨?_, Lexer.cuts_append.2 ⟨?_, hq.cuts rest hr⟩⟩
    · rw [List.flatMap_append, List.append_assoc]
      exact hp.cuts _ (hs _)
    · obtain ⟨c, r, hc, hb⟩ := hq.first_char
      rw [hc]
      exact hg c _ hb
  · obtain ⟨p, ps', rfl, ht⟩ := hp.first
    exact ⟨p, _, rfl, ht⟩
  · obtain ⟨qs', p, rfl, ht⟩ := hq.last
    exact ⟨ps ++ (gs ++ qs'), p, by simp, ht⟩

end Block

namespace Spelling

/-! ## Phrases are blocks -/

theorem cuts_space {c : Char} (h : isBlank c = false) (r : List Char) :
    Lexer.Cuts [space] (c :: r) := by
  refine ⟨lexeme_space, ?_, trivial⟩
  intro d hd
  cases hd
  exact h

theorem cuts_lineStart (l : Layout) (depth : Nat) {c : Char} (h : isBlank c = false)
    (r : List Char) : Lexer.Cuts [lineStart l depth] (c :: r) := by
  refine ⟨lexeme_lineStart l depth, ?_, trivial⟩
  intro d hd
  cases hd
  exact h

theorem block_space {ps qs : List Piece} (hp : Block ps) (hq : Block qs) :
    Block (ps ++ space :: qs) :=
  hp.join [space] sealed_space (fun _ r h => cuts_space h r) hq

theorem block_keyword (l : Layout) (k : Keyword) : Block [keyword l k] :=
  .of_piece (lexeme_keyword l k) rfl

theorem block_symbol (s : Symbol) : Block [symbol s] := .of_piece (.symbol s) rfl

theorem block_literal (l : Layout) {v : LiteralValue} (h : v.Legible) : Block [literal l v] := by
  refine .of_piece (lexeme_literal l h) ?_
  cases v with
  | boolean value => cases value <;> rfl
  | _ => rfl

theorem block_setting (l : Layout) {s : Setting} (hk : s.key.value.Legible)
    (hv : s.value.value.Legible) : Block (setting l s) :=
  block_space (block_literal l hk) (block_space (block_symbol .equal) (block_literal l hv))

theorem block_part (l : Layout) (n : String) : Block [part l n] := by
  refine .of_piece (lexeme_part l n) ?_
  unfold part
  split <;> rfl

/-- A dot seals a part of a name, though it does not seal a number. -/
theorem part_endsBefore_dot (l : Layout) (n : String) (r : List Char) :
    (part l n).EndsBefore ('.' :: r) := by
  unfold part
  split
  · simp [Piece.EndsBefore]
  · intro c hc
    cases hc
    rfl

theorem block_name (l : Layout) : ∀ (parts : List String), parts ≠ [] → Block (name l parts)
  | [p], _ => block_part l p
  | p :: q :: ps, _ => by
    have ih := block_name l (q :: ps) (by simp)
    obtain ⟨p', _, hp, ht⟩ := (block_part l p).first
    obtain ⟨qs, q', hq, ht'⟩ := ih.last
    constructor
    · intro rest hr
      exact ⟨lexeme_part l p, part_endsBefore_dot l p _, .symbol .dot, trivial, ih.cuts rest hr⟩
    · rw [List.cons.injEq] at hp
      exact ⟨part l p, symbol .dot :: name l (q :: ps), rfl, hp.1 ▸ ht⟩
    · exact ⟨part l p :: symbol .dot :: qs, q', by simp [name, hq], ht'⟩

theorem cuts_opening (l : Layout) (depth : Nat) {c : Char} (h : isBlank c = false)
    (r : List Char) : Lexer.Cuts (opening l depth) (c :: r) := by
  unfold opening
  split
  · exact cuts_lineStart l _ h r
  · trivial

theorem cuts_closing (l : Layout) (depth : Nat) {c : Char} (h : isBlank c = false)
    (r : List Char) : Lexer.Cuts (closing l depth) (c :: r) := by
  unfold closing
  split
  · exact cuts_lineStart l _ h r
  · trivial

theorem sealed_closing (l : Layout) (depth : Nat) (r : List Char) :
    Sealed ((closing l depth).flatMap Piece.text ++ ')' :: r) := by
  unfold closing
  split
  · exact sealed_newline _
  · exact sealed_rightParen r

theorem cuts_between (l : Layout) (depth : Nat) {c : Char} (h : isBlank c = false)
    (r : List Char) : Lexer.Cuts (between l depth) (c :: r) := by
  refine ⟨.symbol .comma, trivial, ?_⟩
  split
  · exact cuts_lineStart l _ h r
  · exact cuts_space h r

theorem block_joined (l : Layout) (depth : Nat) (is : List (List Piece)) (h : ∀ i ∈ is, Block i) :
    ∀ {i : List Piece}, Block i → Block (i ++ is.flatMap fun j => between l depth ++ j) := by
  induction is with
  | nil =>
    intro i hi
    rw [List.flatMap_nil, List.append_nil]
    exact hi
  | cons j js ih =>
    intro i hi
    obtain ⟨hj, hjs⟩ := List.forall_mem_cons.1 h
    rw [List.flatMap_cons, List.append_assoc]
    exact hi.join (between l depth) (fun r => sealed_comma _)
      (fun _ r hc => cuts_between l depth hc r) (ih hjs hj)

/-- A list is a block, whatever its number of items. -/
theorem block_listing (l : Layout) (depth : Nat) {is : List (List Piece)}
    (h : ∀ i ∈ is, Block i) : Block (listing l depth is) := by
  have close : ∀ rest, Lexer.Cuts (closing l depth ++ [symbol .rightParen]) rest := by
    intro rest
    exact Lexer.cuts_append.2 ⟨cuts_closing l depth rfl _, .symbol .rightParen, trivial, trivial⟩
  refine ⟨fun rest _ => ⟨.symbol .leftParen, trivial, ?_⟩, ⟨_, _, rfl, rfl⟩,
    ⟨symbol .leftParen :: (items l depth is ++ closing l depth), symbol .rightParen, rfl, rfl⟩⟩
  rw [List.append_assoc]
  cases is with
  | nil => exact close rest
  | cons i is =>
    obtain ⟨hi, his⟩ := List.forall_mem_cons.1 h
    have hb := block_joined l depth is his hi
    obtain ⟨c, r, hc, hblank⟩ := hb.first_char
    -- The line breaks count for the pieces before and after them, but never for the items.
    refine Lexer.cuts_append.2 ⟨Lexer.cuts_append.2 ⟨?_, hb.cuts _ ?_⟩, close rest⟩
    · rw [hc]
      exact cuts_opening l depth hblank _
    · rw [List.flatMap_append, List.append_assoc]
      exact sealed_closing l depth _

theorem block_action (l : Layout) (depth : Nat) {a : Action}
    (hn : ∀ n, a = .rename n → n.parts ≠ []) (hl : ∀ v ∈ a.literals, v.value.Legible) :
    Block (action l depth a) := by
  cases a with
  | set settings =>
    refine block_space (block_keyword l .set) (block_listing l depth ?_)
    intro i hi
    obtain ⟨s, hs, rfl⟩ := List.mem_map.1 hi
    have hmem : ∀ v ∈ [s.key, s.value], v.value.Legible := by
      intro v hv
      exact hl v (List.mem_flatMap.2 ⟨s, hs, hv⟩)
    exact block_setting l (hmem _ (by simp)) (hmem _ (by simp))
  | reset keys =>
    refine block_space (block_keyword l .reset) (block_listing l depth ?_)
    intro i hi
    obtain ⟨k, hk, rfl⟩ := List.mem_map.1 hi
    exact block_literal l (hl k hk)
  | rename newName =>
    exact block_space (block_keyword l .rename)
      (block_space (block_keyword l .to_) (block_name l _ (hn newName rfl)))
  | comment text =>
    exact block_space (block_keyword l .comment) (block_literal l (hl text (by simp [Action.literals])))

theorem block_statement (l : Layout) (depth : Nat) {s : Statement} (h : s.Legible) :
    Block (statement l depth s) := by
  obtain ⟨hc, hn, hl⟩ := Statement.legible_iff.1 h
  have hname := block_space (block_name l _ hc) (block_action l depth hn hl)
  exact block_space (block_keyword l .alter) (block_space (block_keyword l .catalog) hname)

end Spelling

end AlterCatalog
