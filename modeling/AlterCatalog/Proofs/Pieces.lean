import AlterCatalog.Proofs.Lexeme

/-!
# Cutting a text into pieces

A list of pieces is what its own text is cut into exactly when each is a lexeme that is over where
the next one starts. Both conditions look ahead only, so any stretch of the pieces of a text is
what the text of that stretch is cut into (`pieces_stretch`).
-/

namespace AlterCatalog.Lexer

/-- Pieces that are cut off one by one from their text with `rest` after it. -/
def Cuts : List Piece → List Char → Prop
  | [], _ => True
  | p :: ps, rest =>
    Lexeme p.text p.token ∧ p.EndsBefore (ps.flatMap Piece.text ++ rest) ∧ Cuts ps rest

@[simp] theorem cuts_nil (rest : List Char) : Cuts [] rest := trivial

theorem cuts_append {rest : List Char} {qs : List Piece} : ∀ {ps : List Piece},
    Cuts (ps ++ qs) rest ↔ Cuts ps (qs.flatMap Piece.text ++ rest) ∧ Cuts qs rest
  | [] => by simp
  | p :: ps => by
    have ih : Cuts (ps ++ qs) rest ↔ Cuts ps (qs.flatMap Piece.text ++ rest) ∧ Cuts qs rest :=
      cuts_append
    simp only [List.cons_append, Cuts, ih, List.flatMap_append, List.append_assoc, and_assoc]

theorem Cuts.of_append {a b : List Char} : ∀ {ps : List Piece}, Cuts ps (a ++ b) → Cuts ps a
  | [], _ => trivial
  | p :: ps, h => by
    obtain ⟨hl, he, hps⟩ := h
    rw [← List.append_assoc] at he
    exact ⟨hl, he.of_append, hps.of_append⟩

theorem pieces_of_none {s : List Char} (h : scan s = none) : pieces s = ([], s) := by
  rw [pieces]
  split
  · rfl
  · next hs =>
    rw [h] at hs
    cases hs

theorem pieces_of_some {s rest : List Char} {p : Piece} (h : scan s = some (p, rest)) :
    pieces s = (p :: (pieces rest).1, (pieces rest).2) := by
  rw [pieces]
  split
  · next hs =>
    rw [h] at hs
    cases hs
  · next hs =>
    rw [h] at hs
    cases hs
    rfl

theorem pieces_append {rest : List Char} : ∀ {ps : List Piece}, Cuts ps rest →
    pieces (ps.flatMap Piece.text ++ rest) = (ps ++ (pieces rest).1, (pieces rest).2)
  | [], _ => by simp
  | p :: ps, h => by
    obtain ⟨hl, he, hps⟩ := h
    rw [List.flatMap_cons, List.append_assoc, pieces_of_some (scan_append hl he),
      pieces_append hps]
    rfl

theorem cuts_pieces (s : List Char) :
    Cuts (pieces s).1 (pieces s).2 ∧ scan (pieces s).2 = none := by
  fun_induction pieces s with
  | case1 s h => exact ⟨trivial, h⟩
  | case2 s p rest h _ ih =>
    obtain ⟨hl, he⟩ := scan_lexeme h
    rw [← flatMap_pieces rest] at he
    exact ⟨⟨hl, he, ih.1⟩, ih.2⟩

/-- What a text is cut into, said without the cutting. -/
theorem pieces_eq_iff {s rest : List Char} {ps : List Piece} :
    pieces s = (ps, rest) ↔
      s = ps.flatMap Piece.text ++ rest ∧ Cuts ps rest ∧ scan rest = none := by
  constructor
  · intro h
    have hs := flatMap_pieces s
    have hc := cuts_pieces s
    rw [h] at hs hc
    exact ⟨hs.symm, hc⟩
  · rintro ⟨rfl, hc, hn⟩
    rw [pieces_append hc, pieces_of_none hn, List.append_nil]

theorem pieces_of_cuts {ps : List Piece} (h : Cuts ps []) :
    pieces (ps.flatMap Piece.text) = (ps, []) :=
  pieces_eq_iff.2 ⟨by simp, h, rfl⟩

/-- A stretch of the pieces of a text is cut from its own text. -/
theorem pieces_stretch {s rest : List Char} {before mid after : List Piece}
    (h : pieces s = (before ++ mid ++ after, rest)) :
    pieces (mid.flatMap Piece.text) = (mid, []) := by
  obtain ⟨_, hc, _⟩ := pieces_eq_iff.1 h
  rw [List.append_assoc, cuts_append, cuts_append] at hc
  exact pieces_of_cuts (Cuts.of_append (a := []) hc.2.1)

theorem lexeme_of_mem_cuts {rest : List Char} {p : Piece} : ∀ {ps : List Piece}, Cuts ps rest →
    p ∈ ps → Lexeme p.text p.token
  | q :: ps, h, hp => by
    rcases List.mem_cons.1 hp with rfl | hp
    · exact h.1
    · exact lexeme_of_mem_cuts h.2.2 hp

/-! ## Tokens of pieces -/

@[simp] theorem map_token_place : ∀ (l : Location) (ps : List Piece),
    (place l ps).map Placed.token = ps.filterMap Piece.token
  | _, [] => rfl
  | l, p :: ps => by
    cases h : p.token with
    | none => simp [place, h, map_token_place]
    | some t => simp [place, h, map_token_place]

theorem place_cons (l : Location) (p : Piece) (ps : List Piece) :
    place l (p :: ps) = place l [p] ++ place (l.advance p.text) ps := by
  cases h : p.token <;> simp [place, h]

theorem place_append : ∀ (ps qs : List Piece) (l : Location),
    place l (ps ++ qs) = place l ps ++ place (l.advance (ps.flatMap Piece.text)) qs
  | [], _, _ => rfl
  | p :: ps, qs, l => by
    rw [List.cons_append, place_cons, place_append ps, place_cons l p ps, List.flatMap_cons,
      Location.advance_append, List.append_assoc]

end AlterCatalog.Lexer

namespace AlterCatalog

/-- The last token of a text that is read whole. -/
def endAt (l : Location) : Placed := ⟨.endOfInput, ⟨l, l⟩⟩

theorem tokenize_of_pieces {input : String} {ps : List Piece}
    (h : Lexer.pieces input.toList = (ps, [])) :
    tokenize input = .ok (Lexer.place .origin ps ++ [endAt (.advance .origin input.toList)]) := by
  have ht := Lexer.flatMap_pieces input.toList
  rw [h, List.append_nil] at ht
  simp only [tokenize, tokenizeFrom, h, ht, endAt]

theorem tokenize_ofList {s : List Char} {ps : List Piece} (h : Lexer.pieces s = (ps, [])) :
    tokenize (String.ofList s) = .ok (Lexer.place .origin ps ++ [endAt (.advance .origin s)]) := by
  rw [← String.toList_ofList (l := s)] at h
  have ht := tokenize_of_pieces h
  rw [String.toList_ofList] at ht
  exact ht

theorem tokenize_eq_ok_iff {input : String} {ts : List Placed} :
    tokenize input = .ok ts ↔ ∃ ps, Lexer.pieces input.toList = (ps, []) ∧
      ts = Lexer.place .origin ps ++ [endAt (.advance .origin input.toList)] := by
  constructor
  · intro h
    cases hr : (Lexer.pieces input.toList).2 with
    | nil =>
      have hp : Lexer.pieces input.toList = ((Lexer.pieces input.toList).1, []) := by rw [← hr]
      rw [tokenize_of_pieces hp] at h
      cases h
      exact ⟨_, hp, rfl⟩
    | cons c r =>
      simp only [tokenize, tokenizeFrom, hr] at h
      cases h
  · rintro ⟨ps, hp, rfl⟩
    exact tokenize_of_pieces hp

/-- A text that reads as the given tokens. -/
def ReadsAs (text : String) (tokens : List Token) : Prop :=
  ∃ ts, tokenize text = .ok ts ∧ ts.map Placed.token = tokens ++ [.endOfInput]

theorem readsAs_iff {text : String} {tokens : List Token} : ReadsAs text tokens ↔
    ∃ ps, Lexer.pieces text.toList = (ps, []) ∧ ps.filterMap Piece.token = tokens := by
  constructor
  · intro h
    obtain ⟨ts, htok, ht⟩ := h
    obtain ⟨ps, hp, rfl⟩ := tokenize_eq_ok_iff.1 htok
    rw [List.map_append, Lexer.map_token_place] at ht
    exact ⟨ps, hp, List.append_cancel_right ht⟩
  · intro h
    obtain ⟨ps, hp, rfl⟩ := h
    refine ⟨_, tokenize_of_pieces hp, ?_⟩
    rw [List.map_append, Lexer.map_token_place]
    rfl

theorem readsAs_of_cuts {ps : List Piece} (h : Lexer.Cuts ps []) :
    ReadsAs (String.ofList (ps.flatMap Piece.text)) (ps.filterMap Piece.token) := by
  refine readsAs_iff.2 ⟨ps, ?_, rfl⟩
  rw [String.toList_ofList]
  exact Lexer.pieces_of_cuts h

/-- After pieces that were cut off, reading goes on as it would from where they end. -/
theorem tokenizeFrom_append {ps : List Piece} {rest : List Char} (h : Lexer.Cuts ps rest)
    (l : Location) : tokenizeFrom l (ps.flatMap Piece.text ++ rest) =
      (tokenizeFrom (l.advance (ps.flatMap Piece.text)) rest).map (Lexer.place l ps ++ ·) := by
  unfold tokenizeFrom
  rw [Lexer.pieces_append h]
  cases (Lexer.pieces rest).2 <;> simp [Except.map, Lexer.place_append, Location.advance_append]

theorem tokenizeFrom_of_scan {s rest : List Char} {p : Piece} (h : Lexer.scan s = some (p, rest))
    (l : Location) : tokenizeFrom l s =
      (tokenizeFrom (l.advance p.text) rest).map (Lexer.place l [p] ++ ·) := by
  obtain ⟨hl, he⟩ := Lexer.scan_lexeme h
  have hc : Lexer.Cuts [p] rest := ⟨hl, he, trivial⟩
  have ht := tokenizeFrom_append hc l
  rw [List.flatMap_singleton, ← (Lexer.scan_startsWith h).1] at ht
  exact ht

theorem tokenizeFrom_nil (l : Location) : tokenizeFrom l [] = .ok [endAt l] := by
  unfold tokenizeFrom
  rw [Lexer.pieces_of_none rfl]
  rfl

theorem tokenizeFrom_of_none {c : Char} {r : List Char} (h : Lexer.scan (c :: r) = none)
    (l : Location) : tokenizeFrom l (c :: r) = .error ⟨.of c r, l⟩ := by
  unfold tokenizeFrom
  rw [Lexer.pieces_of_none h]
  rfl

/-- Reading fails after the text of the pieces that could be cut. -/
theorem tokenize_eq_error {input : String} {e : LexError} (h : tokenize input = .error e) :
    ∃ before after, input.toList = before ++ after ∧ after ≠ [] ∧
      e.location = .advance .origin before := by
  have ht := Lexer.flatMap_pieces input.toList
  cases hr : (Lexer.pieces input.toList).2 with
  | nil =>
    simp only [tokenize, tokenizeFrom, hr] at h
    cases h
  | cons c r =>
    rw [hr] at ht
    simp only [tokenize, tokenizeFrom, hr] at h
    cases h
    exact ⟨_, _, ht.symm, by simp, rfl⟩

end AlterCatalog
