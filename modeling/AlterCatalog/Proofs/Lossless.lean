import AlterCatalog.Proofs.Filler
import AlterCatalog.Proofs.Places

/-!
# Reading tokens loses nothing

The pieces of a text lie side by side and cover it, and a token takes its span from the piece it
was read from. So the spans are in order, every end of a span is a right place in the text, what a
span covers reads as its token again, and between two spans there are only white space and comments.
-/

namespace AlterCatalog

/-- The stretches that lie before each token, the first one from the given location. -/
def gaps : Location → List Placed → List Span
  | _, [] => []
  | l, t :: ts => ⟨l, t.span.start⟩ :: gaps t.span.finish ts

/-- What the tokens of a text owe to it; the end of the input stands apart. -/
structure Lossless (input : String) (tokens : List Placed) (finish : Location) : Prop where
  size : finish.offset = input.utf8ByteSize
  endOnce : ∀ t ∈ tokens, t.token ≠ .endOfInput
  nonempty : ∀ t ∈ tokens, t.span.start.offset < t.span.finish.offset
  ordered : (tokens ++ [endAt finish]).Pairwise fun a b =>
    a.span.finish.offset ≤ b.span.start.offset
  places : ∀ t ∈ tokens ++ [endAt finish], t.span.start.IsIn input ∧ t.span.finish.IsIn input
  /-- A token is read again from its own slice, and nothing else is. -/
  slices : ∀ t ∈ tokens, ∃ l,
    tokenize (t.span.slice input) = .ok [⟨t.token, ⟨.origin, l⟩⟩, endAt l]
  /-- White space and comments are all that is between. -/
  between : ∀ gap ∈ gaps .origin (tokens ++ [endAt finish]),
    (∃ l, tokenize (gap.slice input) = .ok [endAt l]) ∧ Tokenless (gap.slice input).toList

namespace Lexer

theorem mem_place {t : Placed} : ∀ {ps : List Piece} {l : Location}, t ∈ place l ps →
    ∃ before p after, ps = before ++ p :: after ∧ p.token = some t.token ∧
      t.span = ⟨l.advance (before.flatMap Piece.text),
        l.advance (before.flatMap Piece.text ++ p.text)⟩
  | p :: ps, l, h => by
    have later : t ∈ place (l.advance p.text) ps → ∃ before q after,
        p :: ps = before ++ q :: after ∧ q.token = some t.token ∧
          t.span = ⟨l.advance (before.flatMap Piece.text),
            l.advance (before.flatMap Piece.text ++ q.text)⟩ := by
      intro h
      obtain ⟨before, q, after, rfl, hq, hs⟩ := mem_place h
      refine ⟨p :: before, q, after, rfl, hq, ?_⟩
      rw [hs, List.flatMap_cons, List.append_assoc, Location.advance_append l p.text,
        Location.advance_append l p.text]
    rw [place] at h
    split at h
    · exact later h
    · next u hu =>
      rcases List.mem_cons.1 h with rfl | h
      · exact ⟨[], p, ps, rfl, hu, rfl⟩
      · exact later h

theorem offset_le_start {l : Location} {ps : List Piece} {t : Placed} (h : t ∈ place l ps) :
    l.offset ≤ t.span.start.offset := by
  obtain ⟨_, _, _, _, _, hs⟩ := mem_place h
  rw [hs]
  exact Location.offset_le_advance _ l

theorem ordered_place : ∀ (ps : List Piece) (l : Location),
    (place l ps ++ [endAt (l.advance (ps.flatMap Piece.text))]).Pairwise fun a b =>
      a.span.finish.offset ≤ b.span.start.offset
  | [], _ => List.pairwise_singleton _ _
  | p :: ps, l => by
    have ih := ordered_place ps (l.advance p.text)
    rw [List.flatMap_cons, Location.advance_append]
    rw [place]
    split
    · exact ih
    · rw [List.cons_append, List.pairwise_cons]
      refine ⟨fun t ht => ?_, ih⟩
      rcases List.mem_append.1 ht with ht | ht
      · exact offset_le_start ht
      · rw [List.mem_singleton.1 ht]
        exact Location.offset_le_advance _ _

/-- A gap is a stretch of pieces without tokens. The pieces before `ps` that a gap can reach back
to are the `blanks`. -/
theorem mem_gaps {gap : Span} : ∀ (blanks ps : List Piece) (l : Location),
    (∀ p ∈ blanks, p.token = none) →
    gap ∈ gaps l (place (l.advance (blanks.flatMap Piece.text)) ps ++
      [endAt (l.advance ((blanks ++ ps).flatMap Piece.text))]) →
    ∃ before mid after, blanks ++ ps = before ++ mid ++ after ∧ (∀ p ∈ mid, p.token = none) ∧
      gap = ⟨l.advance (before.flatMap Piece.text),
        l.advance (before.flatMap Piece.text ++ mid.flatMap Piece.text)⟩
  | blanks, [], l, hb, h => by
    simp only [place, List.nil_append, List.append_nil, gaps, List.mem_singleton] at h
    exact ⟨[], blanks, [], by simp, hb, h⟩
  | blanks, p :: ps, l, hb, h => by
    rw [place] at h
    split at h
    · next hp =>
      -- The gap goes on over this piece.
      have hb' : ∀ q ∈ blanks ++ [p], q.token = none := by
        intro q hq
        rcases List.mem_append.1 hq with hq | hq
        · exact hb q hq
        · rw [List.mem_singleton.1 hq, hp]
      rw [← Location.advance_append] at h
      have hcons : blanks ++ p :: ps = blanks ++ [p] ++ ps := by simp
      rw [hcons] at h ⊢
      exact mem_gaps _ ps l hb' (by simpa using h)
    · next t hp =>
      rw [List.cons_append, gaps] at h
      rcases List.mem_cons.1 h with rfl | h
      · exact ⟨[], blanks, p :: ps, rfl, hb, rfl⟩
      · have hl : l.advance ((blanks ++ p :: ps).flatMap Piece.text) =
            ((l.advance (blanks.flatMap Piece.text)).advance p.text).advance
              (([] ++ ps).flatMap Piece.text) := by
          simp only [List.flatMap_append, List.flatMap_cons, List.nil_append,
            Location.advance_append]
        rw [hl] at h
        obtain ⟨before, mid, after, he, hm, rfl⟩ := mem_gaps [] ps _ (by simp) h
        rw [List.nil_append] at he
        refine ⟨blanks ++ p :: before, mid, after, by simp [he], hm, ?_⟩
        simp only [List.flatMap_append, List.flatMap_cons, Location.advance_append]

theorem place_of_token {p : Piece} {t : Token} (h : p.token = some t) (l : Location) :
    place l [p] = [⟨t, ⟨l, l.advance p.text⟩⟩] := by
  simp [place, h]

theorem place_blanks : ∀ {ps : List Piece}, (∀ p ∈ ps, p.token = none) → ∀ l, place l ps = []
  | [], _, _ => rfl
  | p :: ps, h, l => by
    obtain ⟨hp, hps⟩ := List.forall_mem_cons.1 h
    simp only [place, hp]
    exact place_blanks hps _

/-- What a stretch of the pieces of a text reads as. -/
theorem tokenize_stretch {input : String} {rest : List Char} (before mid after : List Piece)
    (h : pieces input.toList = (before ++ mid ++ after, rest)) :
    let start := Location.advance .origin (before.flatMap Piece.text)
    let finish := Location.advance .origin (before.flatMap Piece.text ++ mid.flatMap Piece.text)
    tokenize (Span.slice ⟨start, finish⟩ input) =
      .ok (place .origin mid ++ [endAt (.advance .origin (mid.flatMap Piece.text))]) := by
  have hi : input = String.ofList
      (before.flatMap Piece.text ++ mid.flatMap Piece.text ++ (after.flatMap Piece.text ++ rest)) := by
    rw [← String.ofList_toList (s := input), (pieces_eq_iff.1 h).1]
    simp
  have hm := tokenize_ofList (pieces_stretch h)
  rw [← hm]
  congr 1
  rw [hi]
  exact slice_advance _ _ _

theorem lossless_place {input : String} {ps : List Piece}
    (h : pieces input.toList = (ps, [])) :
    Lossless input (place .origin ps) (.advance .origin input.toList) := by
  obtain ⟨hi, hc, _⟩ := pieces_eq_iff.1 h
  rw [List.append_nil] at hi
  have right : ∀ a b, input.toList = a ++ b → (Location.advance .origin a).IsIn input := by
    intro a b hab
    rw [← String.ofList_toList (s := input), hab]
    exact Location.isIn_advance a b
  constructor
  case size => rw [Location.offset_advance_origin, String.utf8Len_toList]
  case endOnce =>
    intro t ht
    obtain ⟨_, p, _, rfl, hp, _⟩ := mem_place ht
    exact token_ne_endOfInput (hp ▸ lexeme_of_mem_cuts hc (by simp))
  case nonempty =>
    intro t ht
    obtain ⟨_, p, _, rfl, _, hs⟩ := mem_place ht
    rw [hs, Location.advance_append]
    exact Location.offset_lt_advance (lexeme_of_mem_cuts hc (by simp)).ne_nil _
  case ordered =>
    rw [hi]
    exact ordered_place ps _
  case places =>
    intro t ht
    rcases List.mem_append.1 ht with ht | ht
    · obtain ⟨before, p, after, rfl, _, hs⟩ := mem_place ht
      rw [hs]
      exact ⟨right _ _ (by simp [hi]; rfl), right _ (after.flatMap Piece.text) (by simp [hi])⟩
    · rw [List.mem_singleton.1 ht]
      exact ⟨right _ [] (by simp), right _ [] (by simp)⟩
  case slices =>
    intro t ht
    obtain ⟨before, p, after, rfl, hp, hs⟩ := mem_place ht
    have hm := tokenize_stretch before [p] after (by simpa using h)
    rw [place_of_token hp] at hm
    rw [hs]
    simp only [List.flatMap_cons, List.flatMap_nil, List.append_nil] at hm
    exact ⟨_, hm⟩
  case between =>
    intro gap hg
    rw [hi] at hg
    obtain ⟨before, mid, after, he, hm, rfl⟩ :=
      mem_gaps [] ps .origin (by simp) (by simpa using hg)
    have ht := tokenize_stretch before mid after
      (by rw [h, ← he, List.nil_append])
    rw [place_blanks hm] at ht
    exact ⟨⟨_, ht⟩, tokenize_eq_end_iff.1 ⟨_, ht⟩⟩

end Lexer

/-- **Lossless reading.** Where a text is read, its tokens and the gaps between them account for
all of it; where it is not, the error stands at a right place. -/
theorem tokenize_lossless (input : String) :
    match tokenize input with
    | .ok ts => ∃ tokens finish, ts = tokens ++ [endAt finish] ∧ Lossless input tokens finish
    | .error e => e.location.IsIn input := by
  cases h : tokenize input with
  | ok ts =>
    obtain ⟨ps, hp, rfl⟩ := tokenize_eq_ok_iff.1 h
    exact ⟨_, _, rfl, Lexer.lossless_place hp⟩
  | error e =>
    obtain ⟨before, after, hi, _, hl⟩ := tokenize_eq_error h
    rw [← String.ofList_toList (s := input), hi]
    show e.location.IsIn _
    rw [hl]
    exact Location.isIn_advance before after

end AlterCatalog
