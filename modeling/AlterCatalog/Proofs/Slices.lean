import AlterCatalog.Proofs.Spans

/-!
# Spans point back to the source

Tokens that follow one another in a text were cut from pieces that do, so the slice from the first
of them to the last reads as these tokens again. A node is therefore read from its own slice: the
grammar derives it from the tokens of the slice, and the slice of a statement is that statement.
-/

namespace AlterCatalog

open Grammar

namespace Lexer

/-- The pieces before a token are those of the tokens before it. -/
theorem place_split {t : Placed} {b : List Placed} : ∀ {ps : List Piece} {l : Location}
    {a : List Placed}, place l ps = a ++ t :: b →
    ∃ before p after, ps = before ++ p :: after ∧ place l before = a ∧ p.token.isSome
  | [], _, a, h => by cases a <;> cases h
  | p :: ps, l, a, h => by
    cases hp : p.token with
    | none =>
      rw [place, hp] at h
      obtain ⟨before, q, after, rfl, ha, hq⟩ := place_split h
      exact ⟨p :: before, q, after, rfl, by simp only [place, hp, ha], hq⟩
    | some u =>
      rw [place, hp] at h
      cases a with
      | nil => exact ⟨[], p, ps, rfl, rfl, by simp [hp]⟩
      | cons x a =>
        obtain ⟨hx, h⟩ := List.cons.inj h
        obtain ⟨before, q, after, rfl, ha, hq⟩ := place_split h
        exact ⟨p :: before, q, after, rfl, by simp only [place, hp, ha, ← hx], hq⟩

/-- A text falls apart where one of its tokens starts. -/
theorem place_start {t : Placed} {a b : List Placed} {ps : List Piece} {l : Location}
    (h : place l ps = a ++ t :: b) : ∃ before after, ps = before ++ after ∧
      t.span.start = l.advance (before.flatMap Piece.text) ∧
      place (l.advance (before.flatMap Piece.text)) after = t :: b := by
  obtain ⟨before, p, after, rfl, rfl, hp⟩ := place_split h
  obtain ⟨u, hu⟩ := Option.isSome_iff_exists.1 hp
  rw [place_append] at h
  have hrest := List.append_cancel_left h
  refine ⟨before, p :: after, rfl, ?_, hrest⟩
  rw [place, hu] at hrest
  cases hrest
  rfl

/-- A text falls apart where one of its tokens ends. -/
theorem place_finish {t : Placed} {a b : List Placed} {ps : List Piece} {l : Location}
    (h : place l ps = a ++ t :: b) : ∃ before after, ps = before ++ after ∧
      t.span.finish = l.advance (before.flatMap Piece.text) ∧ place l before = a ++ [t] := by
  obtain ⟨before, p, after, rfl, rfl, hp⟩ := place_split h
  obtain ⟨u, hu⟩ := Option.isSome_iff_exists.1 hp
  rw [place_append] at h
  have hrest := List.append_cancel_left h
  rw [place, hu] at hrest
  cases hrest
  refine ⟨before ++ [p], after, by simp, ?_, ?_⟩
  · rw [List.flatMap_append, Location.advance_append]
    simp
  · rw [place_append, place_of_token hu]

/-- The pieces from the first of some tokens to the last of them. -/
theorem place_stretch {a us b : List Placed} {ps : List Piece} {l : Location} {sp : Span}
    (h : place l ps = a ++ (us ++ b)) (hc : Parser.Covers sp us) :
    ∃ before mid after, ps = before ++ mid ++ after ∧
      mid.filterMap Piece.token = us.map Placed.token ∧
      sp = ⟨l.advance (before.flatMap Piece.text),
        l.advance (before.flatMap Piece.text ++ mid.flatMap Piece.text)⟩ := by
  obtain ⟨hs, hf⟩ := hc
  obtain ⟨x, hx, hs⟩ := Option.map_eq_some_iff.1 hs
  obtain ⟨y, hy, hf⟩ := Option.map_eq_some_iff.1 hf
  obtain ⟨us', hus'⟩ := List.head?_eq_some_iff.1 hx
  obtain ⟨us'', hus''⟩ := List.getLast?_eq_some_iff.1 hy
  rw [hus', List.cons_append] at h
  obtain ⟨before, rest, rfl, hstart, hrest⟩ := place_start h
  rw [← List.cons_append, ← hus', hus'', List.append_assoc] at hrest
  obtain ⟨mid, after, rfl, hfinish, hmid⟩ := place_finish hrest
  refine ⟨before, mid, after, by simp, ?_, ?_⟩
  · rw [hus'', ← hmid, map_token_place]
  · rw [Location.advance_append, ← hfinish, ← hstart, hs, hf]

end Lexer

/-! ## Tokens of a text -/

theorem infix_of_endOfInput_not_mem {ts us : List Placed} {l : Location}
    (hu : us <:+: ts ++ [endAt l]) (he : .endOfInput ∉ us.map Placed.token) : us <:+: ts := by
  rcases List.infix_concat_iff.1 hu with hs | hi
  · rcases List.suffix_concat_iff.1 hs with rfl | ⟨vs, rfl, -⟩
    · exact List.nil_infix
    · simp [endAt] at he
  · exact hi

theorem apart_of_tokenize {input : String} {ts : List Placed} (h : tokenize input = .ok ts) :
    ts.Pairwise fun a b => a.span.finish.offset ≤ b.span.start.offset := by
  obtain ⟨ps, hp, rfl⟩ := tokenize_eq_ok_iff.1 h
  exact (Lexer.lossless_place hp).ordered

theorem ordered_of_tokenize {input : String} {ts us : List Placed} (h : tokenize input = .ok ts)
    (hu : us <:+: ts) (he : .endOfInput ∉ us.map Placed.token) : Parser.Ordered us := by
  have hn : ∀ t ∈ us, t.span.start.offset < t.span.finish.offset := by
    obtain ⟨ps, hp, rfl⟩ := tokenize_eq_ok_iff.1 h
    intro t ht
    exact (Lexer.lossless_place hp).nonempty t ((infix_of_endOfInput_not_mem hu he).subset ht)
  exact ⟨hn, (apart_of_tokenize h).sublist hu.sublist⟩

/-- The slice over some tokens of a text reads as these tokens. -/
theorem tokenize_slice {input : String} {ts us : List Placed} {sp : Span}
    (h : tokenize input = .ok ts) (hu : us <:+: ts) (he : .endOfInput ∉ us.map Placed.token)
    (hc : Parser.Covers sp us) : ∃ vs l, tokenize (sp.slice input) = .ok (vs ++ [endAt l]) ∧
      vs.map Placed.token = us.map Placed.token := by
  obtain ⟨ps, hp, rfl⟩ := tokenize_eq_ok_iff.1 h
  obtain ⟨a, b, hab⟩ := infix_of_endOfInput_not_mem hu he
  rw [List.append_assoc] at hab
  obtain ⟨before, mid, after, rfl, hmid, rfl⟩ := Lexer.place_stretch hab.symm hc
  exact ⟨_, _, Lexer.tokenize_stretch before mid after hp, by rw [Lexer.map_token_place, hmid]⟩

/-! ## Nodes of a text -/

/-- A node whose span tells where it stands in a text: around its children, which stand apart and
in order, and over a slice from which the grammar derives the node. -/
structure Node.Located (n : Node) (input : String) : Prop where
  nonempty : n.span.start.offset < n.span.finish.offset
  within : ∀ c ∈ n.children, n.span.start.offset ≤ c.span.start.offset ∧
    c.span.finish.offset ≤ n.span.finish.offset
  apart : n.children.Pairwise fun a b => a.span.finish.offset ≤ b.span.start.offset
  slice : ∃ ts l, tokenize (n.span.slice input) = .ok (ts ++ [endAt l]) ∧
    n.Derives (ts.map Placed.token)

theorem Node.endOfInput_not_mem {n : Node} {ts : List Token} (h : n.Derives ts) :
    .endOfInput ∉ ts := by
  cases n with
  | statement => exact Parser.endOfInput_not_mem_statementOf h
  | name => exact Parser.endOfInput_not_mem_nameOf h
  | literal => exact Parser.endOfInput_not_mem_literalOf h
  | keys => exact Parser.endOfInput_not_mem_listed Parser.endOfInput_not_mem_literalOf h
  | settings => exact Parser.endOfInput_not_mem_listed Parser.endOfInput_not_mem_settingOf h
  | setting => exact Parser.endOfInput_not_mem_settingOf h

theorem located_of_seated {input : String} {ts us : List Placed} {n : Node}
    (h : tokenize input = .ok ts) (hu : us <:+: ts) (hn : Parser.Seated n us) : n.Located input := by
  have he := n.endOfInput_not_mem hn.derives
  have ho := ordered_of_tokenize h hu he
  constructor
  case nonempty => exact hn.covers.nonempty ho
  case within =>
    intro c hc
    obtain ⟨vs, hv, hcov⟩ := hn.children.of_mem hc
    exact hn.covers.within ho hv hcov
  case apart => exact hn.children.pairwise ho.apart
  case slice =>
    obtain ⟨vs, l, ht, hvs⟩ := tokenize_slice h hu he hn.covers
    exact ⟨vs, l, ht, hvs ▸ hn.derives⟩

theorem Node.Located.literal {input : String} {l : Literal} (h : (Node.literal l).Located input) :
    ∃ t f, tokenize (l.span.slice input) = .ok [t, endAt f] ∧ Value t.token l.value := by
  obtain ⟨ts, f, ht, hd⟩ := h.slice
  obtain ⟨value, span⟩ := l
  generalize hts : ts.map Placed.token = tokens at hd
  cases hd with
  | intro hv =>
    obtain ⟨t, rfl, rfl⟩ := List.map_eq_singleton_iff.1 hts
    exact ⟨t, f, ht, hv⟩

theorem Node.Located.statement {input : String} {s : Statement}
    (h : (Node.statement s).Located input) :
    ∃ t, parseStatement (s.span.slice input) = .ok t ∧ t.same s = true := by
  obtain ⟨ts, f, ht, hd⟩ := h.slice
  have hsentence : Sentence ((ts ++ [endAt f]).map Placed.token) s.bare := by
    rw [List.map_append]
    exact .plain hd
  obtain ⟨t, hb, hs⟩ := Parser.single_complete hsentence
  exact ⟨t, parseStatement_eq_ok_iff.2 ⟨_, ht, hs⟩, Statement.same_iff.2 hb⟩

/-- **Spans nest and point back.** The statements of a script stand apart and in order. So do the
children of each node, inside the span of the node. The slice of a statement reads as it, the slice
of a literal as the one token of its value, and the slice of a name as its parts between dots. -/
theorem parseScript_spans {input : String} {ss : List Statement} (h : parseScript input = .ok ss) :
    (ss.Pairwise fun a b => a.span.finish.offset ≤ b.span.start.offset) ∧
    ∀ s ∈ ss, (∃ t, parseStatement (s.span.slice input) = .ok t ∧ t.same s = true) ∧
      (∀ n ∈ s.nodes, n.Located input) ∧
      (∀ l, .literal l ∈ s.nodes → ∃ t f, tokenize (l.span.slice input) = .ok [t, endAt f] ∧
        Value t.token l.value) ∧
      ∀ n, .name n ∈ s.nodes → ∃ ts f, tokenize (n.span.slice input) = .ok (ts ++ [endAt f]) ∧
        NameOf (ts.map Placed.token) n.bare := by
  obtain ⟨-, ts, ht, hs⟩ := parseScript_eq_ok_iff.1 h
  have hrow := Parser.script_row ts
  rw [hs] at hrow
  have hseats : Parser.Row (Parser.Stands Statement.span Statement.nodes) ss ts := by
    refine hrow.imp fun s us hu hp => hp.2 ?_
    exact ordered_of_tokenize ht hu (Parser.endOfInput_not_mem_statementOf hp.1)
  refine ⟨?_, fun s hs => ?_⟩
  · exact (hseats.imp fun _ _ _ hp => hp.1).pairwise (apart_of_tokenize ht)
  · obtain ⟨us, hu, -, hnodes⟩ := hseats.of_mem hs
    have located : ∀ n ∈ s.nodes, n.Located input := by
      intro n hn
      obtain ⟨vs, hv, hn⟩ := hnodes n hn
      exact located_of_seated ht (hv.trans hu) hn
    have hroot : Node.statement s ∈ s.nodes := by
      rw [Statement.nodes_eq]
      exact List.mem_cons_self ..
    exact ⟨(located _ hroot).statement, located, fun l hl => (located _ hl).literal,
      fun n hn => (located _ hn).slice⟩

theorem parseScript_spans_two : ∃ s t,
    parseScript "ALTER CATALOG a SET (NULL = 1);\nALTER CATALOG b.c COMMENT TRUE" = .ok [s, t] ∧
    s.span.finish.offset ≤ t.span.start.offset ∧
    ∀ n ∈ t.nodes,
      n.Located "ALTER CATALOG a SET (NULL = 1);\nALTER CATALOG b.c COMMENT TRUE" := by
  have h : parseScript "ALTER CATALOG a SET (NULL = 1);\nALTER CATALOG b.c COMMENT TRUE" =
      .ok [⟨⟨⟨1, 1, 0⟩, ⟨1, 31, 30⟩⟩, ⟨["a"], ⟨⟨1, 15, 14⟩, ⟨1, 16, 15⟩⟩⟩,
          .set ⟨[⟨⟨.null, ⟨⟨1, 22, 21⟩, ⟨1, 26, 25⟩⟩⟩, ⟨.integer 1, ⟨⟨1, 29, 28⟩, ⟨1, 30, 29⟩⟩⟩,
            ⟨⟨1, 22, 21⟩, ⟨1, 30, 29⟩⟩⟩], ⟨⟨1, 21, 20⟩, ⟨1, 31, 30⟩⟩⟩⟩,
        ⟨⟨⟨2, 1, 32⟩, ⟨2, 31, 62⟩⟩, ⟨["b", "c"], ⟨⟨2, 15, 46⟩, ⟨2, 18, 49⟩⟩⟩,
          .comment ⟨.boolean true, ⟨⟨2, 27, 58⟩, ⟨2, 31, 62⟩⟩⟩⟩] := by decide +kernel
  obtain ⟨apart, each⟩ := parseScript_spans h
  exact ⟨_, _, h, (List.pairwise_cons.1 apart).1 _ (List.mem_cons_self ..),
    (each _ (List.mem_cons_of_mem _ (List.mem_cons_self ..))).2.1⟩

end AlterCatalog
