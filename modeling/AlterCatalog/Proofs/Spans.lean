import AlterCatalog.Proofs.Legible
import AlterCatalog.Proofs.Script

/-!
# Spans of a tree

Every node of a tree was read from a stretch of tokens: the grammar derives the node from it, the
span of the node runs from its first token to its last, and the children were read, in their order,
from stretches of it that lie apart. So spans nest like the nodes and stand in the order of the
source.
-/

namespace AlterCatalog

open Grammar

/-- The tokens from which the grammar derives a node, spans aside. -/
def Node.Derives : Node → List Token → Prop
  | .statement s, ts => StatementOf ts s.bare
  | .name n, ts => NameOf ts n.bare
  | .literal l, ts => LiteralOf ts l.bare
  | .keys l, ts => Listed LiteralOf ts (l.bare Literal.bare)
  | .settings l, ts => Listed SettingOf ts (l.bare Setting.bare)
  | .setting s, ts => SettingOf ts s.bare

namespace Parser

/-! ## Stretches in a row -/

/-- Things that stand on stretches of tokens one after another, with any tokens around them. -/
inductive Row {α : Type} (stands : α → Tokens → Prop) : List α → Tokens → Prop
  | nil {us : Tokens} : Row stands [] us
  | cons {a : α} {as : List α} {gap us rest : Tokens} : stands a us → Row stands as rest →
      Row stands (a :: as) (gap ++ (us ++ rest))

namespace Row

variable {α : Type} {stands stands' : α → Tokens → Prop} {as : List α} {us : Tokens}

theorem prepend (h : Row stands as us) (gap : Tokens) : Row stands as (gap ++ us) := by
  cases h with
  | nil => exact .nil
  | cons ha has =>
    rw [← List.append_assoc]
    exact .cons ha has

theorem extend (h : Row stands as us) (tail : Tokens) : Row stands as (us ++ tail) := by
  induction h with
  | nil => exact .nil
  | cons ha _ ih =>
    rw [List.append_assoc, List.append_assoc]
    exact .cons ha ih

theorem imp (h : Row stands as us)
    (hi : ∀ a vs, vs <:+: us → stands a vs → stands' a vs) : Row stands' as us := by
  induction h with
  | nil => exact .nil
  | @cons a as gap us rest ha _ ih =>
    refine .cons (hi a us ⟨gap, rest, by simp⟩ ha) (ih fun b vs hv => hi b vs (hv.trans ?_))
    exact ⟨gap ++ us, [], by simp⟩

theorem map {β : Type} (f : β → α) {bs : List β} (h : Row (fun b => stands (f b)) bs us) :
    Row stands (bs.map f) us := by
  induction h with
  | nil => exact .nil
  | cons hb _ ih => exact .cons hb ih

theorem of_mem (h : Row stands as us) {a : α} (ha : a ∈ as) : ∃ vs, vs <:+: us ∧ stands a vs := by
  induction h with
  | nil => cases ha
  | @cons b bs gap us rest hb _ ih =>
    rcases List.mem_cons.1 ha with rfl | ha
    · exact ⟨us, ⟨gap, rest, by simp⟩, hb⟩
    · obtain ⟨vs, hv, hs⟩ := ih ha
      exact ⟨vs, hv.trans ⟨gap ++ us, [], by simp⟩, hs⟩

end Row

theorem Covers.exists_start {sp : Span} {us : Tokens} (h : Covers sp us) :
    ∃ t ∈ us, t.span.start = sp.start := by
  obtain ⟨t, ht, hs⟩ := Option.map_eq_some_iff.1 h.1
  exact ⟨t, List.mem_of_mem_head? ht, hs⟩

theorem Covers.exists_finish {sp : Span} {us : Tokens} (h : Covers sp us) :
    ∃ t ∈ us, t.span.finish = sp.finish := by
  obtain ⟨t, ht, hs⟩ := Option.map_eq_some_iff.1 h.2
  exact ⟨t, List.mem_of_mem_getLast? ht, hs⟩

/-- Stretches in a row have spans in order. -/
theorem Row.pairwise {α : Type} {span : α → Span} {as : List α} {us : Tokens}
    (h : Row (fun a => Covers (span a)) as us)
    (ho : us.Pairwise fun a b => a.span.finish.offset ≤ b.span.start.offset) :
    as.Pairwise fun a b => (span a).finish.offset ≤ (span b).start.offset := by
  induction h with
  | nil => exact .nil
  | @cons a as gap us rest ha has ih =>
    obtain ⟨-, ho, -⟩ := List.pairwise_append.1 ho
    obtain ⟨-, hrest, hcross⟩ := List.pairwise_append.1 ho
    refine .cons (fun b hb => ?_) (ih hrest)
    obtain ⟨vs, hv, hb⟩ := has.of_mem hb
    obtain ⟨t, ht, hf⟩ := ha.exists_finish
    obtain ⟨u, hu, hs⟩ := hb.exists_start
    rw [← hf, ← hs]
    exact hcross t ht u (hv.subset hu)

/-- A span that covers tokens takes in the span of each. -/
theorem Covers.bounds {sp : Span} {us : Tokens} (h : Covers sp us) (ho : Ordered us) {t : Placed}
    (ht : t ∈ us) :
    sp.start.offset ≤ t.span.start.offset ∧ t.span.finish.offset ≤ sp.finish.offset := by
  constructor
  · obtain ⟨x, hx, hs⟩ := Option.map_eq_some_iff.1 h.1
    obtain ⟨us, rfl⟩ := List.head?_eq_some_iff.1 hx
    rw [← hs]
    rcases List.mem_cons.1 ht with rfl | ht
    · exact Nat.le_refl _
    · exact (ho.nonempty x (by simp)).le.trans ((List.pairwise_cons.1 ho.apart).1 t ht)
  · obtain ⟨y, hy, hf⟩ := Option.map_eq_some_iff.1 h.2
    obtain ⟨us, rfl⟩ := List.getLast?_eq_some_iff.1 hy
    rw [← hf]
    rcases List.mem_append.1 ht with ht | ht
    · have hty := (List.pairwise_append.1 ho.apart).2.2 t ht y (by simp)
      exact hty.trans (ho.nonempty y (by simp)).le
    · rw [List.mem_singleton.1 ht]

theorem Covers.within {sp sp' : Span} {us vs : Tokens} (h : Covers sp us) (ho : Ordered us)
    (hv : vs <:+: us) (h' : Covers sp' vs) :
    sp.start.offset ≤ sp'.start.offset ∧ sp'.finish.offset ≤ sp.finish.offset := by
  obtain ⟨t, ht, hs⟩ := h'.exists_start
  obtain ⟨u, hu, hf⟩ := h'.exists_finish
  rw [← hs, ← hf]
  exact ⟨(h.bounds ho (hv.subset ht)).1, (h.bounds ho (hv.subset hu)).2⟩

theorem Covers.nonempty {sp : Span} {us : Tokens} (h : Covers sp us) (ho : Ordered us) :
    sp.start.offset < sp.finish.offset := by
  obtain ⟨t, ht, hs⟩ := h.exists_start
  rw [← hs]
  exact (ho.nonempty t ht).trans_le (h.bounds ho ht).2

/-! ## Nodes on their tokens -/

/-- A node and the tokens it was read from. -/
structure Seated (n : Node) (us : Tokens) : Prop where
  covers : Covers n.span us
  children : Row (fun c => Covers c.span) n.children us
  derives : n.Derives (us.map Placed.token)

/-- Nodes that were all read from stretches of the given tokens. -/
def Seats (ns : List Node) (us : Tokens) : Prop := ∀ n ∈ ns, ∃ vs, vs <:+: us ∧ Seated n vs

theorem Seats.mono {ns : List Node} {us vs : Tokens} (h : Seats ns us) (hu : us <:+: vs) :
    Seats ns vs := by
  intro n hn
  obtain ⟨ws, hw, hs⟩ := h n hn
  exact ⟨ws, hw.trans hu, hs⟩

theorem Seats.cons {n : Node} {ns : List Node} {us : Tokens} (hn : Seated n us) (h : Seats ns us) :
    Seats (n :: ns) us :=
  List.forall_mem_cons.2 ⟨⟨us, List.infix_rfl, hn⟩, h⟩

theorem seats_nil (us : Tokens) : Seats [] us := List.forall_mem_nil _

section
variable {α : Type} {item : Item α} {span : α → Span} {nodes : α → List Node}

/-- What a list item owes to the tokens it was read from. -/
def Stands (span : α → Span) (nodes : α → List Node) (a : α) (us : Tokens) : Prop :=
  Covers (span a) us ∧ Seats (nodes a) us

def Item.Seats (item : Item α) (span : α → Span) (nodes : α → List Node) : Prop :=
  ∀ {ts rest a}, item.read ts = some (a, rest) →
    ∃ us, ts = us ++ rest ∧ (Ordered us → Stands span nodes a us)

theorem Row.seats {as : List α} {us : Tokens} (h : Row (Stands span nodes) as us) :
    Parser.Seats (as.flatMap nodes) us := by
  intro n hn
  obtain ⟨a, ha, hn⟩ := List.mem_flatMap.1 hn
  obtain ⟨vs, hv, -, hs⟩ := h.of_mem ha
  exact (hs.mono hv) n hn

variable (hi : item.Seats span nodes)
include hi

theorem following_row (separator : Symbol) (ts : Tokens) : ∃ us,
    ts = us ++ (following separator item ts).2 ∧
      (Ordered us → Row (Stands span nodes) (following separator item ts).1 us) := by
  fun_induction following separator item ts with
  | case1 => exact ⟨[], rfl, fun _ => .nil⟩
  | case2 t rest ht a rest' hr _ ih =>
    obtain ⟨us, rfl, ha⟩ := hi hr
    obtain ⟨vs, hvs, has⟩ := ih
    refine ⟨[t] ++ (us ++ vs), by simp [← hvs], fun ho => ?_⟩
    obtain ⟨-, ho⟩ := ho.of_append
    exact .cons (ha ho.of_append.1) (has ho.of_append.2)
  | case3 => exact ⟨[], rfl, fun _ => .nil⟩
  | case4 => exact ⟨[], rfl, fun _ => .nil⟩

theorem series_row (ts : Tokens) : ∃ us, ts = us ++ (series item ts).2 ∧
    (Ordered us → Row (Stands span nodes) (series item ts).1 us) := by
  unfold series
  split
  · next a rest hr =>
    obtain ⟨us, rfl, ha⟩ := hi hr
    obtain ⟨vs, hvs, has⟩ := following_row hi .comma rest
    refine ⟨us ++ vs, by rw [List.append_assoc, ← hvs], fun ho => ?_⟩
    exact (Row.cons (ha ho.of_append.1) (has ho.of_append.2) : Row _ _ ([] ++ (us ++ vs)))
  · exact ⟨[], rfl, fun _ => .nil⟩

theorem listing_row {ts rest : Tokens} {l : Listing α} (h : listing item ts = .ok (l, rest)) :
    ∃ us, ts = us ++ rest ∧ (Ordered us → Row (Stands span nodes) l.items us) := by
  obtain ⟨o, ts', c, rfl, -, hts, -, rfl⟩ := parens_of_listing h
  obtain ⟨us, hus, hrow⟩ := series_row hi ts'
  rw [hts] at hus
  refine ⟨[o] ++ (us ++ [c]), by simp [hus], fun ho => ?_⟩
  obtain ⟨-, ho⟩ := ho.of_append
  exact ((hrow ho.of_append.1).extend [c]).prepend [o]

end

/-! ## The nodes of each reader -/

theorem seated_literal {t : Placed} {l : Literal} (h : literalOf? t = some l) :
    Seated (.literal l) [t] := by
  obtain ⟨hv, hs⟩ := literalOf?_sound h
  have hc : Covers l.span [t] := hs ▸ covers_singleton t
  exact ⟨hc, .nil, .intro hv⟩

theorem seats_literal : literal.Seats Literal.span fun l => [.literal l] := by
  intro ts rest l h
  cases ts with
  | nil => cases h
  | cons t ts =>
    obtain ⟨l', hl, he⟩ := Option.map_eq_some_iff.1 h
    cases he
    have hs := seated_literal hl
    exact ⟨[t], rfl, fun _ => ⟨hs.covers, .cons hs (seats_nil _)⟩⟩

theorem seats_setting : setting.Seats Setting.span fun s =>
    [.setting s, .literal s.key, .literal s.value] := by
  intro ts rest a h
  obtain ⟨us, hus, hp, hc⟩ := setting_reads.sound h
  simp only [setting] at h
  split at h
  · next k e v rest' =>
    split at h
    · next key value hk _ hv =>
      cases h
      obtain rfl : [k, e, v] = us := List.append_cancel_right hus
      have hkey := seated_literal hk
      have hvalue := seated_literal hv
      have hrow : Row (fun c : Node => Covers c.span) [.literal key, .literal value]
          ([] ++ ([k] ++ ([e] ++ ([v] ++ [])))) := .cons hkey.covers (.cons hvalue.covers .nil)
      refine ⟨[k, e, v], rfl, fun ho => ⟨hc ho, .cons ⟨hc ho, hrow, hp⟩ ?_⟩⟩
      intro n hn
      rcases List.mem_cons.1 hn with rfl | hn
      · exact ⟨[k], ⟨[], [e, v], rfl⟩, hkey⟩
      · rw [List.mem_singleton.1 hn]
        exact ⟨[v], ⟨[k, e], [], rfl⟩, hvalue⟩
    · cases h
  · cases h

theorem seats_name {ts rest : Tokens} {n : Name} (h : name ts = .ok (n, rest)) :
    ∃ us, ts = us ++ rest ∧ (Ordered us → Seated (.name n) us) := by
  obtain ⟨us, hus, hp, hc⟩ := name_sound h
  exact ⟨us, hus, fun ho => ⟨hc ho, .nil, hp⟩⟩

/-- A listing that is read, with its items in a row. -/
theorem listing_stands {α : Type} {item : Item α} {bare : α → α} {span : α → Span}
    {phrase : List Token → α → Prop} {nodes : α → List Node}
    (hi : item.Reads bare span phrase) (hn : item.Seats span nodes) {ts rest : Tokens}
    {l : Listing α} (h : listing item ts = .ok (l, rest)) : ∃ us, ts = us ++ rest ∧
      Listed phrase (us.map Placed.token) (l.bare bare) ∧
      (Ordered us → Covers l.span us ∧ Row (Stands span nodes) l.items us) := by
  obtain ⟨us, hus, hp, hc⟩ := listing_sound hi h
  obtain ⟨vs, hvs, hrow⟩ := listing_row hn h
  obtain rfl : us = vs := List.append_cancel_right (hus.symm.trans hvs)
  exact ⟨us, hus, hp, fun ho => ⟨hc ho, hrow ho⟩⟩

theorem seats_settings {ts rest : Tokens} {l : Listing Setting}
    (h : listing setting ts = .ok (l, rest)) : ∃ us, ts = us ++ rest ∧
      (Ordered us → Covers l.span us ∧ Seats (Action.set l).nodes us) := by
  obtain ⟨us, hus, hp, hl⟩ := listing_stands setting_reads seats_setting h
  refine ⟨us, hus, fun ho => ?_⟩
  obtain ⟨hc, hrow⟩ := hl ho
  have hchildren : Row (fun c : Node => Covers c.span) (Node.settings l).children us :=
    (hrow.imp fun _ _ _ hs => hs.1).map Node.setting
  exact ⟨hc, .cons ⟨hc, hchildren, hp⟩ hrow.seats⟩

theorem seats_keys {ts rest : Tokens} {l : Listing Literal}
    (h : listing literal ts = .ok (l, rest)) : ∃ us, ts = us ++ rest ∧
      (Ordered us → Covers l.span us ∧ Seats (Action.reset l).nodes us) := by
  obtain ⟨us, hus, hp, hl⟩ := listing_stands literal_reads seats_literal h
  refine ⟨us, hus, fun ho => ?_⟩
  obtain ⟨hc, hrow⟩ := hl ho
  have hchildren : Row (fun c : Node => Covers c.span) (Node.keys l).children us :=
    (hrow.imp fun _ _ _ hs => hs.1).map Node.literal
  have hitems := hrow.seats
  rw [← List.map_eq_flatMap] at hitems
  exact ⟨hc, .cons ⟨hc, hchildren, hp⟩ hitems⟩

theorem seats_action {ts rest : Tokens} {a : Action} {sp : Span}
    (h : action ts = .ok ((a, sp), rest)) : ∃ us vs, ts = us ++ vs ++ rest ∧
      (Ordered vs → Covers a.operand.span vs ∧ Seats a.nodes vs) := by
  cases ts with
  | nil => cases h
  | cons t ts =>
    simp only [action] at h
    split at h
    · obtain ⟨⟨l, rest'⟩, hl, h⟩ := bind_eq_ok.1 h
      cases h
      obtain ⟨us, rfl, hs⟩ := seats_settings hl
      exact ⟨[t], us, rfl, hs⟩
    · obtain ⟨⟨l, rest'⟩, hl, h⟩ := bind_eq_ok.1 h
      cases h
      obtain ⟨us, rfl, hs⟩ := seats_keys hl
      exact ⟨[t], us, rfl, hs⟩
    · obtain ⟨⟨second, ts'⟩, he, h⟩ := bind_eq_ok.1 h
      obtain ⟨⟨n, rest'⟩, hn, h⟩ := bind_eq_ok.1 h
      cases h
      obtain ⟨u, rfl, -, -⟩ := expect_eq_ok.1 he
      obtain ⟨us, rfl, hs⟩ := seats_name hn
      exact ⟨[t, u], us, rfl, fun ho => ⟨(hs ho).covers, .cons (hs ho) (seats_nil us)⟩⟩
    · split at h
      · next l rest' hl =>
        cases h
        obtain ⟨us, rfl, hs⟩ := seats_literal hl
        exact ⟨[t], us, rfl, hs⟩
      · cases h
    · cases h

/-- Every node of a statement that is read stands on its tokens. -/
theorem seats_statement {ts rest : Tokens} {s : Statement} (h : statement ts = .ok (s, rest)) :
    ∃ us, ts = us ++ rest ∧ StatementOf (us.map Placed.token) s.bare ∧
      (Ordered us → Covers s.span us ∧ Seats s.nodes us) := by
  obtain ⟨us, hus, hp, hc⟩ := statement_sound h
  refine ⟨us, hus, hp, fun ho => ?_⟩
  have hcov := hc ho
  obtain ⟨⟨first, ts₁⟩, hf, h⟩ := bind_eq_ok.1 h
  obtain ⟨⟨second, ts₂⟩, hs, h⟩ := bind_eq_ok.1 h
  obtain ⟨⟨n, ts₃⟩, hn, h⟩ := bind_eq_ok.1 h
  obtain ⟨⟨⟨a, last⟩, ts₄⟩, ha, h⟩ := bind_eq_ok.1 h
  cases h
  obtain ⟨f, rfl, -, -⟩ := expect_eq_ok.1 hf
  obtain ⟨c, rfl, -, -⟩ := expect_eq_ok.1 hs
  obtain ⟨vs, rfl, hname⟩ := seats_name hn
  obtain ⟨ws, xs, rfl, haction⟩ := seats_action ha
  obtain rfl : [f, c] ++ (vs ++ (ws ++ (xs ++ []))) = us := by
    have hus' : [f, c] ++ (vs ++ (ws ++ (xs ++ []))) ++ rest = us ++ rest := by simp [← hus]
    exact List.append_cancel_right hus'
  have hrest := ho.of_append.2
  have hname := hname hrest.of_append.1
  obtain ⟨hoperand, hnodes⟩ := haction hrest.of_append.2.of_append.2.of_append.1
  have hrow : Row (fun c : Node => Covers c.span) [.name n, a.operand]
      ([f, c] ++ (vs ++ (ws ++ (xs ++ [])))) := .cons hname.covers (.cons hoperand .nil)
  rw [Statement.nodes_eq]
  refine ⟨hcov, .cons ⟨hcov, hrow, hp⟩ (List.forall_mem_cons.2 ⟨⟨vs, ?_, hname⟩, hnodes.mono ?_⟩)⟩
  · exact ⟨[f, c], ws ++ (xs ++ []), by simp⟩
  · exact ⟨[f, c] ++ vs ++ ws, [], by simp⟩

/-- The statements of a script stand in a row. -/
theorem script_row (ts : Tokens) : Row (fun s us => StatementOf (us.map Placed.token) s.bare ∧
    (Ordered us → Covers s.span us ∧ Seats s.nodes us)) (script ts).1 ts := by
  fun_induction script ts with
  | case1 => exact .nil
  | case2 => exact .nil
  | case3 ts _ s rest hs _ _ ih =>
    obtain ⟨us, hus, hp⟩ := seats_statement hs
    have hts : ts = ts.takeWhile isSemicolon ++ (us ++ rest) := by
      rw [← hus, List.takeWhile_append_dropWhile]
    rw [hts]
    exact .cons hp ih
  | case4 => exact .nil

end Parser

end AlterCatalog
