import AlterCatalog.Proofs.Lossless
import Mathlib.Order.Bounds.Basic

/-!
# Merging spans

Spans are ordered by what they cover, lines and columns aside, and two spans merge into a least one
over both. Of several locations with one offset the first stays, so a fold ends with the first of
the locations that lie furthest out. Two locations of one text have one offset only if they are the
same location. So the order is antisymmetric on the spans of a text, and there a merged span is
known from its upper bounds, which depend on what was merged and not on how.
-/

namespace AlterCatalog

namespace Span

variable {a b c : Span}

/-- A span is at most another one that covers it; lines and columns do not count. -/
instance : Preorder Span where
  le a b := b.start.offset ≤ a.start.offset ∧ a.finish.offset ≤ b.finish.offset
  le_refl _ := ⟨Nat.le_refl _, Nat.le_refl _⟩
  le_trans _ _ _ hab hbc := ⟨hbc.1.trans hab.1, hab.2.trans hbc.2⟩

theorem le_iff : a ≤ b ↔
    b.start.offset ≤ a.start.offset ∧ a.finish.offset ≤ b.finish.offset := Iff.rfl

theorem merge_le_iff : a.merge b ≤ c ↔ a ≤ c ∧ b ≤ c := by
  simp only [le_iff, merge]
  grind

theorem isLUB_merge (a b : Span) : IsLUB {a, b} (a.merge b) := by
  refine isLUB_iff_le_iff.2 fun c => ?_
  rw [merge_le_iff, mem_upperBounds]
  simp

theorem merge_self (a : Span) : a.merge a = a := by
  simp [merge]

theorem merge_assoc (a b c : Span) : (a.merge b).merge c = a.merge (b.merge c) := by
  simp only [merge, mk.injEq]
  grind

/-! ## Merging in a row -/

theorem foldl_merge_le_iff (as : List Span) :
    as.foldl merge a ≤ c ↔ ∀ s ∈ a :: as, s ≤ c := by
  induction as generalizing a with
  | nil => simp
  | cons b as ih =>
    rw [List.foldl_cons, ih]
    simp only [List.forall_mem_cons, merge_le_iff, and_assoc]

end Span

/-- A location is the first of a list to which no other one is preferred. -/
def Location.FirstBest (better : Location → Location → Prop) (ls : List Location)
    (l : Location) : Prop :=
  ∃ before after, ls = before ++ l :: after ∧ (∀ m ∈ before, better l m) ∧
    ∀ m ∈ after, ¬better m l

section
variable {better : Location → Location → Prop} [DecidableRel better]
  (asymm : ∀ l m, better l m → ¬better m l)
  (through : ∀ l m n, better l m → ¬better n m → better l n)

include asymm through in
/-- The first best location stays so when another one is put behind and taken only if it is
better. -/
theorem Location.FirstBest.concat {ls : List Location} {l : Location} (h : FirstBest better ls l)
    (m : Location) : FirstBest better (ls ++ [m]) (if better m l then m else l) := by
  obtain ⟨before, after, rfl, hb, ha⟩ := h
  by_cases hm : better m l
  · rw [if_pos hm]
    refine ⟨before ++ l :: after, [], rfl, fun n hn => ?_, List.forall_mem_nil _⟩
    rcases List.mem_append.1 hn with hn | hn
    · exact through m l n hm (asymm l n (hb n hn))
    · rcases List.mem_cons.1 hn with rfl | hn
      · exact hm
      · exact through m l n hm (ha n hn)
  · rw [if_neg hm]
    refine ⟨before, after ++ [m], by simp, hb, fun n hn => ?_⟩
    rcases List.mem_append.1 hn with hn | hn
    · exact ha n hn
    · rwa [List.mem_singleton.1 hn]

include asymm through in
theorem Span.firstBest_foldl {side : Span → Location}
    (hside : ∀ a b : Span, side (a.merge b) = if better (side b) (side a) then side b else side a)
    (a : Span) (as : List Span) :
    Location.FirstBest better ((a :: as).map side) (side (as.foldl merge a)) := by
  induction as using List.reverseRecOn with
  | nil => exact ⟨[], [], rfl, List.forall_mem_nil _, List.forall_mem_nil _⟩
  | append_singleton as b ih =>
    rw [List.foldl_append, List.foldl_cons, List.foldl_nil, hside, ← List.cons_append,
      List.map_append]
    exact Location.FirstBest.concat asymm through ih (side b)

end

theorem Span.firstBest_start (a : Span) (as : List Span) :
    Location.FirstBest (fun l m => l.offset < m.offset) ((a :: as).map start)
      (as.foldl merge a).start :=
  firstBest_foldl (by omega) (by omega) (fun _ _ => rfl) a as

theorem Span.firstBest_finish (a : Span) (as : List Span) :
    Location.FirstBest (fun l m => m.offset < l.offset) ((a :: as).map finish)
      (as.foldl merge a).finish :=
  firstBest_foldl (by omega) (by omega) (fun _ _ => rfl) a as

/-! ## Merging in any grouping -/

/-- Spans to be merged two at a time. -/
inductive Grouping where
  | single (s : Span)
  | pair (left right : Grouping)

namespace Grouping

def spans : Grouping → List Span
  | single s => [s]
  | pair left right => left.spans ++ right.spans

def merged : Grouping → Span
  | single s => s
  | pair left right => left.merged.merge right.merged

theorem merged_le_iff {c : Span} (g : Grouping) : g.merged ≤ c ↔ ∀ s ∈ g.spans, s ≤ c := by
  induction g with
  | single s => simp [merged, spans]
  | pair left right hl hr =>
    rw [merged, spans, Span.merge_le_iff, hl, hr, List.forall_mem_append]

end Grouping

/-! ## Spans of one text -/

theorem Location.IsIn.eq {input : String} {l m : Location} (hl : l.IsIn input) (hm : m.IsIn input)
    (h : l.offset = m.offset) : l = m := by
  have hb : l.before input = m.before input := by
    simp only [before, Span.slice, h]
  have hline : l.line = m.line := by rw [hl.line, hm.line, hb]
  have hcolumn : l.column = m.column := by rw [hl.column, hm.column, hb]
  cases l
  cases m
  cases hline
  cases hcolumn
  cases h
  rfl

/-- The locations where tokens start and end. -/
def tokenBounds (ts : List Placed) : List Location :=
  ts.flatMap fun t => [t.span.start, t.span.finish]

/-- A span from where some token starts or ends to where some token does. -/
structure Span.Among (s : Span) (ts : List Placed) : Prop where
  start : s.start ∈ tokenBounds ts
  finish : s.finish ∈ tokenBounds ts

instance (s : Span) (ts : List Placed) : Decidable (s.Among ts) :=
  decidable_of_iff (s.start ∈ tokenBounds ts ∧ s.finish ∈ tokenBounds ts)
    ⟨fun h => ⟨h.1, h.2⟩, fun h => ⟨h.start, h.finish⟩⟩

namespace Span.Among

variable {ts : List Placed} {a b c : Span}

theorem merge (ha : a.Among ts) (hb : b.Among ts) : (a.merge b).Among ts := by
  constructor
  · simp only [Span.merge]
    split
    · exact hb.start
    · exact ha.start
  · simp only [Span.merge]
    split
    · exact hb.finish
    · exact ha.finish

theorem foldl : ∀ {as : List Span} {a : Span}, (∀ s ∈ a :: as, s.Among ts) →
    (as.foldl Span.merge a).Among ts
  | [], a, h => h a (List.mem_cons_self ..)
  | b :: as, a, h => by
    obtain ⟨ha, h⟩ := List.forall_mem_cons.1 h
    obtain ⟨hb, has⟩ := List.forall_mem_cons.1 h
    have hmerge : ∀ s ∈ a.merge b :: as, s.Among ts := List.forall_mem_cons.2 ⟨ha.merge hb, has⟩
    rw [List.foldl_cons]
    exact foldl hmerge

theorem merged : ∀ {g : Grouping}, (∀ s ∈ g.spans, s.Among ts) → g.merged.Among ts
  | .single s, h => h s (List.mem_singleton_self s)
  | .pair _ _, h =>
    have ⟨hleft, hright⟩ := List.forall_mem_append.1 h
    merge (merged hleft) (merged hright)

end Span.Among

section
variable {input : String} {ts : List Placed} (h : tokenize input = .ok ts)
include h

theorem isIn_of_mem_tokenBounds {l : Location} (hl : l ∈ tokenBounds ts) : l.IsIn input := by
  obtain ⟨ps, hp, rfl⟩ := tokenize_eq_ok_iff.1 h
  obtain ⟨t, ht, hl⟩ := List.mem_flatMap.1 hl
  obtain ⟨hs, hf⟩ := (Lexer.lossless_place hp).places t ht
  simp only [List.mem_cons, List.not_mem_nil, or_false] at hl
  rcases hl with rfl | rfl
  · exact hs
  · exact hf

theorem eq_of_mem_tokenBounds {l m : Location} (hl : l ∈ tokenBounds ts) (hm : m ∈ tokenBounds ts)
    (ho : l.offset = m.offset) : l = m :=
  (isIn_of_mem_tokenBounds h hl).eq (isIn_of_mem_tokenBounds h hm) ho

namespace Span

variable {a b c : Span}

theorem eq_of_le_of_le (ha : a.Among ts) (hb : b.Among ts) (hab : a ≤ b) (hba : b ≤ a) :
    a = b := by
  have hs := eq_of_mem_tokenBounds h ha.start hb.start (hba.1.antisymm hab.1)
  have hf := eq_of_mem_tokenBounds h ha.finish hb.finish (hab.2.antisymm hba.2)
  exact congrArg₂ mk hs hf

theorem eq_merge_iff (ha : a.Among ts) (hb : b.Among ts) (hc : c.Among ts) :
    c = a.merge b ↔ IsLUB {a, b} c := by
  have hmerge := isLUB_merge a b
  constructor
  · rintro rfl
    exact hmerge
  · intro hlub
    exact eq_of_le_of_le h hc (ha.merge hb) (hlub.2 hmerge.1) (hmerge.2 hlub.1)

theorem merge_comm (ha : a.Among ts) (hb : b.Among ts) : a.merge b = b.merge a := by
  refine ((eq_merge_iff h ha hb (hb.merge ha)).2 ?_).symm
  rw [Set.pair_comm]
  exact isLUB_merge b a

end Span

/-- A grouping and a fold of the same spans have the same upper bounds. -/
theorem Grouping.merged_eq_foldl {a : Span} {as : List Span} {g : Grouping}
    (has : ∀ s ∈ a :: as, s.Among ts) (hg : ∀ s, s ∈ g.spans ↔ s ∈ a :: as) :
    g.merged = as.foldl Span.merge a := by
  have hle : ∀ c : Span, g.merged ≤ c ↔ as.foldl Span.merge a ≤ c := by
    intro c
    rw [g.merged_le_iff, Span.foldl_merge_le_iff]
    exact forall_congr' fun s => by rw [hg]
  have hmerged : g.merged.Among ts := .merged fun s hs => has s ((hg s).1 hs)
  exact Span.eq_of_le_of_le h hmerged (.foldl has) ((hle _).2 le_rfl) ((hle _).1 le_rfl)

end

/-- **Merging is a join.** It is associative and idempotent, and a fold finds the first of the
least starts and the first of the greatest ends. Among spans of one text it is commutative too, and
the merged span is the least one over both; so neither order nor grouping counts. -/
theorem merge_join :
    (∀ a b c : Span, (a.merge b).merge c = a.merge (b.merge c)) ∧
    (∀ a : Span, a.merge a = a) ∧
    (∀ (a : Span) (as : List Span),
      Location.FirstBest (fun l m => l.offset < m.offset) ((a :: as).map Span.start)
        (as.foldl Span.merge a).start ∧
      Location.FirstBest (fun l m => m.offset < l.offset) ((a :: as).map Span.finish)
        (as.foldl Span.merge a).finish) ∧
    ∀ {input : String} {ts : List Placed}, tokenize input = .ok ts →
      (∀ l ∈ tokenBounds ts, ∀ m ∈ tokenBounds ts, l.offset = m.offset → l = m) ∧
      (∀ a b : Span, a.Among ts → b.Among ts → a.merge b = b.merge a ∧ (a.merge b).Among ts ∧
        ∀ c : Span, c.Among ts → (c = a.merge b ↔ IsLUB {a, b} c)) ∧
      ∀ (a : Span) (as : List Span) (g : Grouping), (∀ s ∈ a :: as, s.Among ts) →
        g.spans.Perm (a :: as) → g.merged = as.foldl Span.merge a := by
  refine ⟨Span.merge_assoc, Span.merge_self,
    fun a as => ⟨Span.firstBest_start a as, Span.firstBest_finish a as⟩, fun {input ts} h => ?_⟩
  refine ⟨fun l hl m hm => eq_of_mem_tokenBounds h hl hm, fun a b ha hb => ?_, ?_⟩
  · exact ⟨Span.merge_comm h ha hb, ha.merge hb, fun c hc => Span.eq_merge_iff h ha hb hc⟩
  · intro a as g has hg
    exact Grouping.merged_eq_foldl h has fun s => hg.mem_iff

theorem merge_join_three_lines : ∃ ts a b c, tokenize "a.\nb.\n\x60c\x60" = .ok ts ∧
    (∀ s ∈ [a, b, c], Span.Among s ts) ∧ a.merge c = c.merge a ∧ IsLUB {a, c} (a.merge c) ∧
    (Grouping.pair (.single c) (.pair (.single b) (.single a))).merged =
      [b, c].foldl Span.merge a ∧
    [b, c].foldl Span.merge a = ⟨⟨1, 1, 0⟩, ⟨3, 4, 9⟩⟩ := by
  have h : tokenize "a.\nb.\n\x60c\x60" = .ok
      [⟨.identifier "a", ⟨⟨1, 1, 0⟩, ⟨1, 2, 1⟩⟩⟩, ⟨.symbol .dot, ⟨⟨1, 2, 1⟩, ⟨1, 3, 2⟩⟩⟩,
        ⟨.identifier "b", ⟨⟨2, 1, 3⟩, ⟨2, 2, 4⟩⟩⟩, ⟨.symbol .dot, ⟨⟨2, 2, 4⟩, ⟨2, 3, 5⟩⟩⟩,
        ⟨.quotedIdentifier "c", ⟨⟨3, 1, 6⟩, ⟨3, 4, 9⟩⟩⟩,
        ⟨.endOfInput, ⟨⟨3, 4, 9⟩, ⟨3, 4, 9⟩⟩⟩] := by decide +kernel
  obtain ⟨-, pairs, groupings⟩ := merge_join.2.2.2 h
  refine ⟨_, ⟨⟨1, 1, 0⟩, ⟨1, 2, 1⟩⟩, ⟨⟨2, 1, 3⟩, ⟨2, 2, 4⟩⟩, ⟨⟨3, 1, 6⟩, ⟨3, 4, 9⟩⟩, h,
    by decide, ?_⟩
  obtain ⟨comm, among, least⟩ :=
    pairs ⟨⟨1, 1, 0⟩, ⟨1, 2, 1⟩⟩ ⟨⟨3, 1, 6⟩, ⟨3, 4, 9⟩⟩ (by decide) (by decide)
  exact ⟨comm, (least _ among).1 rfl, groupings _ _ _ (by decide) (by decide), by decide⟩

/-- Two places of one offset cannot both be right, and then the first span decides. -/
example : (⟨⟨1, 1, 0⟩, ⟨1, 2, 1⟩⟩ : Span).merge ⟨⟨2, 7, 0⟩, ⟨1, 2, 1⟩⟩ ≠
    Span.merge ⟨⟨2, 7, 0⟩, ⟨1, 2, 1⟩⟩ ⟨⟨1, 1, 0⟩, ⟨1, 2, 1⟩⟩ := by decide

end AlterCatalog
