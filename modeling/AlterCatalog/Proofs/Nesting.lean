import AlterCatalog.Proofs.Room
import Mathlib.Algebra.Ring.Nat
import Mathlib.Data.List.Chain
import Mathlib.Data.List.Flatten
import Mathlib.Data.String.Basic

/-!
# Lists inside of lists

The writer spaces tokens by what it remembers: a pending space, the open lists, whether the
innermost of them has an item. Over whole lists that comes to a plain rule, however deep they nest:
on one line the items of a list are parted by a comma and a space, and over several lines each item
stands on a line of its own, indented by its depth, with a comma right after the one before it. The
layout ends no line with a space.

The writer counts the indentation in 64 bits. It loses nothing by that: a text in which a line fits
has all the bits for the next level.
-/

namespace AlterCatalog

/-- Lists of lists, down to texts. -/
inductive Nested where
  | leaf (text : String)
  | list (items : List Nested)

/-- A part of a text: a character that the layout puts in, or a leaf as it stands. -/
inductive Stroke where
  | mark (c : Char)
  | leaf (text : String)
deriving DecidableEq

namespace Stroke

def chars : Stroke → List Char
  | mark c => [c]
  | leaf text => text.toList

/-- The text of strokes. -/
def join (ss : List Stroke) : String := String.ofList (ss.flatMap chars)

def marks (text : String) : List Stroke := text.toList.map mark

/-- A line break and so many spaces. -/
def newLine (width : Nat) : List Stroke := marks ("\n" ++ spaces width)

section
variable (l : Layout) (indent : Nat → Nat) (depth : Nat)

/-- A list at a depth, of items that are laid out already. -/
def listed (items : List (List Stroke)) : List Stroke :=
  if l.pretty then
    marks "(" ++ (marks ",").intercalate (items.map (newLine (indent (depth + 1)) ++ ·)) ++
      newLine (indent depth) ++ marks ")"
  else marks "(" ++ (marks ", ").intercalate items ++ marks ")"

end

end Stroke

/-- The spaces of so many levels. -/
def Layout.levels (l : Layout) (depth : Nat) : Nat := depth * l.indentWidth.toNat

namespace Nested

open Stroke

def leaves : Nested → List String
  | leaf text => [text]
  | list items => items.flatMap leaves

/-- What is to be written between the items of all the lists. -/
def separators : Nested → Nat
  | leaf _ => 0
  | list items => items.length - 1 + (items.map separators).sum

def strokes (l : Layout) (indent : Nat → Nat) (depth : Nat) : Nested → List Stroke
  | leaf text => [.leaf text]
  | list items => listed l indent depth (items.map (strokes l indent (depth + 1)))

/-- Whether there is a list at all. -/
def listed : Nested → Bool
  | leaf _ => false
  | list _ => true

/-- Writes a leaf as a literal, and a list with a break before each item and a line break at its
end. -/
def write {σ : Type} [Sink σ] : Nested → σ → σ
  | leaf text, w => Sink.literal text w
  | list items, w => Sink.withList "(" ")"
      (fun w => Sink.lineBreak (items.foldl (fun w t => t.write (Sink.itemBreak w)) w)) w

end Nested

/-! ## The text of a list -/

namespace Stroke

@[simp] theorem flatMap_chars_marks (text : String) : (marks text).flatMap chars = text.toList := by
  unfold marks
  rw [List.flatMap_map]
  exact List.flatMap_singleton' _

theorem intercalate_cons {α : Type} (sep x : List α) (xs : List (List α)) :
    sep.intercalate (x :: xs) = x ++ xs.flatMap (sep ++ ·) := by
  induction xs generalizing x with
  | nil => simp
  | cons y ys ih =>
    rw [List.intercalate_cons_cons, ih, List.flatMap_cons, List.append_assoc, List.append_assoc]

/-- Strokes as one piece. -/
def piece (ss : List Stroke) : Piece := ⟨ss.flatMap chars, none⟩

theorem chars_listed (l : Layout) (depth : Nat) (items : List (List Stroke)) :
    (listed l l.indent depth items).flatMap chars =
      (Spelling.listing l depth (items.map fun ss => [piece ss])).flatMap Piece.text := by
  unfold listed Spelling.listing Spelling.closing newLine
  cases items with
  | nil =>
    cases l.pretty <;>
      simp [Spelling.items, Spelling.lineStart, Spelling.symbol, Symbol.char, spaces]
  | cons i is =>
    cases hp : l.pretty <;>
      simp [hp, Spelling.items, Spelling.opening, Spelling.between, Spelling.lineStart,
        Spelling.symbol, Spelling.space, Symbol.char, spaces, intercalate_cons, piece,
        List.flatMap_map, List.flatMap_assoc]

/-- A list stands between its parentheses. -/
theorem exists_listed_eq (l : Layout) (indent : Nat → Nat) (depth : Nat)
    (items : List (List Stroke)) :
    ∃ ss, listed l indent depth items = .mark '(' :: (ss ++ [.mark ')']) := by
  unfold listed
  split
  · exact ⟨(marks ",").intercalate (items.map (newLine (indent (depth + 1)) ++ ·)) ++
      newLine (indent depth), rfl⟩
  · exact ⟨(marks ", ").intercalate items, rfl⟩

theorem put_piece (ss : List Stroke) (w : Writer) : w.put [piece ss] = w.token (join ss) :=
  Writer.put_piece _ w

/-! ## Separators -/

@[simp] theorem count_newLine (width : Nat) : (newLine width).count (.mark ',') = 0 := by
  simp [newLine, marks, spaces, List.count_eq_zero]

theorem count_intercalate {α : Type} [BEq α] (c : α) (sep x : List α) (xs : List (List α)) :
    (sep.intercalate (x :: xs)).count c =
      xs.length * sep.count c + ((x :: xs).map (List.count c)).sum := by
  induction xs generalizing x with
  | nil => simp
  | cons y ys ih =>
    simp only [List.intercalate_cons_cons, List.count_append, ih, List.map_cons, List.sum_cons,
      List.length_cons, Nat.succ_mul]
    omega

theorem count_listed (l : Layout) (indent : Nat → Nat) (depth : Nat) (items : List (List Stroke)) :
    (listed l indent depth items).count (.mark ',') =
      items.length - 1 + (items.map (List.count (.mark ','))).sum := by
  have ho : (marks "(").count (.mark ',') = 0 := rfl
  have hc : (marks ")").count (.mark ',') = 0 := rfl
  have hp : (marks ",").count (.mark ',') = 1 := rfl
  have hs : (marks ", ").count (.mark ',') = 1 := rfl
  unfold listed
  cases items with
  | nil => cases l.pretty <;> simp [ho, hc]
  | cons i is =>
    cases l.pretty with
    | true => simp [ho, hc, hp, count_intercalate, Function.comp_def]
    | false => simp [ho, hc, hs, count_intercalate]

end Stroke

namespace Nested

open Stroke

theorem count_strokes (t : Nested) (l : Layout) (indent : Nat → Nat) (depth : Nat) :
    (t.strokes l indent depth).count (.mark ',') = t.separators := by
  induction t using leaves.induct generalizing depth with
  | case1 text => simp [strokes, separators]
  | case2 items ih =>
    unfold strokes separators
    rw [count_listed, List.length_map, List.map_map]
    congr 2
    exact List.map_congr_left fun t ht => ih t ht (depth + 1)

/-! ## Writing -/

/-- A text that does not end in white space. -/
def Dark (text : String) : Prop := ∃ r c, text.toList = r ++ [c] ∧ isBlank c = false

theorem dark_items {items : List Nested} (h : ∀ text ∈ (list items).leaves, Dark text) {t : Nested}
    (ht : t ∈ items) : ∀ text ∈ t.leaves, Dark text := by
  intro text hx
  apply h
  unfold leaves
  exact List.mem_flatMap.2 ⟨t, ht, hx⟩

theorem solid_strokes {t : Nested} (h : ∀ text ∈ t.leaves, Dark text) (l : Layout) (depth : Nat) :
    Writer.Solid [piece (t.strokes l l.indent depth)] := by
  cases t with
  | leaf text =>
    obtain ⟨r, c, ht, hc⟩ := h text (by simp [leaves])
    exact ⟨r, c, by simp [strokes, piece, chars, ht], hc⟩
  | list items =>
    obtain ⟨ss, hs⟩ := exists_listed_eq l l.indent depth
      (items.map (strokes l l.indent (depth + 1)))
    exact ⟨'(' :: ss.flatMap chars, ')', by simp [strokes, piece, chars, hs], rfl⟩

theorem leaf_write {σ : Type} [Sink σ] (text : String) :
    ((leaf text).write : σ → σ) = Sink.literal text := by
  funext w
  unfold write
  rfl

theorem list_write {σ : Type} [Sink σ] (items : List Nested) (w : σ) :
    (list items).write w = (⟨items, {}⟩ : Listing Nested).write write w := by
  unfold write
  rfl

/-- A tree is written as one token that is its strokes. -/
theorem write_eq {t : Nested} (h : ∀ text ∈ t.leaves, Dark text) (w : Writer) :
    t.write w = w.token (join (t.strokes w.layout w.layout.indent w.lists.length)) := by
  induction t using leaves.induct generalizing w with
  | case1 text =>
    have ht : join [.leaf text] = text := by simp [join, chars]
    unfold write strokes
    rw [ht]
    rfl
  | case2 items ih =>
    have hi : ∀ t ∈ items,
        Writer.WritesAs write (fun l depth t => [piece (t.strokes l l.indent depth)]) t := by
      intro t ht v
      rw [ih t ht (dark_items h ht) v, put_piece]
    have hs : ∀ t ∈ items,
        Writer.Solid [piece (t.strokes w.layout w.layout.indent (w.lists.length + 1))] :=
      fun t ht => solid_strokes (dark_items h ht) _ _
    rw [list_write, Writer.listing_write _ w hi hs, Writer.put, Piece.join, strokes, join, chars_listed,
      List.map_map]
    rfl

end Nested

/-! ## Ends of lines -/

namespace Stroke

/-- No space of the layout stands right before a line break of the layout. -/
def Unspaced (a b : Stroke) : Prop := a = .mark ' ' → b ≠ .mark '\n'

/-- No line ends with a space of the layout, the last one included. -/
def Tidy (ss : List Stroke) : Prop := (ss ++ [mark '\n']).IsChain Unspaced

theorem tidy_nil : Tidy [] := List.isChain_singleton _

theorem tidy_append {ss ts : List Stroke} (hs : Tidy ss) (ht : Tidy ts) : Tidy (ss ++ ts) := by
  unfold Tidy at *
  obtain ⟨hc, -, hl⟩ := List.isChain_append.1 hs
  rw [List.append_assoc, List.isChain_append]
  refine ⟨hc, ht, fun a ha b _ hm => ?_⟩
  exact absurd rfl (hl a ha _ rfl hm)

theorem tidy_flatMap {α : Type} {f : α → List Stroke} {as : List α} (h : ∀ a ∈ as, Tidy (f a)) :
    Tidy (as.flatMap f) := by
  induction as with
  | nil => exact tidy_nil
  | cons a as ih =>
    obtain ⟨ha, has⟩ := List.forall_mem_cons.1 h
    exact tidy_append ha (ih has)

theorem isChain_newLine (width : Nat) : (newLine width).IsChain Unspaced := by
  have hs : marks (spaces width) = List.replicate width (mark ' ') := by
    simp [marks, spaces]
  have hn : newLine width = mark '\n' :: marks (spaces width) := by
    simp [newLine, marks]
  rw [hn, hs, List.isChain_cons]
  refine ⟨fun b _ hb => (by cases hb), List.isChain_replicate_of_rel _ ?_⟩
  intro _ hb
  cases hb

/-- Strokes that go on a line: they are tidy and do not begin with a line break. -/
def Continues (ss : List Stroke) : Prop := Tidy ss ∧ ∃ a r, ss = a :: r ∧ a ≠ .mark '\n'

theorem Continues.gap {ss gap : List Stroke} (h : Continues ss) (hg : gap.IsChain Unspaced) :
    Tidy (gap ++ ss) := by
  obtain ⟨hs, a, r, rfl, ha⟩ := h
  unfold Tidy at *
  rw [List.append_assoc, List.isChain_append]
  -- The gap may end with spaces, as something follows it on the same line.
  refine ⟨hg, hs, fun b _ c hc _ => ?_⟩
  cases hc
  exact ha

theorem tidy_intercalate {sep : List Stroke} : ∀ {items : List (List Stroke)},
    (∀ i ∈ items, Tidy i) → (∀ i ∈ items, Tidy (sep ++ i)) → Tidy (sep.intercalate items)
  | [], _, _ => tidy_nil
  | i :: is, h, hs => by
    rw [intercalate_cons]
    exact tidy_append (h i (by simp)) (tidy_flatMap fun j hj => hs j (by simp [hj]))

theorem continues_listed (l : Layout) (indent : Nat → Nat) (depth : Nat)
    {items : List (List Stroke)} (h : ∀ i ∈ items, Continues i) :
    Continues (listed l indent depth items) := by
  have ho : Tidy (marks "(") := by simp [Tidy, marks, Unspaced]
  have hp : Tidy (marks ",") := by simp [Tidy, marks, Unspaced]
  have hs : (marks ", ").IsChain Unspaced := by simp [marks, Unspaced]
  have hc : Continues (marks ")") := ⟨by simp [Tidy, marks, Unspaced], mark ')', [], rfl, by simp⟩
  have ht : Tidy (listed l indent depth items) := by
    unfold listed
    split
    · have hl : ∀ i ∈ items.map (newLine (indent (depth + 1)) ++ ·), Tidy i :=
        List.forall_mem_map.2 fun i hi => (h i hi).gap (isChain_newLine _)
      have hi := tidy_intercalate hl fun i hi => tidy_append hp (hl i hi)
      rw [List.append_assoc]
      exact tidy_append (tidy_append ho hi) (hc.gap (isChain_newLine _))
    · have hi := tidy_intercalate (fun i hi => (h i hi).1) fun i hi => (h i hi).gap hs
      exact tidy_append (tidy_append ho hi) hc.1
  obtain ⟨ss, hl⟩ := exists_listed_eq l indent depth items
  exact ⟨ht, _, _, hl, by simp⟩

end Stroke

namespace Nested

open Stroke

theorem continues_strokes (t : Nested) (l : Layout) (indent : Nat → Nat) (depth : Nat) :
    Continues (t.strokes l indent depth) := by
  induction t using leaves.induct generalizing depth with
  | case1 text =>
    unfold strokes
    exact ⟨by simp [Tidy, Unspaced], _, _, rfl, by simp⟩
  | case2 items ih =>
    unfold strokes
    exact continues_listed l indent depth (List.forall_mem_map.2 fun t ht => ih t ht (depth + 1))

end Nested

/-! ## Sizes -/

/-- An indentation that is right as long as it is counted in 64 bits. -/
def Layout.Indents (l : Layout) (indent : Nat → Nat) : Prop :=
  ∀ depth, depth * l.indentWidth.toNat < UInt64.size → indent depth = l.levels depth

theorem Layout.indents_indent (l : Layout) : l.Indents l.indent := fun _ h => l.indent_eq h

theorem Layout.indents_levels (l : Layout) : l.Indents l.levels := fun _ _ => rfl

namespace Stroke

theorem size_le_of_sublist {ss ts : List Stroke} (h : ss.Sublist ts) :
    (join ss).utf8ByteSize ≤ (join ts).utf8ByteSize := by
  rw [join, join, String.utf8ByteSize_ofList, String.utf8ByteSize_ofList]
  exact String.utf8Len_le_of_sublist (h.flatMap chars)

theorem size_newLine (width : Nat) : (join (newLine width)).utf8ByteSize = 1 + width := by
  rw [join, newLine, flatMap_chars_marks, String.ofList_toList, String.utf8ByteSize_append,
    utf8ByteSize_spaces]
  rfl

theorem sublist_intercalate {α : Type} {sep x : List α} : ∀ {xs : List (List α)}, x ∈ xs →
    x.Sublist (sep.intercalate xs)
  | y :: ys, h => by
    rw [intercalate_cons]
    rcases List.mem_cons.1 h with rfl | hx
    · exact List.sublist_append_left _ _
    · have hm : (sep ++ x).Sublist (ys.flatMap (sep ++ ·)) :=
        List.sublist_flatten_of_mem (List.mem_map_of_mem hx)
      exact ((List.sublist_append_right sep x).trans hm).trans (List.sublist_append_right _ _)

section
variable {l : Layout} (indent : Nat → Nat) (depth : Nat) {items : List (List Stroke)}
  {i : List Stroke} (hi : i ∈ items)
include hi

theorem line_sublist_listed (hp : l.pretty = true) :
    (newLine (indent (depth + 1)) ++ i).Sublist (listed l indent depth items) := by
  have hm := List.mem_map_of_mem (f := (newLine (indent (depth + 1)) ++ ·)) hi
  rw [listed, if_pos hp, List.append_assoc, List.append_assoc]
  exact ((sublist_intercalate hm).trans (List.sublist_append_left _ _)).trans
    (List.sublist_append_right _ _)

theorem item_sublist_listed : i.Sublist (listed l indent depth items) := by
  cases hp : l.pretty with
  | true => exact (List.sublist_append_right _ i).trans (line_sublist_listed indent depth hi hp)
  | false =>
    rw [listed, hp, if_neg Bool.false_ne_true, List.append_assoc]
    exact ((sublist_intercalate hi).trans (List.sublist_append_left _ _)).trans
      (List.sublist_append_right _ _)

end

theorem listed_congr {l : Layout} {f g : Nat → Nat} (hf : l.Indents f) (hg : l.Indents g)
    {depth : Nat} (hc : l.Counts (depth + 1)) (items : List (List Stroke)) :
    listed l f depth items = listed l g depth items := by
  cases hp : l.pretty with
  | true =>
    have hless := Nat.mul_le_mul_right l.indentWidth.toNat (Nat.le_succ depth)
    have hat := Nat.lt_of_le_of_lt hless (hc hp)
    rw [listed, listed, hf _ (hc hp), hg _ (hc hp), hf _ hat, hg _ hat]
  | false => simp [listed, hp]

/-- Where an item of a list fits, one more level can be counted. -/
theorem counts_of_fits {l : Layout} {f : Nat → Nat} (hf : l.Indents f) {depth : Nat}
    (hc : l.Counts (depth + 1)) {items : List (List Stroke)}
    (hfits : (join (listed l f depth items)).utf8ByteSize ≤ Page.limit) (hne : items ≠ []) :
    l.Counts (depth + 2) := by
  intro hp
  obtain ⟨i, hi⟩ := List.exists_mem_of_ne_nil _ hne
  have hline := (List.sublist_append_left _ i).trans (line_sublist_listed f depth hi hp)
  have hsize := Nat.le_trans (size_le_of_sublist hline) hfits
  rw [size_newLine, hf _ (hc hp), Layout.levels, Nat.succ_mul] at hsize
  rw [Nat.succ_mul, Nat.succ_mul]
  show _ < 2 ^ 64
  unfold Page.limit at hsize
  omega

end Stroke

namespace Nested

open Stroke

/-- A text that fits does not depend on how many bits an indentation has. -/
theorem strokes_congr {l : Layout} {f g : Nat → Nat} (hf : l.Indents f) (hg : l.Indents g)
    {t : Nested} {depth : Nat} (hc : l.Counts (depth + 1))
    (hfits : (join (t.strokes l f depth)).utf8ByteSize ≤ Page.limit) :
    t.strokes l f depth = t.strokes l g depth := by
  induction t using leaves.induct generalizing depth with
  | case1 text =>
    unfold strokes
    rfl
  | case2 items ih =>
    unfold strokes at hfits ⊢
    have hitems : items.map (strokes l f (depth + 1)) = items.map (strokes l g (depth + 1)) := by
      apply List.map_congr_left
      intro t ht
      have hm := List.mem_map_of_mem (f := strokes l f (depth + 1)) ht
      have hsize := size_le_of_sublist (item_sublist_listed (l := l) f depth hm)
      exact ih t ht (counts_of_fits hf hc hfits (List.ne_nil_of_mem hm))
        (Nat.le_trans hsize hfits)
    rw [hitems, listed_congr hf hg hc]

/-- The two ways to count the widths agree as soon as one of the two texts has room. -/
theorem join_strokes_indent {t : Nested} {l : Layout}
    (h : l.room t.listed (join (t.strokes l l.indent 0)) ≤ Page.limit ∨
      l.room t.listed (join (t.strokes l l.levels 0)) ≤ Page.limit) :
    join (t.strokes l l.indent 0) = join (t.strokes l l.levels 0) := by
  rcases h with hr | hr
  · have hfits := Nat.le_trans (l.le_room _ _) hr
    rw [strokes_congr l.indents_indent l.indents_levels l.counts_one hfits]
  · have hfits := Nat.le_trans (l.le_room _ _) hr
    rw [strokes_congr l.indents_levels l.indents_indent l.counts_one hfits]

/-! ## Nested lists on a page -/

theorem writesAs {t : Nested} (h : ∀ text ∈ t.leaves, Dark text) :
    Writer.WritesAs write (fun l depth t => [piece (t.strokes l l.indent depth)]) t := by
  intro w
  rw [write_eq h, put_piece]

/-- A list takes up its text, or its text without the end and with one level more, if no item takes
up more. -/
theorem becomes_list {items : List Nested} (h : ∀ text ∈ (list items).leaves, Dark text)
    (hi : ∀ t ∈ items, Page.Item t.write t.write) {p : Page} (hp : p.full = false)
    (hc : p.writer.layout.Counts (p.writer.lists.length + 1)) :
    p.Becomes ((list items).write p) ((list items).write p.writer)
      (p.writer.layout.room true ((list items).write p.writer).text) := by
  rw [list_write, list_write]
  exact Page.becomes_listing _ hi (fun t ht => writesAs (dark_items h ht)) hp
    (fun t ht => solid_strokes (dark_items h ht) _ _) hc

theorem plain_leaf (text : String) : Page.Plain (leaf text).write (leaf text).write := by
  rw [leaf_write, leaf_write]
  exact Page.plain_add fun w => w.extends_token text

theorem item_write {t : Nested} (h : ∀ text ∈ t.leaves, Dark text) : Page.Item t.write t.write := by
  induction t using leaves.induct with
  | case1 text => exact (plain_leaf text).item fun w => ⟨_, write_eq h w⟩
  | case2 items ih =>
    have hi : ∀ t ∈ items, Page.Item t.write t.write := fun t ht => ih t ht (dark_items h ht)
    refine ⟨?_, fun w => ⟨_, write_eq h w⟩, fun p hp hc => ?_⟩
    · intro p hp
      rw [list_write]
      exact Page.halts_listing hi p hp
    · exact ⟨_, Layout.room_le _ _ _, becomes_list h hi hp hc⟩

theorem becomes_write {t : Nested} (h : ∀ text ∈ t.leaves, Dark text) {p : Page}
    (hp : p.full = false) (hc : p.writer.layout.Counts (p.writer.lists.length + 1)) :
    p.Becomes (t.write p) (t.write p.writer)
      (p.writer.layout.room t.listed (t.write p.writer).text) := by
  cases t with
  | leaf text => exact (plain_leaf text).becomes p hp
  | list items => exact becomes_list h (fun t ht => item_write (dark_items h ht)) hp hc

end Nested

end AlterCatalog
