import AlterCatalog.Proofs.Frames
import AlterCatalog.Proofs.Writing

/-!
# Room for a text

A page does what its writer does as long as the text of each step fits. Most steps only add to the
text, so a phrase fits if its text does in the end. A list over several lines is the exception: its
last line is indented as deep as its items before the end of the list takes a level off. So the most
that a list takes up is either all of its text or its text without the end and with one level more.
-/

namespace AlterCatalog

/-- By how much the line that ends a list is indented too far at first. -/
def Layout.slack (l : Layout) : Nat := if l.pretty then l.indentWidth.toNat else 0

/-- The bytes that a text takes up while it is written; it may end in the end of a list. -/
def Layout.room (l : Layout) (listed : Bool) (text : String) : Nat :=
  if listed then max text.utf8ByteSize (text.utf8ByteSize - 1 + l.slack) else text.utf8ByteSize

theorem Layout.room_le (l : Layout) (listed : Bool) (text : String) :
    l.room listed text ≤ text.utf8ByteSize + l.slack := by
  unfold room
  split <;> omega

theorem Layout.le_room (l : Layout) (listed : Bool) (text : String) :
    text.utf8ByteSize ≤ l.room listed text := by
  unfold room
  split
  · exact Nat.le_max_left _ _
  · exact Nat.le_refl _

theorem Layout.room_mono (l : Layout) (listed : Bool) {text text' : String}
    (h : text.utf8ByteSize ≤ text'.utf8ByteSize) : l.room listed text ≤ l.room listed text' := by
  unfold room
  split <;> omega

theorem Layout.room_unlisted (l : Layout) (text : String) :
    l.room false text = text.utf8ByteSize := if_neg Bool.false_ne_true

theorem Layout.room_compact {l : Layout} (h : l.pretty = false) (listed : Bool) (text : String) :
    l.room listed text = text.utf8ByteSize := by
  unfold room slack
  split
  · rw [h, if_neg Bool.false_ne_true]
    omega
  · rfl

theorem Extends.size_le {before after : String} (h : Extends before after) :
    before.utf8ByteSize ≤ after.utf8ByteSize := by
  obtain ⟨added, rfl⟩ := h
  rw [String.utf8ByteSize_append]
  exact Nat.le_add_right _ _

theorem utf8ByteSize_spaces (n : Nat) : (spaces n).utf8ByteSize = n := by
  induction n with
  | zero => rfl
  | succ n ih =>
    have hs : spaces (n + 1) = " " ++ spaces n := by
      rw [spaces, List.replicate_succ, spaces, ← List.singleton_append, String.ofList_append]
    rw [hs, String.utf8ByteSize_append, ih, Nat.add_comm]
    rfl

theorem Writer.utf8ByteSize_indentation (w : Writer) (depth : Nat) :
    (w.indentation depth).utf8ByteSize = w.layout.indent depth := utf8ByteSize_spaces _

theorem Writer.lineBreak_compact {w : Writer} (h : w.layout.pretty = false) : w.lineBreak = w := by
  rw [lineBreak, h, if_neg Bool.false_ne_true]

theorem Writer.text_lineBreak {w : Writer} (h : w.layout.pretty = true) :
    w.lineBreak.text = w.text ++ "\n" ++ w.indentation w.lists.length := by
  rw [lineBreak, if_pos h]

/-- A layout in which the spaces of a depth are counted in 64 bits, if it indents at all. -/
def Layout.Counts (l : Layout) (depth : Nat) : Prop :=
  l.pretty = true → depth * l.indentWidth.toNat < UInt64.size

namespace Page

/-! ## Steps -/

/-- What comes of a page where a text of `peak` bytes is on the way to a writer. -/
structure Becomes (p q : Page) (w : Writer) (peak : Nat) : Prop where
  eq : peak ≤ limit → q = { p with writer := w }
  full : limit < peak → q.full = true

/-- On a full page nothing happens. -/
def Halts (f : Page → Page) : Prop := ∀ p : Page, p.full = true → f p = p

section
variable {p q : Page} {w v : Writer} {m n : Nat}

theorem Becomes.full_or_eq (h : Becomes p q w n) :
    q.full = true ∨ q = { p with writer := w } := by
  by_cases hn : n ≤ limit
  · exact .inr (h.eq hn)
  · exact .inl (h.full (Nat.not_le.1 hn))

theorem Becomes.trans {f : Page → Page} (h : Becomes p q w m) (hf : Halts f)
    (next : m ≤ limit → Becomes { p with writer := w } (f { p with writer := w }) v n) :
    Becomes p (f q) v (max m n) := by
  constructor
  · intro hmax
    obtain ⟨hm, hn⟩ := Nat.max_le.1 hmax
    rw [h.eq hm]
    exact (next hm).eq hn
  · intro hmax
    by_cases hm : m ≤ limit
    · rw [h.eq hm]
      exact (next hm).full (by omega)
    · have hq := h.full (Nat.not_le.1 hm)
      rw [hf q hq]
      exact hq

theorem becomes_self (p : Page) : Becomes p p p.writer 0 where
  eq _ := rfl
  full h := absurd h (Nat.not_lt_zero _)

theorem becomes_step (h : p.full = false) (n : Nat) (f : Writer → Writer) :
    Becomes p (p.step (some n) f) (f p.writer) n where
  eq hn := by simp [step, h, hn]
  full hn := by simp [step, h, Nat.not_le.2 hn]

end

theorem Halts.comp {f g : Page → Page} (hf : Halts f) (hg : Halts g) : Halts fun p => g (f p) := by
  intro p h
  show g (f p) = p
  rw [hf p h, hg p h]

theorem halts_add (g : Writer → Writer) : Halts (add g) := fun _ h => if_pos h

theorem halts_lineBreak : Halts (Sink.lineBreak (σ := Page)) := by
  intro p h
  show p.lineBreak = p
  rw [lineBreak, step, if_pos h, ite_self]

theorem halts_closeList (frame : Frame) : Halts (Sink.closeList (σ := Page) frame) := by
  intro p h
  show p.closeList = p
  unfold closeList
  split
  · rfl
  · exact if_pos h

theorem halts_itemBreak : Halts (Sink.itemBreak (σ := Page)) :=
  (halts_add _).comp halts_lineBreak

/-! ## Phrases without lists -/

/-- A phrase that takes up its text alone. -/
structure Plain (f : Page → Page) (g : Writer → Writer) : Prop where
  halts : Halts f
  extend : ∀ w, Extends w.text (g w).text
  becomes : ∀ p : Page, p.full = false →
    Becomes p (f p) (g p.writer) (g p.writer).text.utf8ByteSize

theorem Plain.comp {f f' : Page → Page} {g g' : Writer → Writer} (h : Plain f g)
    (h' : Plain f' g') : Plain (fun p => f' (f p)) (fun w => g' (g w)) where
  halts := h.halts.comp h'.halts
  extend w := (h.extend w).trans (h'.extend (g w))
  becomes p hp := by
    have hb := (h.becomes p hp).trans h'.halts fun _ => h'.becomes { p with writer := g p.writer } hp
    have hs := (h'.extend (g p.writer)).size_le
    rwa [Nat.max_eq_right hs] at hb

theorem plain_add {g : Writer → Writer} (h : ∀ w, Extends w.text (g w).text) :
    Plain (add g) g where
  halts := halts_add g
  extend := h
  becomes _ hp := becomes_step hp _ _

theorem plain_keyword (text : String) : Plain (Sink.keyword text) (Sink.keyword text) :=
  plain_add fun w => w.extends_token _

theorem plain_separator (text : String) : Plain (Sink.separator text) (Sink.separator text) :=
  plain_add fun w => w.extends_separator _

theorem plain_openList (opening closing : String) :
    Plain (fun p => (Sink.openList opening closing p).2)
      (fun w => (Sink.openList opening closing w).2) :=
  plain_add (g := fun w => (Sink.openList opening closing w).2) fun w => w.extends_token opening

theorem plain_name (n : Name) : Plain n.write n.write := plain_add fun w => w.extends_token _

theorem plain_literal (v : Literal) : Plain v.write v.write := by
  obtain ⟨value, span⟩ := v
  cases value with
  | boolean value =>
    cases value with
    | true => exact plain_keyword _
    | false => exact plain_keyword _
  | null => exact plain_keyword _
  | _ => exact plain_add fun w => w.extends_token _

theorem plain_setting (s : Setting) : Plain s.write s.write :=
  ((plain_literal s.key).comp (plain_keyword "=")).comp (plain_literal s.value)

/-! ## Breaks between lines -/

section
variable {p : Page}

theorem indentedSize_eq {depth : Nat}
    (h : depth * p.writer.layout.indentWidth.toNat < UInt64.size) (text : String) :
    p.indentedSize text depth = some (text ++ p.writer.indentation depth).utf8ByteSize := by
  rw [indentedSize, String.utf8ByteSize_append, Writer.utf8ByteSize_indentation, if_neg]
  simp [h]

variable (hp : p.full = false)
include hp

theorem becomes_lineBreak (h : p.writer.layout.Counts p.writer.lists.length) :
    Becomes p (Sink.lineBreak p) (Sink.lineBreak p.writer)
      (if p.writer.layout.pretty then (Sink.lineBreak p.writer).text.utf8ByteSize else 0) := by
  show Becomes p p.lineBreak p.writer.lineBreak _
  unfold lineBreak
  cases hl : p.writer.layout.pretty with
  | false =>
    rw [Writer.lineBreak_compact hl]
    exact becomes_self p
  | true =>
    rw [if_pos rfl, if_pos rfl, indentedSize_eq (h hl), ← Writer.text_lineBreak hl]
    exact becomes_step hp _ _

theorem becomes_closeList {list : OpenList} {lists : List OpenList}
    (hl : p.writer.lists = list :: lists)
    (h : p.writer.beforeIndentation? ≠ none →
      lists.length * p.writer.layout.indentWidth.toNat < UInt64.size) (frame : Frame) :
    Becomes p (Sink.closeList frame p) (Sink.closeList frame p.writer)
      (Sink.closeList frame p.writer).text.utf8ByteSize := by
  have ht : (Sink.closeList frame p.writer).text =
      p.writer.realign lists.length ++ list.closing := by
    show p.writer.closeList.text = _
    unfold Writer.closeList
    simp only [hl]
  show Becomes p p.closeList _ _
  rw [ht, String.utf8ByteSize_append]
  unfold closeList Writer.realign
  simp only [hl]
  cases hb : p.writer.beforeIndentation? with
  | none => exact becomes_step hp _ _
  | some kept =>
    dsimp only
    rw [indentedSize_eq (h (by simp [hb]))]
    exact becomes_step hp _ _

theorem becomes_itemBreak (h : p.writer.layout.Counts p.writer.lists.length) :
    ∃ n ≤ (Sink.itemBreak p.writer).text.utf8ByteSize,
      Becomes p (Sink.itemBreak p) (Sink.itemBreak p.writer) n ∧
        (p.writer.layout.pretty = true → (Sink.itemBreak p.writer).text.utf8ByteSize ≤ n) := by
  have hw : (p.writer.separator ",").layout = p.writer.layout := Writer.layout_separator _ _
  have hc : (p.writer.separator ",").layout.Counts (p.writer.separator ",").lists.length := by
    rwa [hw, Writer.lists_separator]
  have hb := ((plain_separator ",").becomes p hp).trans halts_lineBreak fun _ =>
    becomes_lineBreak (p := { p with writer := p.writer.separator "," }) hp hc
  have hs := (Writer.extends_lineBreak (p.writer.separator ",")).size_le
  refine ⟨_, ?_, hb, fun hl => ?_⟩
  · refine Nat.max_le.2 ⟨hs, ?_⟩
    split
    · exact Nat.le_refl _
    · exact Nat.zero_le _
  · refine Nat.le_trans ?_ (Nat.le_max_right _ _)
    rw [if_pos (by rw [← hl, ← hw])]
    exact Nat.le_refl _

end

/-! ## Lists -/

/-- An item that is written as one token, and takes up one level more than its text at most. -/
structure Item (f : Page → Page) (g : Writer → Writer) : Prop where
  halts : Halts f
  token : ∀ w, ∃ text, g w = w.token text
  becomes : ∀ p : Page, p.full = false → p.writer.layout.Counts (p.writer.lists.length + 1) →
    ∃ n ≤ (g p.writer).text.utf8ByteSize + p.writer.layout.slack, Becomes p (f p) (g p.writer) n

theorem Plain.item {f : Page → Page} {g : Writer → Writer} (h : Plain f g)
    (ht : ∀ w, ∃ text, g w = w.token text) : Item f g where
  halts := h.halts
  token := ht
  becomes p hp _ := ⟨_, Nat.le_add_right _ _, h.becomes p hp⟩

/-- Where a line at the depth of the lists fits, the width of the next level can be counted. -/
theorem counts_succ {w : Writer} (hd : w.lists ≠ []) (h : w.layout.Counts w.lists.length)
    (hs : w.layout.pretty = true → (Sink.itemBreak w).text.utf8ByteSize ≤ limit) :
    w.layout.Counts (w.lists.length + 1) := by
  intro hl
  have hfits := hs hl
  have hsep : (w.separator ",").layout.pretty = true := by rwa [Writer.layout_separator]
  have hsize : w.lists.length * w.layout.indentWidth.toNat ≤
      (Sink.itemBreak w).text.utf8ByteSize := by
    show _ ≤ (w.separator ",").lineBreak.text.utf8ByteSize
    rw [Writer.text_lineBreak hsep, String.utf8ByteSize_append, Writer.utf8ByteSize_indentation,
      Writer.layout_separator, Writer.lists_separator, Layout.indent_eq _ (h hl)]
    exact Nat.le_add_left _ _
  have hone : w.layout.indentWidth.toNat ≤ w.lists.length * w.layout.indentWidth.toNat :=
    Nat.le_mul_of_pos_left _ (List.length_pos_iff.2 hd)
  rw [Nat.succ_mul]
  show _ < 2 ^ 64
  unfold limit at hfits
  omega

theorem Item.extend {f : Page → Page} {g : Writer → Writer} (h : Item f g) (w : Writer) :
    Extends w.text (g w).text := by
  obtain ⟨text, ht⟩ := h.token w
  rw [ht]
  exact w.extends_token text

section
variable {α : Type} {f : α → Page → Page} {g : α → Writer → Writer}

theorem halts_foldl {as : List α} (h : ∀ a ∈ as, Item (f a) (g a)) :
    Halts fun p => as.foldl (fun p a => f a (Sink.itemBreak p)) p := by
  induction as with
  | nil => exact fun _ _ => rfl
  | cons a as ih =>
    obtain ⟨ha, has⟩ := List.forall_mem_cons.1 h
    exact (halts_itemBreak.comp ha.halts).comp (ih has)

theorem extends_foldl : ∀ {as : List α}, (∀ a ∈ as, Item (f a) (g a)) → ∀ w : Writer,
    Extends w.text (as.foldl (fun w a => g a (Sink.itemBreak w)) w).text
  | [], _, w => ⟨"", by simp⟩
  | a :: as, h, w => by
    obtain ⟨ha, has⟩ := List.forall_mem_cons.1 h
    have hb : Extends w.text (Sink.itemBreak w).text :=
      (w.extends_separator ",").trans (Writer.extends_lineBreak _)
    exact (hb.trans (ha.extend _)).trans (extends_foldl has _)

end

/-- An item with the break before it. -/
theorem becomes_item {f : Page → Page} {g : Writer → Writer} (h : Item f g) {p : Page}
    (hp : p.full = false) (hd : p.writer.lists ≠ [])
    (hc : p.writer.layout.Counts p.writer.lists.length) :
    ∃ n ≤ (g (Sink.itemBreak p.writer)).text.utf8ByteSize + p.writer.layout.slack,
      Becomes p (f (Sink.itemBreak p)) (g (Sink.itemBreak p.writer)) n := by
  obtain ⟨m, hm, hbreak, hsize⟩ := becomes_itemBreak hp hc
  have hgrow := (h.extend (Sink.itemBreak p.writer)).size_le
  -- The item fits only if the break does, and then there are levels enough for it.
  obtain ⟨n, hn, hitem⟩ : ∃ n ≤ (g (Sink.itemBreak p.writer)).text.utf8ByteSize +
      p.writer.layout.slack, m ≤ limit → Becomes { p with writer := Sink.itemBreak p.writer }
        (f { p with writer := Sink.itemBreak p.writer }) (g (Sink.itemBreak p.writer)) n := by
    by_cases hfits : m ≤ limit
    · have hnext := counts_succ hd hc fun hl => Nat.le_trans (hsize hl) hfits
      have hi := h.becomes { p with writer := Sink.itemBreak p.writer } hp
        (by rwa [Writer.layout_itemBreak, Writer.lists_itemBreak])
      rw [Writer.layout_itemBreak] at hi
      obtain ⟨n, hn, hb⟩ := hi
      exact ⟨n, hn, fun _ => hb⟩
    · exact ⟨0, Nat.zero_le _, fun h => absurd h hfits⟩
  exact ⟨_, Nat.max_le.2 ⟨by omega, hn⟩, hbreak.trans h.halts hitem⟩

/-- The items of a list take up one level more than their text at most. -/
theorem becomes_foldl {α : Type} {f : α → Page → Page} {g : α → Writer → Writer} :
    ∀ {as : List α}, (∀ a ∈ as, Item (f a) (g a)) → ∀ {p : Page},
    p.full = false → p.writer.lists ≠ [] → p.writer.layout.Counts p.writer.lists.length →
    ∃ n ≤ (as.foldl (fun w a => g a (Sink.itemBreak w)) p.writer).text.utf8ByteSize +
        p.writer.layout.slack,
      Becomes p (as.foldl (fun p a => f a (Sink.itemBreak p)) p)
        (as.foldl (fun w a => g a (Sink.itemBreak w)) p.writer) n
  | [], _, p, _, _, _ => ⟨0, Nat.zero_le _, becomes_self p⟩
  | a :: as, h, p, hp, hd, hc => by
    obtain ⟨ha, has⟩ := List.forall_mem_cons.1 h
    obtain ⟨n, hn, hitem⟩ := becomes_item ha hp hd hc
    obtain ⟨text, ht⟩ := ha.token (Sink.itemBreak p.writer)
    rw [List.foldl_cons, List.foldl_cons]
    rw [ht] at hitem hn ⊢
    have hl : ((Sink.itemBreak p.writer).token text).layout = p.writer.layout :=
      Writer.layout_itemBreak p.writer
    have hs : ((Sink.itemBreak p.writer).token text).lists = Writer.markItem p.writer.lists :=
      congrArg Writer.markItem (Writer.lists_itemBreak p.writer)
    have hd' : Writer.markItem p.writer.lists ≠ [] := by
      rwa [← List.length_pos_iff, Writer.length_markItem, List.length_pos_iff]
    have hc' : p.writer.layout.Counts (Writer.markItem p.writer.lists).length := by
      rwa [Writer.length_markItem]
    rw [← hs] at hd' hc'
    rw [← hl] at hc'
    obtain ⟨k, hk, hfold⟩ := becomes_foldl has
      (p := { p with writer := (Sink.itemBreak p.writer).token text }) hp hd' hc'
    have hgrow := (extends_foldl has ((Sink.itemBreak p.writer).token text)).size_le
    rw [hl] at hk
    exact ⟨_, Nat.max_le.2 ⟨by omega, hk⟩, hitem.trans (halts_foldl has) fun _ => hfold⟩

theorem listing_eq {σ : Type} [Sink σ] {α : Type} (item : α → σ → σ) (l : Listing α) (w : σ) :
    l.write item w = Sink.closeList (Sink.openList "(" ")" w).1 (Sink.lineBreak
      (l.items.foldl (fun w a => item a (Sink.itemBreak w)) (Sink.openList "(" ")" w).2)) := rfl

/-! ## The end of a list -/

section
variable {p : Page} (hp : p.full = false) {lists : List OpenList} {hasItems : Bool}
  (hl : p.writer.lists = ⟨")", hasItems⟩ :: lists) {r : List Char} {c : Char}
  (ht : p.writer.text.toList = r ++ [c]) (hb : isBlank c = false) (frame : Frame)
include hl

theorem text_end : (Sink.closeList frame (Sink.lineBreak p.writer)).text =
    (Sink.lineBreak p.writer).realign lists.length ++ ")" := by
  have hlists : (Sink.lineBreak p.writer).lists = ⟨")", hasItems⟩ :: lists :=
    (Writer.lists_lineBreak _).trans hl
  show (Writer.closeList _).text = _
  unfold Writer.closeList
  simp only [hlists]

section
variable (hc : p.writer.layout.pretty = false)
include ht hb hc

theorem size_end_compact : (Sink.closeList frame (Sink.lineBreak p.writer)).text.utf8ByteSize =
    p.writer.text.utf8ByteSize + 1 := by
  have hsame : Sink.lineBreak p.writer = p.writer := Writer.lineBreak_compact hc
  rw [text_end hl, hsame, Writer.realign_solid _ ht hb, String.utf8ByteSize_append]
  rfl

include hp

theorem becomes_end_compact : Becomes p (Sink.closeList frame (Sink.lineBreak p))
    (Sink.closeList frame (Sink.lineBreak p.writer))
    (Sink.closeList frame (Sink.lineBreak p.writer)).text.utf8ByteSize := by
  have hsame : Sink.lineBreak p.writer = p.writer := Writer.lineBreak_compact hc
  have hpage : Sink.lineBreak p = p := by
    show p.lineBreak = p
    rw [lineBreak, hc, if_neg Bool.false_ne_true]
  have hsolid : p.writer.beforeIndentation? = none := Writer.beforeIndentation?_solid _ ht hb
  rw [hpage, hsame]
  exact becomes_closeList hp hl (fun hn => absurd hsolid hn) frame

end

section
variable (hc : p.writer.layout.pretty = true)
  (hcount : (lists.length + 1) * p.writer.layout.indentWidth.toNat < UInt64.size)
include hc hcount

theorem size_line_pretty : (Sink.lineBreak p.writer).text.utf8ByteSize =
    p.writer.text.utf8ByteSize + 1 + (lists.length + 1) * p.writer.layout.indentWidth.toNat := by
  have hd : p.writer.lists.length = lists.length + 1 := by rw [hl, List.length_cons]
  show p.writer.lineBreak.text.utf8ByteSize = _
  rw [Writer.text_lineBreak hc, String.utf8ByteSize_append, String.utf8ByteSize_append,
    Writer.utf8ByteSize_indentation, hd, Layout.indent_eq _ hcount]
  rfl

theorem size_end_pretty : (Sink.closeList frame (Sink.lineBreak p.writer)).text.utf8ByteSize =
    p.writer.text.utf8ByteSize + 1 + lists.length * p.writer.layout.indentWidth.toNat + 1 := by
  have hless := Nat.lt_of_le_of_lt (Nat.mul_le_mul_right _ (Nat.le_succ lists.length)) hcount
  have hline : (Sink.lineBreak p.writer).text = _ := Writer.text_lineBreak hc
  have hlayout : (Sink.lineBreak p.writer).layout = p.writer.layout := Writer.layout_lineBreak _
  rw [text_end hl, Writer.realign_newline _ hline, String.utf8ByteSize_append,
    String.utf8ByteSize_append, String.utf8ByteSize_append, Writer.utf8ByteSize_indentation,
    hlayout, Layout.indent_eq _ hless]
  rfl

include hp

/-- The line is there before it is indented anew. -/
theorem becomes_end_pretty :
    let w := Sink.closeList frame (Sink.lineBreak p.writer)
    Becomes p (Sink.closeList frame (Sink.lineBreak p)) w
      (max (Sink.lineBreak p.writer).text.utf8ByteSize w.text.utf8ByteSize) := by
  intro w
  have hd : p.writer.lists.length = lists.length + 1 := by rw [hl, List.length_cons]
  have hlists : (Sink.lineBreak p.writer).lists = ⟨")", hasItems⟩ :: lists :=
    (Writer.lists_lineBreak _).trans hl
  have hless := Nat.lt_of_le_of_lt (Nat.mul_le_mul_right _ (Nat.le_succ lists.length)) hcount
  have hbreak := becomes_lineBreak hp (fun _ => by rwa [hd])
  rw [if_pos hc] at hbreak
  refine hbreak.trans (halts_closeList frame) fun _ =>
    becomes_closeList (p := { p with writer := Sink.lineBreak p.writer }) hp hlists (fun _ => ?_) frame
  show lists.length * p.writer.lineBreak.layout.indentWidth.toNat < _
  rwa [Writer.layout_lineBreak]

end

include hp ht hb

/-- The end of a list takes up one level more than the text before it, or all of the text. -/
theorem becomes_end (hc : p.writer.layout.Counts (lists.length + 1)) :
    let w := Sink.closeList frame (Sink.lineBreak p.writer)
    p.writer.text.utf8ByteSize + p.writer.layout.slack ≤ p.writer.layout.room true w.text ∧
      Becomes p (Sink.closeList frame (Sink.lineBreak p)) w (p.writer.layout.room true w.text) := by
  intro w
  cases hpretty : p.writer.layout.pretty with
  | false =>
    have hsize : w.text.utf8ByteSize = _ := size_end_compact hl ht hb frame hpretty
    rw [Layout.room_compact hpretty, Layout.slack, if_neg (by simp [hpretty])]
    exact ⟨by omega, becomes_end_compact hp hl ht hb frame hpretty⟩
  | true =>
    have hsize : w.text.utf8ByteSize = _ := size_end_pretty hl frame hpretty (hc hpretty)
    have hline := size_line_pretty hl hpretty (hc hpretty)
    rw [Nat.succ_mul] at hline
    have hroom : p.writer.layout.room true w.text =
        max (Sink.lineBreak p.writer).text.utf8ByteSize w.text.utf8ByteSize := by
      rw [Layout.room, if_pos rfl, Layout.slack, if_pos hpretty]
      omega
    rw [hroom, Layout.slack, if_pos hpretty]
    exact ⟨by omega, becomes_end_pretty hp hl frame hpretty (hc hpretty)⟩

end

section
variable {α : Type} {f : α → Page → Page} {g : α → Writer → Writer}
  (pieces : Layout → Nat → α → List Piece) {l : Listing α}
  (h : ∀ a ∈ l.items, Item (f a) (g a)) (hw : ∀ a ∈ l.items, Writer.WritesAs g pieces a)
include h

theorem halts_listing : Halts (l.write f) := by
  intro p hp
  have hbody := ((plain_openList "(" ")").halts.comp (halts_foldl h)).comp halts_lineBreak p hp
  show Sink.closeList _ (Sink.lineBreak (l.items.foldl _ (Sink.openList "(" ")" p).2)) = p
  exact (congrArg _ hbody).trans (halts_closeList _ p hp)

include hw

/-- A list takes up its text, or its text without the end and with one level more. -/
theorem becomes_listing {p : Page} (hp : p.full = false)
    (hs : ∀ a ∈ l.items, Writer.Solid (pieces p.writer.layout (p.writer.lists.length + 1) a))
    (hc : p.writer.layout.Counts (p.writer.lists.length + 1)) :
    Becomes p (l.write f p) (l.write g p.writer)
      (p.writer.layout.room true (l.write g p.writer).text) := by
  obtain ⟨ps, hasItems, pending, -, hsolid, hin⟩ := Writer.listing_inside pieces p.writer hw hs
  have hdepth : (Writer.markItem p.writer.lists).length = p.writer.lists.length :=
    Writer.length_markItem _
  have hopen := (plain_openList "(" ")").becomes p hp
  obtain ⟨n, hn, hfold⟩ := becomes_foldl h
    (p := { p with writer := (Sink.openList "(" ")" p.writer).2 }) hp (List.cons_ne_nil _ _)
    (by
      show p.writer.layout.Counts ((Writer.markItem p.writer.lists).length + 1)
      rwa [hdepth])
  have hgrow := (extends_foldl h (Sink.openList "(" ")" p.writer).2).size_le
  dsimp only at hn hfold
  rw [hin] at hn hfold hgrow
  obtain ⟨r, c, ht, hb⟩ := hsolid.text_inList p.writer hasItems pending
  obtain ⟨hle, hend⟩ := becomes_end
    (p := { p with writer := p.writer.inList ps hasItems pending }) hp rfl ht hb
    (Sink.openList "(" ")" p.writer).1
    (by
      show p.writer.layout.Counts ((Writer.markItem p.writer.lists).length + 1)
      rwa [hdepth])
  have hall := ((hopen.trans (halts_foldl h) fun _ => hfold).trans
    (halts_lineBreak.comp (halts_closeList _)) fun _ => hend)
  rw [listing_eq f, listing_eq g, hin]
  have hfirst := Nat.le_trans hgrow (Nat.le_trans (Nat.le_add_right _ _) hle)
  rw [Nat.max_eq_right (Nat.max_le.2 ⟨hfirst, Nat.le_trans hn hle⟩)] at hall
  exact hall

end

/-! ## Statements -/

theorem Plain.followed {f f' : Page → Page} {g g' : Writer → Writer} (h : Plain f g)
    (hf : Halts f') {p : Page} (hp : p.full = false) {n : Nat}
    (hb : Becomes { p with writer := g p.writer } (f' { p with writer := g p.writer })
      (g' (g p.writer)) n)
    (hn : (g p.writer).text.utf8ByteSize ≤ n) : Becomes p (f' (f p)) (g' (g p.writer)) n := by
  have ht := (h.becomes p hp).trans hf fun _ => hb
  rwa [Nat.max_eq_right hn] at ht

/-- What a statement begins with. -/
def head {σ : Type} [Sink σ] (s : Statement) (w : σ) : σ :=
  s.catalog.write (Sink.keyword "CATALOG" (Sink.keyword "ALTER" w))

theorem plain_head (s : Statement) : Plain (head s) (head s) :=
  ((plain_keyword "ALTER").comp (plain_keyword "CATALOG")).comp (plain_name s.catalog)

end Page

def Action.listed : Action → Bool
  | set _ => true
  | reset _ => true
  | rename _ => false
  | comment _ => false

namespace Page

theorem item_setting (s : Setting) : Item s.write s.write :=
  (plain_setting s).item fun w => ⟨_, Writer.setting_write s w⟩

theorem item_key (k : Literal) : Item k.write k.write :=
  (plain_literal k).item fun w => ⟨_, Writer.literal_write k w⟩

/-- A statement that ends in a list. -/
theorem becomes_listed {α : Type} {f : α → Page → Page} {g : α → Writer → Writer}
    (pieces : Layout → Nat → α → List Piece) {l : Listing α} (s : Statement) (word : String)
    (h : ∀ a ∈ l.items, Item (f a) (g a)) (hw : ∀ a ∈ l.items, Writer.WritesAs g pieces a)
    (hs : ∀ layout depth, ∀ a ∈ l.items, Writer.Solid (pieces layout depth a)) {p : Page}
    (hp : p.full = false) (hc : p.writer.layout.Counts (p.writer.lists.length + 1)) :
    let w := l.write g (Sink.keyword word (head s p.writer))
    Becomes p (l.write f (Sink.keyword word (head s p))) w (p.writer.layout.room true w.text) := by
  intro w
  have hstart := (plain_head s).comp (plain_keyword word)
  have hd : (Sink.keyword word (head s p.writer)).lists.length = p.writer.lists.length := by
    show (Writer.markItem (Writer.markItem (Writer.markItem (Writer.markItem _)))).length = _
    simp only [Writer.length_markItem]
  have hlist := becomes_listing pieces h hw
    (p := { p with writer := Sink.keyword word (head s p.writer) }) hp (hs _ _) (by rwa [hd])
  refine hstart.followed (halts_listing h) hp hlist ?_
  have hput := Writer.listing_write pieces (Sink.keyword word (head s p.writer)) hw (hs _ _)
  refine Nat.le_trans ?_ (Layout.le_room _ _ _)
  rw [hput]
  exact (Writer.extends_token _ _).size_le

/-- A statement takes up its text, or one level more if it ends in a list. -/
theorem becomes_statement {s : Statement} (hl : ∀ v ∈ s.action.literals, v.value.Legible) {p : Page}
    (hp : p.full = false)
    (hc : s.action.listed = true → p.writer.layout.Counts (p.writer.lists.length + 1)) :
    Becomes p (s.write p) (s.write p.writer)
      (p.writer.layout.room s.action.listed (s.write p.writer).text) := by
  obtain ⟨span, catalog, action⟩ := s
  cases action with
  | set settings =>
    exact becomes_listed (fun l _ => Spelling.setting l) ⟨span, catalog, .set settings⟩ "SET"
      (fun s _ => item_setting s) (fun s _ => Writer.setting_write s)
      (fun l _ _ hs => Writer.solid_setting l hl hs) hp (hc rfl)
  | reset keys =>
    exact becomes_listed (fun l _ => Spelling.key l) ⟨span, catalog, .reset keys⟩ "RESET"
      (fun k _ => item_key k) (fun k _ => Writer.key_write k)
      (fun l _ _ hk => Writer.solid_key l hl hk) hp (hc rfl)
  | rename newName =>
    simp only [Action.listed, Layout.room_unlisted]
    exact ((((plain_head ⟨span, catalog, .rename newName⟩).comp (plain_keyword "RENAME")).comp
      (plain_keyword "TO")).comp (plain_name newName)).becomes p hp
  | comment text =>
    simp only [Action.listed, Layout.room_unlisted]
    exact (((plain_head ⟨span, catalog, .comment text⟩).comp (plain_keyword "COMMENT")).comp
      (plain_literal text)).becomes p hp

/-! ## Widths that cannot be counted -/

section
variable {p : Page} (hl : p.writer.layout.pretty = true) (hchecked : p.checked = true)
  (ho : UInt64.size ≤ p.writer.lists.length * p.writer.layout.indentWidth.toNat)
include hl hchecked ho

theorem full_lineBreak : (Sink.lineBreak p).full = true := by
  show p.lineBreak.full = true
  have hsize : p.indentedSize (p.writer.text ++ "\n") p.writer.lists.length = none := by
    rw [indentedSize, if_pos (by simp [hchecked, ho])]
  rw [lineBreak, if_pos hl, hsize, step]
  cases hp : p.full <;> simp [hp]

theorem full_itemBreak : (Sink.itemBreak p).full = true := by
  show (Sink.lineBreak (Sink.separator "," p)).full = true
  cases hp : p.full with
  | true => rw [(plain_separator ",").halts p hp, halts_lineBreak p hp, hp]
  | false =>
    rcases ((plain_separator ",").becomes p hp).full_or_eq with hq | hq
    · rw [halts_lineBreak _ hq, hq]
    · rw [hq]
      have hlayout : (Sink.separator "," p.writer).layout = p.writer.layout :=
        Writer.layout_separator _ _
      have hlists : (Sink.separator "," p.writer).lists = p.writer.lists :=
        Writer.lists_separator _ _
      exact full_lineBreak (p := { p with writer := Sink.separator "," p.writer })
        (by rwa [hlayout]) hchecked (by rwa [hlayout, hlists])

theorem full_items {α : Type} {f : α → Page → Page} {g : α → Writer → Writer} {as : List α}
    (h : ∀ a ∈ as, Item (f a) (g a)) :
    (Sink.lineBreak (as.foldl (fun p a => f a (Sink.itemBreak p)) p)).full = true := by
  cases as with
  | nil => exact full_lineBreak hl hchecked ho
  | cons a as =>
    obtain ⟨ha, has⟩ := List.forall_mem_cons.1 h
    have hq := full_itemBreak hl hchecked ho
    have hrest := ((ha.halts.comp (halts_foldl has)).comp halts_lineBreak) _ hq
    rw [List.foldl_cons]
    exact (congrArg Page.full hrest).trans hq

end

section
variable {p : Page} (hp : p.full = false) (hl : p.writer.layout.pretty = true)
  (hchecked : p.checked = true)
  (ho : UInt64.size ≤ (p.writer.lists.length + 1) * p.writer.layout.indentWidth.toNat)
include hp hl hchecked ho

theorem full_listed {α : Type} {f : α → Page → Page} {g : α → Writer → Writer} {l : Listing α}
    (s : Statement) (word : String) (h : ∀ a ∈ l.items, Item (f a) (g a)) :
    (l.write f (Sink.keyword word (head s p))).full = true := by
  have hstart := (((plain_head s).comp (plain_keyword word)).comp
    (plain_openList "(" ")")).becomes p hp
  have hbody : (Sink.lineBreak (l.items.foldl (fun p a => f a (Sink.itemBreak p))
      (Sink.openList "(" ")" (Sink.keyword word (head s p))).2)).full = true := by
    rcases hstart.full_or_eq with hq | hq
    · have hrest := ((halts_foldl h).comp halts_lineBreak) _ hq
      exact (congrArg Page.full hrest).trans hq
    · have hd : (Sink.openList "(" ")" (Sink.keyword word (head s p.writer))).2.lists.length =
          p.writer.lists.length + 1 := by
        show (Writer.markItem (Writer.markItem (Writer.markItem (Writer.markItem
          (Writer.markItem _))))).length + 1 = _
        simp only [Writer.length_markItem]
      rw [hq]
      exact full_items
        (p := { p with writer := (Sink.openList "(" ")" (Sink.keyword word (head s p.writer))).2 })
        hl hchecked (by rwa [hd]) h
  rw [listing_eq, halts_closeList _ _ hbody]
  exact hbody

theorem full_statement {s : Statement} (hs : s.action.listed = true) : (s.write p).full = true := by
  obtain ⟨span, catalog, action⟩ := s
  cases action with
  | set settings =>
    exact full_listed hp hl hchecked ho ⟨span, catalog, .set settings⟩ "SET"
      fun s _ => item_setting s
  | reset keys =>
    exact full_listed hp hl hchecked ho ⟨span, catalog, .reset keys⟩ "RESET"
      fun k _ => item_key k
  | rename newName => cases hs
  | comment text => cases hs

end

end Page

/-! ## Texts of statements -/

theorem Layout.counts_one (l : Layout) : l.Counts 1 := by
  intro _
  rw [Nat.one_mul]
  exact l.indentWidth.toNat_lt

/-- The bytes that the text of a statement takes up while it is written. -/
def Statement.room (s : Statement) (l : Layout) : Nat := l.room s.action.listed (l.text s.write)

theorem Statement.sql_eq {s : Statement} (h : ∀ v ∈ s.action.literals, v.value.Legible)
    (l : Layout) : s.sql l = if s.room l ≤ Page.limit then some (l.text s.write) else none := by
  have hb : Page.Becomes _ _ (s.write { layout := l }) (s.room l) :=
    Page.becomes_statement h (p := { writer := { layout := l } }) rfl fun _ => l.counts_one
  rw [sql, Layout.render, Page.text?]
  by_cases hr : s.room l ≤ Page.limit
  · rw [hb.eq hr, if_pos hr]
    rfl
  · rw [hb.full (Nat.not_le.1 hr), if_neg hr]
    rfl

/-- A RESET of nothing, which is over two lines in a pretty layout. -/
def Statement.resetNone : Statement := { catalog := ⟨["c"], {}⟩, action := .reset ⟨[], {}⟩ }

/-- Levels so wide that none fits. -/
def Layout.wide : Layout := { indentWidth := 9223372036854775808 }

end AlterCatalog
