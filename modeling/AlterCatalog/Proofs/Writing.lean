import AlterCatalog.Proofs.Blocks
import AlterCatalog.Statement.Printer

/-!
# Writing is spelling out

The writer keeps a pending space, the open lists, and whether a list has an item yet, and it looks
back at the text when a list ends. All of that comes to one rule: a phrase changes the writer as a
single token would that has the text of its spelling (`put`). A list is where the rule is not
plain: until it ends, the writer stands inside it (`inList`).
-/

namespace AlterCatalog

/-- The text of pieces. -/
def Piece.join (ps : List Piece) : String := String.ofList (ps.flatMap Piece.text)

@[simp] theorem Piece.join_nil : join [] = "" := rfl

@[simp] theorem Piece.join_cons (p : Piece) (ps : List Piece) :
    join (p :: ps) = String.ofList p.text ++ join ps := by
  rw [join, List.flatMap_cons, String.ofList_append, join]

@[simp] theorem Piece.join_append (ps qs : List Piece) : join (ps ++ qs) = join ps ++ join qs := by
  rw [join, List.flatMap_append, String.ofList_append, join, join]

theorem Piece.join_intersperse (q : Piece) : ∀ ps : List Piece, join (ps.intersperse q) =
    (String.ofList q.text).intercalate (ps.map fun p => String.ofList p.text)
  | [] => rfl
  | [p] => by simp
  | p :: r :: ps => by
    rw [List.intersperse_cons_cons, join_cons, join_cons, join_intersperse q (r :: ps)]
    simp only [List.map_cons, String.intercalate_cons_cons, String.append_assoc]

theorem Piece.join_lineStart (l : Layout) (depth : Nat) :
    join [Spelling.lineStart l depth] = "\n" ++ spaces (l.indent depth) := by
  rw [join_cons, Spelling.lineStart, ← List.singleton_append, String.ofList_append, join_nil,
    String.append_empty, spaces]

namespace Writer

open Spelling

/-- Writes pieces as one token. -/
def put (ps : List Piece) (w : Writer) : Writer := w.token (Piece.join ps)

@[simp] theorem markItem_markItem (lists : List OpenList) :
    markItem (markItem lists) = markItem lists := by
  cases lists <;> rfl

@[simp] theorem length_markItem (lists : List OpenList) :
    (markItem lists).length = lists.length := by
  cases lists <;> rfl

@[simp] theorem layout_put (ps : List Piece) (w : Writer) : (w.put ps).layout = w.layout := rfl

@[simp] theorem lists_put (ps : List Piece) (w : Writer) : (w.put ps).lists = markItem w.lists := rfl

theorem put_put (ps qs : List Piece) (w : Writer) :
    (w.put ps).put qs = w.put (ps ++ space :: qs) := by
  have hs : String.ofList space.text = " " := rfl
  simp [put, token, beginToken, hs, String.append_assoc]

/-! ## Inside a list -/

/-- The writer inside a list of its own, of which the given pieces are written. -/
def inList (w : Writer) (ps : List Piece) (hasItems pending : Bool) : Writer :=
  { w.put ps with lists := ⟨")", hasItems⟩ :: markItem w.lists, spacePending := pending }

theorem openList_eq (w : Writer) :
    (Sink.openList "(" ")" w).2 = w.inList [symbol .leftParen] false false := rfl

section
variable (w : Writer) (ps : List Piece)

theorem separator_first : Sink.separator "," (w.inList ps false false) = w.inList ps false false :=
  rfl

theorem separator_next (pending : Bool) :
    Sink.separator "," (w.inList ps true pending) = w.inList (ps ++ [symbol .comma]) true true := by
  have hc : String.ofList (symbol .comma).text = "," := rfl
  simp [Sink.separator, separator, inList, put, token, hc, String.append_assoc]

theorem text_inList (hasItems pending : Bool) :
    (w.inList ps hasItems pending).text = w.beginToken.text ++ Piece.join ps := rfl

theorem text_inList_lineStart (depth : Nat) (hasItems pending : Bool) :
    (w.inList (ps ++ [lineStart w.layout depth]) hasItems pending).text =
      w.beginToken.text ++ Piece.join ps ++ "\n" ++ w.indentation depth := by
  rw [text_inList, Piece.join_append, Piece.join_lineStart, indentation]
  simp only [String.append_assoc]

theorem lineBreak_pretty (h : w.layout.pretty = true) (hasItems pending : Bool) :
    Sink.lineBreak (w.inList ps hasItems pending) =
      w.inList (ps ++ [lineStart w.layout (w.lists.length + 1)]) hasItems false := by
  have hp : (w.inList ps hasItems pending).layout.pretty = true := h
  have hd : (w.inList ps hasItems pending).lists.length = w.lists.length + 1 := by simp [inList]
  have ht := text_inList_lineStart w ps (w.lists.length + 1) hasItems false
  show Writer.lineBreak _ = _
  rw [Writer.lineBreak, if_pos hp, hd]
  exact congrArg (fun text => { w.inList ps hasItems false with text }) ht.symm

theorem lineBreak_plain (h : w.layout.pretty = false) (hasItems pending : Bool) :
    Sink.lineBreak (w.inList ps hasItems pending) = w.inList ps hasItems pending := by
  have hp : ¬(w.inList ps hasItems pending).layout.pretty = true := Bool.eq_false_iff.1 h
  show Writer.lineBreak _ = _
  rw [Writer.lineBreak, if_neg hp]

theorem put_inList (qs : List Piece) (hasItems pending : Bool) :
    (w.inList ps hasItems pending).put qs =
      w.inList (ps ++ if pending then space :: qs else qs) true true := by
  have hs : String.ofList space.text = " " := rfl
  cases pending <;> simp [inList, put, token, beginToken, markItem, hs, String.append_assoc]

theorem put_first (qs : List Piece) :
    (Sink.itemBreak (w.inList ps false false)).put qs =
      w.inList (ps ++ (opening w.layout w.lists.length ++ qs)) true true := by
  rw [Sink.itemBreak, separator_first]
  cases h : w.layout.pretty with
  | true =>
    rw [lineBreak_pretty w _ h, put_inList, opening, if_pos h, List.append_assoc]
    rfl
  | false =>
    rw [lineBreak_plain w _ h, put_inList, opening, h]
    rfl

theorem put_next (qs : List Piece) :
    (Sink.itemBreak (w.inList ps true true)).put qs =
      w.inList (ps ++ (between w.layout w.lists.length ++ qs)) true true := by
  rw [Sink.itemBreak, separator_next]
  cases h : w.layout.pretty with
  | true =>
    rw [lineBreak_pretty w _ h, put_inList, between, h, List.append_assoc, List.append_assoc]
    rfl
  | false =>
    rw [lineBreak_plain w _ h, put_inList, between, h, List.append_assoc]
    rfl

end

/-! ## The end of a list -/

/-- Pieces whose text does not end in white space. -/
def Solid (ps : List Piece) : Prop := ∃ r c, ps.flatMap Piece.text = r ++ [c] ∧ isBlank c = false

theorem Solid.append {qs : List Piece} (h : Solid qs) (ps : List Piece) : Solid (ps ++ qs) := by
  obtain ⟨r, c, hq, hc⟩ := h
  exact ⟨ps.flatMap Piece.text ++ r, c, by simp [hq], hc⟩

theorem Solid.text_inList {ps : List Piece} (h : Solid ps) (w : Writer) (hasItems pending : Bool) :
    ∃ r c, (w.inList ps hasItems pending).text.toList = r ++ [c] ∧ isBlank c = false := by
  obtain ⟨r, c, hrc, hc⟩ := h
  refine ⟨w.beginToken.text.toList ++ r, c, ?_, hc⟩
  rw [Writer.text_inList, String.toList_append, Piece.join, String.toList_ofList, hrc,
    List.append_assoc]

theorem trimEnd_append_spaces (s : List Char) (c : Char) (hc : c ≠ ' ') (n : Nat) :
    trimEnd (· == ' ') (s ++ c :: List.replicate n ' ') = s ++ [c] := by
  have hr : (List.replicate n ' ').reverse.dropWhile (· == ' ') = [] := by
    rw [List.reverse_replicate, List.dropWhile_replicate]
    rfl
  rw [trimEnd, List.reverse_append, List.reverse_cons, List.append_assoc, List.dropWhile_append,
    hr]
  simp [hc]

/-- A line that a list ends on is indented like the line it began on. -/
theorem realign_newline (w : Writer) {text : String} {m : Nat} (h : w.text = text ++ "\n" ++ spaces m)
    (depth : Nat) : w.realign depth = text ++ "\n" ++ w.indentation depth := by
  have ht : w.text.toList = text.toList ++ '\n' :: List.replicate m ' ' := by
    simp [h, spaces]
  have hk : trimEnd (· == ' ') w.text.toList = text.toList ++ ['\n'] := by
    rw [ht]
    exact trimEnd_append_spaces _ _ (by decide) m
  have hb : w.beforeIndentation? = some (text ++ "\n") := by
    rw [beforeIndentation?, hk, if_pos (by simp), String.ofList_append, String.ofList_toList]
  rw [realign, hb]

theorem beforeIndentation?_solid (w : Writer) {r : List Char} {c : Char}
    (h : w.text.toList = r ++ [c]) (hc : isBlank c = false) : w.beforeIndentation? = none := by
  have hne : c ≠ ' ' := by
    intro h
    rw [h] at hc
    cases hc
  have hk : trimEnd (· == ' ') w.text.toList = r ++ [c] := by
    rw [h]
    exact trimEnd_append_spaces r c hne 0
  rw [beforeIndentation?, hk, if_neg]
  rw [List.getLast?_concat]
  intro hn
  cases hn
  cases hc

/-- Elsewhere the text stays as it is. -/
theorem realign_solid (w : Writer) {r : List Char} {c : Char} (h : w.text.toList = r ++ [c])
    (hc : isBlank c = false) (depth : Nat) : w.realign depth = w.text := by
  rw [realign, beforeIndentation?_solid w h hc]

theorem closeList_of_realign {w : Writer} {ps qs : List Piece} {hasItems pending : Bool}
    (h : (w.inList ps hasItems pending).realign w.lists.length = w.beginToken.text ++ Piece.join qs)
    (frame : Frame) :
    Sink.closeList frame (w.inList ps hasItems pending) = w.put (qs ++ [symbol .rightParen]) := by
  have hp : Piece.join [symbol .rightParen] = ")" := rfl
  have ht : (w.inList ps hasItems pending).realign w.lists.length ++ ")" =
      w.beginToken.text ++ Piece.join (qs ++ [symbol .rightParen]) := by
    rw [h, Piece.join_append, hp, String.append_assoc]
  have hd : (markItem w.lists).length = w.lists.length := length_markItem _
  show Writer.closeList _ = _
  rw [← hd] at ht
  exact congrArg (fun text => { w.put ps with text }) ht

/-- What is written once a list has ended. In a pretty layout the last line is indented anew; in a
compact one the text must not look as if it ended in such a line. -/
theorem closeList_eq (w : Writer) {ps : List Piece} (hasItems pending : Bool)
    (hl : Solid ps) (frame : Frame) :
    Sink.closeList frame (Sink.lineBreak (w.inList ps hasItems pending)) =
      w.put (ps ++ closing w.layout w.lists.length ++ [symbol .rightParen]) := by
  cases h : w.layout.pretty with
  | true =>
    rw [lineBreak_pretty w ps h, closing, if_pos h]
    apply closeList_of_realign
    rw [realign_newline _ (text_inList_lineStart w ps _ hasItems false), Piece.join_append,
      Piece.join_lineStart]
    simp only [String.append_assoc]
    rfl
  | false =>
    rw [lineBreak_plain w ps h, closing, h]
    apply closeList_of_realign
    obtain ⟨r, c, ht, hc⟩ := hl.text_inList w hasItems pending
    rw [realign_solid _ ht hc, text_inList]
    simp

/-! ## Phrases -/

theorem layout_separator (text : String) (w : Writer) : (w.separator text).layout = w.layout := by
  unfold separator
  split <;> rfl

theorem lists_separator (text : String) (w : Writer) : (w.separator text).lists = w.lists := by
  unfold separator
  split <;> rfl

theorem layout_lineBreak (w : Writer) : w.lineBreak.layout = w.layout := by
  unfold lineBreak
  split <;> rfl

theorem lists_lineBreak (w : Writer) : w.lineBreak.lists = w.lists := by
  unfold lineBreak
  split <;> rfl

theorem layout_itemBreak (w : Writer) : (Sink.itemBreak w).layout = w.layout :=
  (layout_lineBreak _).trans (layout_separator _ w)

theorem lists_itemBreak (w : Writer) : (Sink.itemBreak w).lists = w.lists :=
  (lists_lineBreak _).trans (lists_separator _ w)

theorem solid_joined (l : Layout) (depth : Nat) : ∀ {is : List (List Piece)} {i : List Piece},
    Solid i → (∀ j ∈ is, Solid j) → Solid (i ++ is.flatMap fun j => between l depth ++ j)
  | [], _, hi, _ => by simpa using hi
  | j :: js, i, _, h => by
    obtain ⟨hj, hjs⟩ := List.forall_mem_cons.1 h
    rw [List.flatMap_cons, ← List.append_assoc, ← List.append_assoc]
    exact solid_joined l depth (hj.append _) hjs

/-- An item that is written as its pieces, whatever it is written to. -/
def WritesAs {α : Type} (item : α → Writer → Writer) (pieces : Layout → Nat → α → List Piece)
    (a : α) : Prop :=
  ∀ w : Writer, item a w = w.put (pieces w.layout w.lists.length a)

section
variable {α : Type} {item : α → Writer → Writer} (pieces : Layout → Nat → α → List Piece)
  (w : Writer)

theorem foldl_items : ∀ {as : List α}, (∀ a ∈ as, WritesAs item pieces a) → ∀ ps : List Piece,
    as.foldl (fun w a => item a (Sink.itemBreak w)) (w.inList ps true true) =
      w.inList (ps ++ (as.map (pieces w.layout (w.lists.length + 1))).flatMap fun j =>
        between w.layout w.lists.length ++ j) true true
  | [], _, ps => by simp
  | a :: as, h, ps => by
    obtain ⟨ha, has⟩ := List.forall_mem_cons.1 h
    have hl : (Sink.itemBreak (w.inList ps true true)).layout = w.layout := layout_itemBreak _
    have hd : (Sink.itemBreak (w.inList ps true true)).lists.length = w.lists.length + 1 := by
      simp [lists_itemBreak, inList]
    rw [List.foldl_cons, ha, hl, hd, put_next, foldl_items has]
    simp

variable {l : Listing α} (h : ∀ a ∈ l.items, WritesAs item pieces a)
  (hs : ∀ a ∈ l.items, Solid (pieces w.layout (w.lists.length + 1) a))
include h hs

/-- A list before it is closed; its text does not end in white space then. -/
theorem listing_inside : ∃ ps hasItems pending,
    ps = symbol .leftParen :: items w.layout w.lists.length
      (l.items.map (pieces w.layout (w.lists.length + 1))) ∧ Solid ps ∧
    l.items.foldl (fun w a => item a (Sink.itemBreak w)) (Sink.openList "(" ")" w).2 =
      w.inList ps hasItems pending := by
  rw [openList_eq]
  cases hi : l.items with
  | nil => exact ⟨_, false, false, rfl, ⟨[], '(', rfl, rfl⟩, rfl⟩
  | cons a as =>
    rw [hi] at h hs
    obtain ⟨ha, has⟩ := List.forall_mem_cons.1 h
    obtain ⟨hsa, hsas⟩ := List.forall_mem_cons.1 hs
    have hl : (Sink.itemBreak (w.inList [symbol .leftParen] false false)).layout = w.layout :=
      layout_itemBreak _
    have hd : (Sink.itemBreak (w.inList [symbol .leftParen] false false)).lists.length =
        w.lists.length + 1 := by
      simp [lists_itemBreak, inList]
    have hj := solid_joined w.layout w.lists.length hsa (List.forall_mem_map.2 hsas)
    refine ⟨_, true, true, rfl, (hj.append _).append [_], ?_⟩
    rw [List.foldl_cons, ha, hl, hd, put_first, foldl_items pieces w has]
    simp [items]

/-- A list is written as it is spelled if its items are, and none of them ends in white space. -/
theorem listing_write : l.write item w = w.put (listing w.layout w.lists.length
    (l.items.map (pieces w.layout (w.lists.length + 1)))) := by
  obtain ⟨ps, hasItems, pending, rfl, hsolid, hin⟩ := listing_inside pieces w h hs
  show Sink.closeList _ (Sink.lineBreak (l.items.foldl _ (Sink.openList "(" ")" w).2)) = _
  rw [hin, closeList_eq w hasItems pending hsolid]
  rfl

end

theorem put_piece (p : Piece) (w : Writer) : w.put [p] = w.token (String.ofList p.text) := by
  rw [put, Piece.join_cons, Piece.join_nil, String.append_empty]

theorem keyword_write (k : Keyword) (w : Writer) :
    Sink.keyword k.text w = w.put [keyword w.layout k] := by
  rw [put_piece, keyword, String.ofList_toList]
  rfl

theorem equal_write (w : Writer) : Sink.keyword "=" w = w.put [symbol .equal] := by
  have h : w.layout.keywordCase.apply "=" = "=" := by
    cases w.layout.keywordCase <;> rfl
  show w.token (w.layout.keywordCase.apply "=") = _
  rw [h]
  rfl

theorem text_part (l : Layout) (n : String) : String.ofList (part l n).text = l.namePart n := by
  unfold part Layout.namePart
  split
  · rfl
  · exact String.ofList_toList

theorem name_eq_intersperse (l : Layout) : ∀ parts : List String,
    name l parts = (parts.map (part l)).intersperse (symbol .dot)
  | [] => rfl
  | [_] => rfl
  | p :: q :: ps => by
    have ih := name_eq_intersperse l (q :: ps)
    simp [name, ih]

theorem join_name (l : Layout) (parts : List String) :
    Piece.join (name l parts) = ".".intercalate (parts.map l.namePart) := by
  have hp : parts.map (fun p => String.ofList (part l p).text) = parts.map l.namePart :=
    List.map_congr_left fun p _ => text_part l p
  rw [name_eq_intersperse, Piece.join_intersperse, List.map_map]
  exact congrArg _ hp

theorem name_write (n : Name) (w : Writer) : n.write w = w.put (name w.layout n.parts) := by
  rw [put, join_name]
  rfl

theorem literal_write (v : Literal) (w : Writer) : v.write w = w.put [literal w.layout v.value] := by
  obtain ⟨value, span⟩ := v
  cases value with
  | text value =>
    rw [put_piece]
    rfl
  | integer value =>
    rw [put_piece, literal, String.ofList_toList]
    rfl
  | decimal digits =>
    rw [put_piece, literal, String.ofList_toList]
    rfl
  | boolean value =>
    cases value with
    | true => exact keyword_write .true w
    | false => exact keyword_write .false w
  | null => exact keyword_write .null w

theorem key_write (k : Literal) (w : Writer) : k.write w = w.put (key w.layout k) :=
  literal_write k w

theorem setting_write (s : Setting) (w : Writer) : s.write w = w.put (setting w.layout s) := by
  rw [Setting.write, literal_write, equal_write, literal_write, put_put, put_put]
  rfl

/-- The literals of an entry are among those of the list. -/
theorem legible_setting {settings : Listing Setting}
    (h : ∀ v ∈ (Action.set settings).literals, v.value.Legible) {s : Setting}
    (hs : s ∈ settings.items) : s.key.value.Legible ∧ s.value.value.Legible :=
  have hm : ∀ v ∈ [s.key, s.value], v.value.Legible :=
    fun v hv => h v (List.mem_flatMap.2 ⟨s, hs, hv⟩)
  ⟨hm _ (by simp), hm _ (by simp)⟩

theorem solid_setting (l : Layout) {settings : Listing Setting}
    (h : ∀ v ∈ (Action.set settings).literals, v.value.Legible) {s : Setting}
    (hs : s ∈ settings.items) : Solid (setting l s) :=
  (block_setting l (legible_setting h hs).1 (legible_setting h hs).2).last_char

theorem solid_key (l : Layout) {keys : Listing Literal}
    (h : ∀ v ∈ (Action.reset keys).literals, v.value.Legible) {k : Literal}
    (hk : k ∈ keys.items) : Solid (key l k) :=
  (block_literal l (h k hk)).last_char

theorem action_write (a : Action) (w : Writer) (hl : ∀ v ∈ a.literals, v.value.Legible) :
    a.write w = w.put (action w.layout w.lists.length a) := by
  cases a with
  | set settings =>
    show settings.write Setting.write (Sink.keyword Keyword.set.text w) = _
    rw [keyword_write, listing_write (fun l _ => setting l) _ (fun s _ => setting_write s)
      (fun _ hs => solid_setting _ hl hs), put_put, layout_put, lists_put, length_markItem]
    rfl
  | reset keys =>
    show keys.write Literal.write (Sink.keyword Keyword.reset.text w) = _
    rw [keyword_write, listing_write (fun l _ => key l) _ (fun k _ => key_write k)
      (fun _ hk => solid_key _ hl hk), put_put, layout_put, lists_put, length_markItem]
    rfl
  | rename newName =>
    show newName.write (Sink.keyword Keyword.to_.text (Sink.keyword Keyword.rename.text w)) = _
    rw [keyword_write, keyword_write, name_write, put_put, put_put]
    rfl
  | comment text =>
    show text.write (Sink.keyword Keyword.comment.text w) = _
    rw [keyword_write, literal_write, put_put]
    rfl

theorem statement_write (s : Statement) (w : Writer)
    (hl : ∀ v ∈ s.action.literals, v.value.Legible) :
    s.write w = w.put (statement w.layout w.lists.length s) := by
  show s.action.write (s.catalog.write
    (Sink.keyword Keyword.catalog.text (Sink.keyword Keyword.alter.text w))) = _
  rw [keyword_write, keyword_write, name_write, action_write _ _ hl, put_put, put_put, put_put,
    layout_put, lists_put, length_markItem]
  simp [statement]

end Writer

/-- The text of a statement is the text of its spelling. -/
theorem Statement.text_eq {s : Statement} (h : ∀ v ∈ s.action.literals, v.value.Legible)
    (l : Layout) : l.text s.write = Piece.join (Spelling.statement l 0 s) := by
  rw [Layout.text, Writer.statement_write s _ h]
  simp [Writer.put, Writer.token, Writer.beginToken]

end AlterCatalog
