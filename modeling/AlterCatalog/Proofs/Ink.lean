import AlterCatalog.Layout.Writer

/-!
# What the layout of lines leaves alone

Two layouts that differ in line breaks and in indentation alone lay out the same calls with the same
ink: the texts differ in spaces and line feeds only. Whether a separator is written depends on the
open lists, and these take the same course in both. The one step that takes text away, where a list
ends, takes away spaces.
-/

namespace AlterCatalog

/-! ## Ink -/

/-- The characters of a text that are neither spaces nor line feeds. -/
def ink (text : String) : List Char := text.toList.filter fun c => c ≠ ' ' ∧ c ≠ '\n'

@[simp] theorem ink_append (s t : String) : ink (s ++ t) = ink s ++ ink t := by
  unfold ink
  rw [String.toList_append, List.filter_append]

@[simp] theorem ink_spaces (n : Nat) : ink (spaces n) = [] := by
  simp [ink, spaces]

@[simp] theorem ink_space : ink " " = [] := rfl

@[simp] theorem ink_newline : ink "\n" = [] := rfl

theorem ink_trimEnd (text : String) :
    ink (String.ofList (trimEnd (· == ' ') text.toList)) = ink text := by
  obtain ⟨rest, ht, hr⟩ := exists_eq_trimEnd_append (· == ' ') text.toList
  have spaces : rest.filter (fun c => c ≠ ' ' ∧ c ≠ '\n') = [] := by
    apply List.filter_eq_nil_iff.2
    intro c hc
    simp [beq_iff_eq.1 (hr c hc)]
  unfold ink
  rw [String.toList_ofList]
  generalize trimEnd (· == ' ') text.toList = kept at ht ⊢
  rw [ht, List.filter_append, spaces, List.append_nil]

namespace Writer

@[simp] theorem ink_realign (w : Writer) (depth : Nat) : ink (w.realign depth) = ink w.text := by
  unfold realign beforeIndentation?
  by_cases h : (trimEnd (· == ' ') w.text.toList).getLast? = some '\n'
  · simp [h, indentation, ink_trimEnd]
  · simp [h]

/-! ## Writers of one ink -/

/-- Writers that differ in spaces, line feeds and the layout of lines. -/
structure Alike (w v : Writer) : Prop where
  keywordCase : w.layout.keywordCase = v.layout.keywordCase
  quoteAll : w.layout.quoteAll = v.layout.quoteAll
  lists : w.lists = v.lists
  text : ink w.text = ink v.text

theorem ink_beginToken (w : Writer) : ink w.beginToken.text = ink w.text := by
  unfold beginToken
  cases w.spacePending <;> simp

namespace Alike

variable {w v : Writer} (h : Alike w v)
include h

theorem token (text : String) : Alike (w.token text) (v.token text) where
  keywordCase := h.keywordCase
  quoteAll := h.quoteAll
  lists := congrArg markItem h.lists
  text := by simp [Writer.token, ink_beginToken, h.text]

theorem keyword (text : String) : Alike (Sink.keyword text w) (Sink.keyword text v) := by
  show Alike (w.token (w.layout.keywordCase.apply text)) (v.token (v.layout.keywordCase.apply text))
  rw [h.keywordCase]
  exact h.token _

theorem name (parts : List String) : Alike (Sink.name parts w) (Sink.name parts v) := by
  have hp : w.layout.namePart = v.layout.namePart := by
    funext part
    unfold Layout.namePart
    rw [h.quoteAll]
  show Alike (w.token (".".intercalate (parts.map w.layout.namePart)))
    (v.token (".".intercalate (parts.map v.layout.namePart)))
  rw [hp]
  exact h.token _

theorem separator (text : String) : Alike (w.separator text) (v.separator text) := by
  have ht : ink (w.text ++ text) = ink (v.text ++ text) := by
    rw [ink_append, ink_append, h.text]
  unfold Writer.separator
  rw [← h.lists]
  split
  · exact h
  · exact ⟨h.keywordCase, h.quoteAll, rfl, ht⟩

theorem lineBreak : Alike w.lineBreak v.lineBreak := by
  have hi : ∀ u : Writer, ink (u.text ++ "\n" ++ u.indentation u.lists.length) = ink u.text := by
    intro u
    simp [indentation]
  -- The layouts may differ in whether they break lines at all.
  unfold Writer.lineBreak
  split <;> split <;> exact ⟨h.keywordCase, h.quoteAll, h.lists, by simp [hi, h.text]⟩

theorem openList (opening closing : String) :
    (w.openList opening closing).1 = (v.openList opening closing).1 ∧
      Alike (w.openList opening closing).2 (v.openList opening closing).2 := by
  have ht : ink (w.beginToken.text ++ opening) = ink (v.beginToken.text ++ opening) := by
    simp [ink_beginToken, h.text]
  have hl : w.beginToken.lists = v.beginToken.lists := congrArg markItem h.lists
  unfold Writer.openList
  rw [h.lists, hl]
  exact ⟨rfl, h.keywordCase, h.quoteAll, rfl, ht⟩

theorem closeList : Alike w.closeList v.closeList := by
  unfold Writer.closeList
  rw [← h.lists]
  cases w.lists with
  | nil => exact h
  | cons list lists => exact ⟨h.keywordCase, h.quoteAll, rfl, by simp [h.text]⟩

end Alike

end Writer

/-! ## Sessions of one ink -/

namespace Session

/-- Sessions on alike writers that hold the same frames. -/
def Alike (s r : Session Writer) : Prop := s.sink.Alike r.sink ∧ s.held = r.held

theorem Alike.perform {s r : Session Writer} (h : s.Alike r) (request : Request) :
    (s.perform request).Alike (r.perform request) := by
  obtain ⟨hw, hh⟩ := h
  cases request with
  | keyword text => exact ⟨hw.keyword text, hh⟩
  | name parts => exact ⟨hw.name parts, hh⟩
  | literal text => exact ⟨hw.token text, hh⟩
  | separator text => exact ⟨hw.separator text, hh⟩
  | lineBreak => exact ⟨hw.lineBreak, hh⟩
  | itemBreak => exact ⟨(hw.separator ",").lineBreak, hh⟩
  | openList opening closing =>
    obtain ⟨hf, ho⟩ := hw.openList opening closing
    refine ⟨ho, ?_⟩
    show _ :: s.held = _ :: r.held
    rw [hh]
    exact congrArg (· :: r.held) hf
  | closeList => exact ⟨hw.closeList, congrArg List.tail hh⟩

theorem Alike.run : ∀ {s r : Session Writer}, s.Alike r → ∀ requests : List Request,
    (s.run requests).Alike (r.run requests)
  | _, _, h, [] => h
  | _, _, h, request :: requests => (h.perform request).run requests

/-- A session on a new writer. -/
def start (l : Layout) : Session Writer := ⟨{ layout := l }, []⟩

end Session

/-- **Layouts of lines change white space only.** After any requests, in any order, two layouts that
differ in line breaks and in indentation have written the same text up to spaces and line feeds, and
have the same lists open, with the same frames for them. -/
theorem run_ink (l : Layout) (pretty : Bool) (indentWidth : UInt64) (requests : List Request) :
    let s := (Session.start l).run requests
    let r := (Session.start { l with pretty, indentWidth }).run requests
    ink s.sink.text = ink r.sink.text ∧ s.sink.lists = r.sink.lists ∧ s.held = r.held := by
  have new : (Session.start l).Alike (Session.start { l with pretty, indentWidth }) :=
    ⟨⟨rfl, rfl, rfl, rfl⟩, rfl⟩
  obtain ⟨hw, hh⟩ := new.run requests
  exact ⟨hw.text, hw.lists, hh⟩

end AlterCatalog
