import AlterCatalog.Proofs.Ink

/-!
# Lists and the frames for them

A caller that closes the innermost of its lists first holds one frame for each list that the writer
has open, in the same order, so the writer is always given the frame it wants. A list that is run by
`withList` is closed with its own frame however its body ends, and what comes of it is again a run of
such requests. The writer takes nothing back but spaces, and these only right after a line feed.
-/

namespace AlterCatalog

/-! ## Callers -/

/-- What a caller does with a sink. Once it leaves, what it had still to do is not done. -/
inductive Caller where
  | done
  | leave
  | ask (request : Request)
  | andThen (first next : Caller)
  /-- Runs a body inside a list, and leaves with the body if it is told to. -/
  | withList (opening closing : String) (body : Caller) (leaveToo : Bool)

namespace Caller

/-- The session afterwards, and whether the caller left early. The body of a list is given the sink
alone: the frame of the list is out of its reach. -/
def run {σ : Type} [Sink σ] : Caller → Session σ → Session σ × Bool
  | done, s => (s, false)
  | leave, s => (s, true)
  | ask request, s => (s.perform request, false)
  | andThen first next, s =>
    if (first.run s).2 then first.run s else next.run (first.run s).1
  | withList opening closing body leaveToo, s =>
    let inside : σ → Session σ × Bool := fun w => body.run ⟨w, []⟩
    ({ s with sink := Sink.withList opening closing (fun w => (inside w).1.sink) s.sink },
      leaveToo && (inside (Sink.openList opening closing s.sink).2).2)

def leaves : Caller → Bool
  | leave => true
  | andThen first next => first.leaves || next.leaves
  | withList _ _ body leaveToo => leaveToo && body.leaves
  | done | ask _ => false

/-- All requests that come of it, those for the lists of `withList` included. -/
def requests : Caller → List Request
  | done | leave => []
  | ask request => [request]
  | andThen first next => if first.leaves then first.requests else first.requests ++ next.requests
  | withList opening closing body _ =>
    .openList opening closing :: (body.requests ++ [.closeList])

end Caller

namespace Request

/-- How many lists of its own a caller has open after a request; it cannot close another's. -/
def ownLists : Nat → Request → Option Nat
  | n, openList _ _ => some (n + 1)
  | 0, closeList => none
  | n + 1, closeList => some n
  | n, keyword _ | n, name _ | n, literal _ | n, separator _ | n, lineBreak | n, itemBreak => some n

/-- The texts of the lists that are open after a request, the innermost first. -/
def openTexts : List (String × String) → Request → List (String × String)
  | texts, openList opening closing => (opening, closing) :: texts
  | texts, closeList => texts.tail
  | texts, keyword _ | texts, name _ | texts, literal _ | texts, separator _ | texts, lineBreak
  | texts, itemBreak => texts

end Request

/-- The bodies of lists close every list that they open, and no others. -/
def Caller.Tidy : Caller → Prop
  | done | leave | ask _ => True
  | andThen first next => first.Tidy ∧ (first.leaves = false → next.Tidy)
  | withList _ _ body _ => body.Tidy ∧ body.requests.foldlM Request.ownLists 0 = some 0

namespace Session

section
variable {σ : Type} [Sink σ]

theorem run_append (s : Session σ) (rs rs' : List Request) :
    s.run (rs ++ rs') = (s.run rs).run rs' := by
  unfold run
  rw [List.foldl_append]

theorem run_cons (s : Session σ) (r : Request) (rs : List Request) :
    s.run (r :: rs) = (s.perform r).run rs := rfl

/-- A request that closes no list but the caller's own leaves the frames of others alone. -/
theorem perform_outer {w : σ} {own : List Frame} {n : Nat} {r : Request}
    (h : r.ownLists own.length = some n) (outer : List Frame) :
    perform ⟨w, own ++ outer⟩ r =
      ⟨(perform ⟨w, own⟩ r).sink, (perform ⟨w, own⟩ r).held ++ outer⟩ ∧
    (perform ⟨w, own⟩ r).held.length = n := by
  cases r with
  | openList opening closing => exact ⟨rfl, Option.some.inj h⟩
  | closeList =>
    cases own with
    | nil => cases h
    | cons frame own => exact ⟨rfl, Option.some.inj h⟩
  | _ => exact ⟨rfl, Option.some.inj h⟩

theorem run_outer : ∀ (rs : List Request) {w : σ} {own : List Frame} {n : Nat},
    rs.foldlM Request.ownLists own.length = some n → ∀ outer : List Frame,
      run ⟨w, own ++ outer⟩ rs = ⟨(run ⟨w, own⟩ rs).sink, (run ⟨w, own⟩ rs).held ++ outer⟩ ∧
      (run ⟨w, own⟩ rs).held.length = n
  | [], _, _, _, h, _ => ⟨rfl, Option.some.inj h⟩
  | r :: rs, w, own, n, h, outer => by
    obtain ⟨m, hr, hrs⟩ := Option.bind_eq_some_iff.1 h
    obtain ⟨hp, hl⟩ := perform_outer (w := w) hr outer
    rw [← hl] at hrs
    have ih := run_outer rs (w := (perform ⟨w, own⟩ r).sink) hrs outer
    rw [← hp] at ih
    exact ih

end

end Session

/-- What a caller does is to make its requests one by one. A list of `withList` is closed with the
frame that was given for it, whether its body leaves early or not. -/
theorem Caller.run_eq {σ : Type} [Sink σ] : ∀ (p : Caller), p.Tidy → ∀ s : Session σ,
    p.run s = (s.run p.requests, p.leaves)
  | done, _, _ => rfl
  | leave, _, _ => rfl
  | ask _, _, _ => rfl
  | andThen first next, ⟨hfirst, hnext⟩, s => by
    have hf := run_eq first hfirst s
    by_cases hl : first.leaves = true
    · simp [run, requests, leaves, hf, hl]
    · have hn : first.leaves = false := Bool.eq_false_iff.2 hl
      simp [run, requests, leaves, hf, hn, run_eq next (hnext hn), Session.run_append]
  | withList opening closing body leaveToo, ⟨hbody, hown⟩, s => by
    have hb : ∀ w : σ, body.run ⟨w, []⟩ = (Session.run ⟨w, []⟩ body.requests, body.leaves) :=
      fun w => run_eq body hbody _
    have hnone : body.requests.foldlM Request.ownLists ([] : List Frame).length = some 0 := hown
    -- The frames that are held outside stay where they are while the body runs.
    obtain ⟨hr, hl⟩ := Session.run_outer body.requests (w := (Sink.openList opening closing s.sink).2)
      hnone ((Sink.openList opening closing s.sink).1 :: s.held)
    rw [List.nil_append, List.eq_nil_of_length_eq_zero hl] at hr
    have hopen : s.perform (.openList opening closing) =
        ⟨(Sink.openList opening closing s.sink).2,
          (Sink.openList opening closing s.sink).1 :: s.held⟩ := rfl
    rw [requests, Session.run_cons, hopen, Session.run_append, hr, run]
    simp only [hb]
    rfl

/-! ## Open lists -/

namespace Writer

theorem closings_token (text : String) (w : Writer) :
    (w.token text).lists.map OpenList.closing = w.lists.map OpenList.closing := by
  unfold token beginToken
  cases w.lists <;> rfl

theorem closings_separator (text : String) (w : Writer) :
    (w.separator text).lists.map OpenList.closing = w.lists.map OpenList.closing := by
  unfold separator
  split <;> rfl

theorem closings_lineBreak (w : Writer) :
    w.lineBreak.lists.map OpenList.closing = w.lists.map OpenList.closing := by
  unfold lineBreak
  split <;> rfl

theorem closings_openList (opening closing : String) (w : Writer) :
    (w.openList opening closing).2.lists.map OpenList.closing =
      closing :: w.lists.map OpenList.closing := by
  unfold openList beginToken
  cases w.lists <;> rfl

theorem closings_closeList (w : Writer) :
    w.closeList.lists.map OpenList.closing = (w.lists.map OpenList.closing).tail := by
  unfold closeList
  cases h : w.lists with
  | nil => simp [h]
  | cons list lists => rfl

end Writer

namespace Session

/-- The frames that are held are those of the writer's lists, with the given texts. -/
structure Agrees (s : Session Writer) (texts : List (String × String)) : Prop where
  texts : s.held.map (fun frame => (frame.opening, frame.closing)) = texts
  depths : s.held.map Frame.depth = (List.range' 1 s.held.length).reverse
  lists : s.sink.lists.map OpenList.closing = s.held.map Frame.closing

namespace Agrees

variable {s : Session Writer} {texts : List (String × String)} (h : s.Agrees texts)
include h

theorem length : s.sink.lists.length = s.held.length := by
  have hl := congrArg List.length h.lists
  simpa using hl

theorem closeList : (s.perform .closeList).Agrees texts.tail := by
  obtain ⟨w, held⟩ := s
  obtain ⟨rfl, hd, hl⟩ := h
  have hc : w.closeList.lists.map OpenList.closing = held.tail.map Frame.closing := by
    rw [Writer.closings_closeList, List.map_tail]
    exact congrArg List.tail hl
  cases held with
  | nil => exact ⟨rfl, rfl, hc⟩
  | cons frame held =>
    rw [List.length_cons, List.range'_1_concat, List.reverse_concat, List.map_cons] at hd
    exact ⟨rfl, (List.cons.inj hd).2, hc⟩

theorem openList (opening closing : String) :
    (s.perform (.openList opening closing)).Agrees ((opening, closing) :: texts) := by
  have hlength := h.length
  refine ⟨congrArg _ h.texts, ?_, (Writer.closings_openList opening closing _).trans ?_⟩
  · show (s.sink.lists.length + 1) :: s.held.map Frame.depth =
      (List.range' 1 (s.held.length + 1)).reverse
    rw [List.range'_1_concat, List.reverse_concat, h.depths, hlength, Nat.add_comm]
  · exact congrArg _ h.lists

/-- Calls that open and close no list. -/
theorem of_closings {w : Writer}
    (hw : w.lists.map OpenList.closing = s.sink.lists.map OpenList.closing) :
    Agrees ⟨w, s.held⟩ texts :=
  ⟨h.texts, h.depths, hw.trans h.lists⟩

theorem perform (r : Request) : (s.perform r).Agrees (r.openTexts texts) := by
  cases r with
  | keyword text => exact h.of_closings (Writer.closings_token _ _)
  | name parts => exact h.of_closings (Writer.closings_token _ _)
  | literal text => exact h.of_closings (Writer.closings_token _ _)
  | separator text => exact h.of_closings (Writer.closings_separator _ _)
  | lineBreak => exact h.of_closings (Writer.closings_lineBreak _)
  | itemBreak =>
    exact h.of_closings ((Writer.closings_lineBreak _).trans (Writer.closings_separator _ _))
  | openList opening closing => exact h.openList opening closing
  | closeList => exact h.closeList

/-- The frame that is given back is the one that the writer wants. -/
theorem accepts : s.sink.accepts (s.held.headD noFrame) = true := by
  have hd := h.depths
  have hl := h.lists
  have hlength := h.length
  unfold Writer.accepts
  cases hs : s.held with
  | nil =>
    rw [hs] at hl
    have hn : s.sink.lists = [] := List.map_eq_nil_iff.1 hl
    simp [hn, noFrame]
  | cons frame held =>
    rw [hs, List.map_cons] at hl
    obtain ⟨list, lists, hw, hc, -⟩ := List.map_eq_cons_iff.1 hl
    rw [hs, List.length_cons, List.range'_1_concat, List.reverse_concat, List.map_cons] at hd
    have hdepth := (List.cons.inj hd).1
    rw [hs, List.length_cons, hw, List.length_cons] at hlength
    simp [hw, hc, hdepth, hlength, Nat.add_comm]

theorem finished? : s.sink.finished? = if s.held = [] then some s.sink.text else none := by
  have hiff : s.sink.lists.isEmpty = true ↔ s.held = [] := by
    rw [List.isEmpty_iff, ← List.length_eq_zero_iff, h.length, List.length_eq_zero_iff]
  unfold Writer.finished?
  simp [hiff]

end Agrees

theorem Agrees.run : ∀ (rs : List Request) {s : Session Writer} {texts : List (String × String)},
    s.Agrees texts → (s.run rs).Agrees (rs.foldl Request.openTexts texts)
  | [], _, _, h => h
  | r :: rs, _, _, h => (h.perform r).run rs

end Session

/-! ## The text -/

/-- Text with more text after it. -/
def Extends (before after : String) : Prop := ∃ added, after = before ++ added

/-- Text with a closing text after it; the spaces that its last line consists of may be others. -/
def Closes (closing before after : String) : Prop :=
  after = before ++ closing ∨ ∃ kept n m, before = kept ++ "\n" ++ spaces n ∧
    after = kept ++ "\n" ++ spaces m ++ closing

theorem Extends.trans {a b c : String} (h : Extends a b) (h' : Extends b c) : Extends a c := by
  obtain ⟨x, rfl⟩ := h
  obtain ⟨y, rfl⟩ := h'
  exact ⟨x ++ y, String.append_assoc⟩

namespace Writer

theorem extends_beginToken (w : Writer) : Extends w.text w.beginToken.text := by
  unfold beginToken
  by_cases h : w.spacePending = true
  · exact ⟨" ", by simp [h]⟩
  · exact ⟨"", by simp [h]⟩

theorem extends_token (text : String) (w : Writer) : Extends w.text (w.token text).text :=
  (extends_beginToken w).trans ⟨text, rfl⟩

theorem extends_separator (text : String) (w : Writer) : Extends w.text (w.separator text).text := by
  unfold separator
  split
  · exact ⟨"", String.append_empty.symm⟩
  · exact ⟨text, rfl⟩

theorem extends_lineBreak (w : Writer) : Extends w.text w.lineBreak.text := by
  unfold lineBreak
  split
  · exact ⟨"\n" ++ w.indentation w.lists.length, String.append_assoc⟩
  · exact ⟨"", String.append_empty.symm⟩

theorem extends_perform (s : Session Writer) {r : Request} (h : r ≠ .closeList) :
    Extends s.sink.text (s.perform r).sink.text := by
  cases r with
  | keyword text => exact extends_token _ _
  | name parts => exact extends_token _ _
  | literal text => exact extends_token _ _
  | separator text => exact extends_separator _ _
  | lineBreak => exact extends_lineBreak _
  | itemBreak => exact (extends_separator _ _).trans (extends_lineBreak _)
  | openList opening closing => exact extends_token _ _
  | closeList => exact absurd rfl h

theorem realign_cases (w : Writer) (depth : Nat) : w.realign depth = w.text ∨
    ∃ kept n, w.text = kept ++ "\n" ++ spaces n ∧
      w.realign depth = kept ++ "\n" ++ w.indentation depth := by
  by_cases h : (trimEnd (· == ' ') w.text.toList).getLast? = some '\n'
  · obtain ⟨kept, hk⟩ := List.getLast?_eq_some_iff.1 h
    obtain ⟨rest, ht, hr⟩ := exists_eq_trimEnd_append (· == ' ') w.text.toList
    have hspaces : rest = List.replicate rest.length ' ' :=
      List.eq_replicate_iff.2 ⟨rfl, fun c hc => beq_iff_eq.1 (hr c hc)⟩
    have hn : String.ofList (kept ++ ['\n']) = String.ofList kept ++ "\n" := String.ofList_append
    refine .inr ⟨String.ofList kept, rest.length, ?_, ?_⟩
    · rw [← String.ofList_toList (s := w.text), ht, hk, String.ofList_append, hn, spaces, ← hspaces]
    · simp [realign, beforeIndentation?, hk, hn]
  · exact .inl (by simp [realign, beforeIndentation?, h])

theorem closes_closeList {w : Writer} {list : OpenList} {lists : List OpenList}
    (h : w.lists = list :: lists) : Closes list.closing w.text w.closeList.text := by
  have ht : w.closeList.text = w.realign lists.length ++ list.closing := by
    unfold closeList
    simp [h]
  rw [ht]
  rcases realign_cases w lists.length with hr | ⟨kept, n, hw, hr⟩
  · exact .inl (by rw [hr])
  · exact .inr ⟨kept, n, _, hw, by rw [hr, indentation]⟩

theorem trimEnd_prefix_realign (w : Writer) (depth : Nat) :
    trimEnd (· == ' ') w.text.toList <+: (w.realign depth).toList := by
  unfold realign beforeIndentation?
  by_cases h : (trimEnd (· == ' ') w.text.toList).getLast? = some '\n'
  · simp [h]
  · simp [h, trimEnd_isPrefix]

theorem trimEnd_prefix_closeList (w : Writer) :
    trimEnd (· == ' ') w.text.toList <+: w.closeList.text.toList := by
  unfold closeList
  split
  · exact trimEnd_isPrefix _ _
  · dsimp only
    rw [String.toList_append]
    exact (trimEnd_prefix_realign w _).trans (List.prefix_append _ _)

end Writer

namespace Session

theorem closes_perform {s : Session Writer} {texts : List (String × String)} (h : s.Agrees texts)
    {frame : Frame} {held : List Frame} (hs : s.held = frame :: held) :
    Closes frame.closing s.sink.text (s.perform .closeList).sink.text := by
  have hl := h.lists
  rw [hs, List.map_cons] at hl
  obtain ⟨list, lists, hw, hc, -⟩ := List.map_eq_cons_iff.1 hl
  rw [← hc]
  exact Writer.closes_closeList hw

theorem perform_closeList_of_nil {s : Session Writer} {texts : List (String × String)}
    (h : s.Agrees texts) (hs : s.held = []) : s.perform .closeList = s := by
  obtain ⟨w, held⟩ := s
  obtain rfl : held = [] := hs
  have hn : w.lists = [] := List.map_eq_nil_iff.1 h.lists
  show Session.mk w.closeList [] = _
  simp [Writer.closeList, hn]

/-- What a text is without spaces at its end is never taken back. -/
theorem trimEnd_prefix_perform (s : Session Writer) (r : Request) :
    trimEnd (· == ' ') s.sink.text.toList <+: (s.perform r).sink.text.toList := by
  by_cases h : r = .closeList
  · subst h
    exact s.sink.trimEnd_prefix_closeList
  · obtain ⟨added, ht⟩ := Writer.extends_perform s h
    rw [ht, String.toList_append]
    exact (trimEnd_isPrefix _ _).trans (List.prefix_append _ _)

theorem trimEnd_prefix_run : ∀ (rs : List Request) (s : Session Writer),
    trimEnd (· == ' ') s.sink.text.toList <+: (s.run rs).sink.text.toList
  | [], _ => trimEnd_isPrefix _ _
  | r :: rs, s =>
    (trimEnd_prefix_trimEnd (trimEnd_prefix_perform s r)).trans (trimEnd_prefix_run rs (s.perform r))

end Session

/-- **Frames agree with lists.** After any requests the frames that are held are those of the open
lists, one for each, with depths from one on and the texts that the requests opened them with. So
the writer accepts the frame that the next closing gives back, writes the closing text that belongs
to it, and lets its text go exactly when no frame is held. Every request writes on at the end of the
text, except that a closing may exchange the spaces of a last line that has nothing else; so the text
without spaces at its end stays. What callers do with lists of their own bodies, which may leave
early, is a run of such requests on any sink. -/
theorem frames_agree (l : Layout) (requests : List Request) :
    let s := (Session.start l).run requests
    s.Agrees (requests.foldl Request.openTexts []) ∧
    s.sink.accepts (s.held.headD Session.noFrame) = true ∧
    (∀ r, r ≠ .closeList → Extends s.sink.text (s.perform r).sink.text) ∧
    (∀ frame held, s.held = frame :: held →
      Closes frame.closing s.sink.text (s.perform .closeList).sink.text) ∧
    (s.held = [] → s.perform .closeList = s) ∧
    s.sink.finished? = (if s.held = [] then some s.sink.text else none) ∧
    (∀ later, trimEnd (· == ' ') s.sink.text.toList <+: (s.run later).sink.text.toList) ∧
    ∀ {σ : Type} [Sink σ] (p : Caller), p.Tidy → ∀ s : Session σ,
      p.run s = (s.run p.requests, p.leaves) := by
  intro s
  have new : (Session.start l).Agrees [] := ⟨rfl, rfl, rfl⟩
  have h : s.Agrees (requests.foldl Request.openTexts []) := new.run requests
  exact ⟨h, h.accepts, fun r hr => Writer.extends_perform s hr,
    fun frame held hs => Session.closes_perform h hs, Session.perform_closeList_of_nil h, h.finished?,
    fun later => Session.trimEnd_prefix_run later s, fun p hp s => p.run_eq hp s⟩

/-- Two lists, both left early from inside the inner one. -/
theorem frames_agree_left_early :
    let inner : Caller := .andThen (.ask .lineBreak) (.andThen .leave (.ask (.literal "2")))
    let outer : Caller := .andThen (.ask (.literal "1"))
      (.andThen (.withList "(" ")" inner true) (.ask (.literal "3")))
    let p : Caller := .withList "[" "]" outer false
    p.Tidy ∧ (p.run (Session.start {})).1.sink.finished? = some "[1 (\n  )]" := by
  intro inner outer p
  have hinner : inner.Tidy := ⟨trivial, fun _ => ⟨trivial, nofun⟩⟩
  have hp : p.Tidy := ⟨⟨trivial, fun _ => ⟨⟨hinner, rfl⟩, nofun⟩⟩, rfl⟩
  obtain ⟨-, -, -, -, -, hfinished, -, hrun⟩ := frames_agree {} p.requests
  refine ⟨hp, ?_⟩
  rw [hrun p hp, hfinished]
  decide +kernel

end AlterCatalog
