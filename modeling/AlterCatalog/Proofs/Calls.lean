import AlterCatalog.Proofs.Legible
import AlterCatalog.Statement.Printer

/-!
# The calls of a statement

A statement makes the same calls on every sink, apart from the frame that a list is given there.
Its names and literals make theirs in the order of the walk. All other calls shape the statement:
its fixed words, and the opening, the items and the closing of a list.
-/

namespace AlterCatalog

/-! ## Kinds of calls -/

namespace Call

def isFrame : Call → Bool
  | openList _ _ _ | closeList _ => true
  | keyword _ | name _ | literal _ | separator _ | lineBreak => false

/-- Calls about the layout of lists. -/
def isLayout : Call → Bool
  | separator _ | lineBreak | openList _ _ _ | closeList _ => true
  | keyword _ | name _ | literal _ => false

def fixedWords : List String :=
  ["ALTER", "CATALOG", "SET", "RESET", "RENAME", "TO", "COMMENT", "="]

/-- Calls that carry a name or a literal, of which some are words. -/
def isOperand : Call → Bool
  | keyword text => text ∉ fixedWords
  | name _ | literal _ => true
  | separator _ | lineBreak | openList _ _ _ | closeList _ => false

/-- A list: a separator and a line break before each item, and one more line break at the end. -/
def ofList (frame : Frame) (items : List (List Call)) : List Call :=
  openList "(" ")" frame :: ((items.flatMap fun i => separator "," :: lineBreak :: i) ++
    [lineBreak, closeList frame])

/-- Calls that close each list they open, the innermost first, with the frame it was given. -/
inductive Balanced : List Call → Prop
  | nil : Balanced []
  | call {c : Call} : c.isFrame = false → Balanced [c]
  | list {opening closing : String} {frame : Frame} {cs : List Call} : Balanced cs →
      Balanced (openList opening closing frame :: (cs ++ [closeList frame]))
  | append {as bs : List Call} : Balanced as → Balanced bs → Balanced (as ++ bs)

end Call

/-! ## What is called for -/

def Literal.call (l : Literal) : Call :=
  match l.value with
  | .text value => .literal (Quoted.string value)
  | .integer value => .literal (toString value.toInt)
  | .decimal digits => .literal digits
  | .boolean true => .keyword "TRUE"
  | .boolean false => .keyword "FALSE"
  | .null => .keyword "NULL"

def Name.call (n : Name) : Call := .name n.parts

def Setting.calls (s : Setting) : List Call := [s.key.call, .keyword "=", s.value.call]

def Action.calls (frame : Frame) : Action → List Call
  | .set settings => .keyword "SET" :: Call.ofList frame (settings.items.map Setting.calls)
  | .reset keys => .keyword "RESET" :: Call.ofList frame (keys.items.map fun k => [k.call])
  | .rename newName => [.keyword "RENAME", .keyword "TO", newName.call]
  | .comment text => [.keyword "COMMENT", text.call]

/-- The calls of a statement on a sink that gives its list a frame. -/
def Statement.callsWith (frame : Frame) (s : Statement) : List Call :=
  .keyword "ALTER" :: .keyword "CATALOG" :: s.catalog.call :: s.action.calls frame

/-! ## Recorded writing -/

/-- A writing that makes the given calls on any recorded sink and leaves the sink inside as it
leaves a sink by itself. -/
def Records {σ : Type} (recorded : Recorded σ → Recorded σ) (write : σ → σ)
    (cs : List Call) : Prop :=
  ∀ r, recorded r = ⟨write r.sink, r.calls ++ cs⟩

theorem Records.comp {σ : Type} {f f' : Recorded σ → Recorded σ} {g g' : σ → σ} {cs cs' : List Call}
    (h : Records f g cs) (h' : Records f' g' cs') :
    Records (fun r => f' (f r)) (fun w => g' (g w)) (cs ++ cs') := by
  intro r
  show f' (f r) = _
  rw [h r, h', List.append_assoc]

section
variable {σ : Type} [Sink σ]

theorem records_keyword (text : String) :
    Records (σ := σ) (Sink.keyword text) (Sink.keyword text) [.keyword text] := fun _ => rfl

theorem records_itemBreak :
    Records (σ := σ) Sink.itemBreak Sink.itemBreak [.separator ",", .lineBreak] := by
  intro r
  simp [Sink.itemBreak, Sink.separator, Sink.lineBreak]

theorem records_name (n : Name) : Records (σ := σ) n.write n.write [n.call] := fun _ => rfl

theorem records_literal (l : Literal) : Records (σ := σ) l.write l.write [l.call] := by
  obtain ⟨value, span⟩ := l
  cases value with
  | boolean value => cases value <;> exact fun _ => rfl
  | _ => exact fun _ => rfl

theorem records_setting (s : Setting) : Records (σ := σ) s.write s.write s.calls :=
  (records_literal s.key).comp ((records_keyword "=").comp (records_literal s.value))

section
variable {α : Type} {item : α → Recorded σ → Recorded σ} {item' : α → σ → σ}
  {calls : α → List Call} (h : ∀ a, Records (item a) (item' a) (calls a))
include h

theorem records_items : ∀ as : List α,
    Records (fun r => as.foldl (fun r a => item a (Sink.itemBreak r)) r)
      (fun w => as.foldl (fun w a => item' a (Sink.itemBreak w)) w)
      ((as.map calls).flatMap fun i => .separator "," :: .lineBreak :: i)
  | [] => by
    intro r
    simp
  | a :: as => (records_itemBreak.comp (h a)).comp (records_items as)

/-- The frame of a list is what the sink itself gives when it opens the list. -/
theorem listing_recorded (l : Listing α) (r : Recorded σ) : l.write item r =
    ⟨l.write item' r.sink,
      r.calls ++ Call.ofList (Sink.openList "(" ")" r.sink).1 (l.items.map calls)⟩ := by
  have hbody := records_items h l.items (Sink.openList "(" ")" r).2
  simp only [Listing.write, Sink.withList] at hbody ⊢
  rw [hbody]
  simp [Call.ofList, Sink.openList, Sink.lineBreak, Sink.closeList]

end

theorem action_recorded (a : Action) (r : Recorded σ) :
    ∃ frame, a.write r = ⟨a.write r.sink, r.calls ++ a.calls frame⟩ := by
  cases a with
  | set settings =>
    refine ⟨(Sink.openList "(" ")" (Sink.keyword "SET" r.sink)).1,
      (listing_recorded records_setting settings (Sink.keyword "SET" r)).trans ?_⟩
    rw [records_keyword, List.append_assoc]
    rfl
  | reset keys =>
    refine ⟨(Sink.openList "(" ")" (Sink.keyword "RESET" r.sink)).1,
      (listing_recorded records_literal keys (Sink.keyword "RESET" r)).trans ?_⟩
    rw [records_keyword, List.append_assoc]
    rfl
  | rename newName =>
    exact ⟨Session.noFrame, (records_keyword "RENAME").comp
      ((records_keyword "TO").comp (records_name newName)) r⟩
  | comment text =>
    exact ⟨Session.noFrame, (records_keyword "COMMENT").comp (records_literal text) r⟩

theorem statement_recorded (s : Statement) (r : Recorded σ) :
    ∃ frame, s.write r = ⟨s.write r.sink, r.calls ++ s.callsWith frame⟩ := by
  have hname : s.catalog.write (Sink.keyword "CATALOG" (Sink.keyword "ALTER" r)) =
      ⟨s.catalog.write (Sink.keyword "CATALOG" (Sink.keyword "ALTER" r.sink)),
        r.calls ++ [.keyword "ALTER", .keyword "CATALOG", s.catalog.call]⟩ :=
    (records_keyword "ALTER").comp ((records_keyword "CATALOG").comp (records_name s.catalog)) r
  obtain ⟨frame, h⟩ := action_recorded s.action
    (s.catalog.write (Sink.keyword "CATALOG" (Sink.keyword "ALTER" r)))
  refine ⟨frame, h.trans ?_⟩
  rw [hname, List.append_assoc]
  rfl

end

/-! ## Operands -/

theorem isOperand_call (l : Literal) : l.call.isOperand = true := by
  obtain ⟨value, span⟩ := l
  cases value with
  | boolean value => cases value <;> simp [Literal.call, Call.isOperand, Call.fixedWords]
  | null => simp [Literal.call, Call.isOperand, Call.fixedWords]
  | _ => rfl

theorem filter_word {text : String} (h : text ∈ Call.fixedWords) (cs : List Call) :
    (Call.keyword text :: cs).filter Call.isOperand = cs.filter Call.isOperand := by
  rw [List.filter_cons_of_neg]
  simpa [Call.isOperand] using h

theorem filter_ofList (frame : Frame) (items : List (List Call)) :
    (Call.ofList frame items).filter Call.isOperand =
      items.flatMap fun i => i.filter Call.isOperand := by
  simp [Call.ofList, Call.isOperand, List.filter_flatMap]

/-- What a name or literal calls for; every other node has no calls of its own. -/
def Node.operands : Node → List Call
  | name n => [n.call]
  | literal l => [l.call]
  | statement _ | keys _ | settings _ | setting _ => []

theorem filter_setting (s : Setting) :
    s.calls.filter Call.isOperand = [s.key.call, s.value.call] := by
  rw [Setting.calls, List.filter_cons_of_pos (isOperand_call _), filter_word (by decide),
    List.filter_cons_of_pos (isOperand_call _), List.filter_nil]

theorem filter_action (a : Action) (frame : Frame) :
    (a.calls frame).filter Call.isOperand = a.nodes.flatMap Node.operands := by
  cases a with
  | set settings =>
    rw [Action.calls, filter_word (by decide), filter_ofList]
    simp [Action.nodes, List.flatMap_map, filter_setting, List.flatMap_assoc, Node.operands]
  | reset keys =>
    rw [Action.calls, filter_word (by decide), filter_ofList]
    simp [Action.nodes, List.flatMap_map, isOperand_call, Node.operands]
  | rename newName =>
    rw [Action.calls, filter_word (by decide), filter_word (by decide)]
    simp [Action.nodes, Node.operands, Name.call, Call.isOperand]
  | comment text =>
    rw [Action.calls, filter_word (by decide)]
    simp [Action.nodes, Node.operands, isOperand_call]

theorem filter_statement (s : Statement) (frame : Frame) :
    (s.callsWith frame).filter Call.isOperand = s.nodes.flatMap Node.operands := by
  have hname : s.catalog.call.isOperand = true := rfl
  rw [Statement.callsWith, filter_word (by decide), filter_word (by decide),
    List.filter_cons_of_pos hname, filter_action, Statement.nodes_eq]
  rfl

def Node.isLeaf : Node → Bool
  | name _ | literal _ => true
  | statement _ | keys _ | settings _ | setting _ => false

/-- The calls of a node written by itself; a list is not written by itself. -/
def Node.ownCalls {σ : Type} [Sink σ] (w : σ) : Node → List Call
  | statement s => (s.write (⟨w, []⟩ : Recorded σ)).calls
  | name n => (n.write (⟨w, []⟩ : Recorded σ)).calls
  | literal l => (l.write (⟨w, []⟩ : Recorded σ)).calls
  | setting s => (s.write (⟨w, []⟩ : Recorded σ)).calls
  | keys _ | settings _ => []

section
variable {σ : Type} [Sink σ] (w : σ)

theorem ownCalls_literal (l : Literal) : (Node.literal l).ownCalls w = [l.call] :=
  congrArg Recorded.calls (records_literal l ⟨w, []⟩)

theorem ownCalls_setting (s : Setting) : (Node.setting s).ownCalls w = s.calls :=
  congrArg Recorded.calls (records_setting s ⟨w, []⟩)

theorem flatMap_ownCalls_leaves (ns : List Node) :
    (ns.filter Node.isLeaf).flatMap (Node.ownCalls w) = ns.flatMap Node.operands := by
  induction ns with
  | nil => rfl
  | cons n ns ih =>
    rw [List.flatMap_cons, ← ih]
    cases n with
    | literal l =>
      rw [List.filter_cons_of_pos rfl, List.flatMap_cons, ownCalls_literal]
      rfl
    | _ => rfl

end

/-! ## Lists -/

namespace Call

@[simp] theorem isLayout_keyword (text : String) : (keyword text).isLayout = false := rfl

@[simp] theorem isLayout_name (n : Name) : n.call.isLayout = false := rfl

@[simp] theorem isLayout_literal (l : Literal) : l.call.isLayout = false := by
  obtain ⟨value, span⟩ := l
  cases value with
  | boolean value => cases value <;> rfl
  | _ => rfl

theorem isLayout_setting (s : Setting) : ∀ c ∈ s.calls, c.isLayout = false := by
  simp [Setting.calls]

theorem Balanced.cons {c : Call} {cs : List Call} (hc : c.isFrame = false) (h : Balanced cs) :
    Balanced (c :: cs) :=
  .append (.call hc) h

theorem balanced_of_forall {cs : List Call} (h : ∀ c ∈ cs, c.isLayout = false) : Balanced cs := by
  induction cs with
  | nil => exact .nil
  | cons c cs ih =>
    obtain ⟨hc, hcs⟩ := List.forall_mem_cons.1 h
    have hf : c.isFrame = false := by
      cases c with
      | openList => cases hc
      | closeList => cases hc
      | _ => rfl
    exact .cons hf (ih hcs)

theorem balanced_ofList (frame : Frame) {items : List (List Call)}
    (h : ∀ i ∈ items, ∀ c ∈ i, c.isLayout = false) : Balanced (ofList frame items) := by
  have hitems : Balanced (items.flatMap fun i => separator "," :: lineBreak :: i) := by
    induction items with
    | nil => exact .nil
    | cons i items ih =>
      obtain ⟨hi, hitems⟩ := List.forall_mem_cons.1 h
      exact .append (.cons rfl (.cons rfl (balanced_of_forall hi))) (ih hitems)
  have hlast : Balanced [lineBreak] := .call rfl
  have hbody : Balanced (openList "(" ")" frame :: (_ ++ [lineBreak] ++ [closeList frame])) :=
    .list (hitems.append hlast)
  rwa [List.append_assoc] at hbody

end Call

theorem balanced_action (a : Action) (frame : Frame) : Call.Balanced (a.calls frame) := by
  cases a with
  | set settings =>
    refine .cons rfl (Call.balanced_ofList frame (List.forall_mem_map.2 fun s _ => ?_))
    exact Call.isLayout_setting s
  | reset keys => exact .cons rfl (Call.balanced_ofList frame (by simp))
  | rename newName => exact Call.balanced_of_forall (by simp [Action.calls])
  | comment text => exact Call.balanced_of_forall (by simp [Action.calls])

section
variable {σ : Type} [Sink σ] (w : σ)

theorem isLayout_ownCalls {a : Action} {n : Node} (h : n ∈ a.operand.children) :
    ∀ c ∈ n.ownCalls w, c.isLayout = false := by
  cases a with
  | set settings =>
    obtain ⟨s, -, rfl⟩ := List.mem_map.1 h
    rw [ownCalls_setting]
    exact Call.isLayout_setting s
  | reset keys =>
    obtain ⟨k, -, rfl⟩ := List.mem_map.1 h
    simp [ownCalls_literal]
  | rename newName => cases h
  | comment text => cases h

/-- All layout of a statement is that of its list, if it has one. -/
theorem layout_callsWith (s : Statement) (frame : Frame) :
    match s.action with
    | .set _ | .reset _ => ∃ before, (∀ c ∈ before, c.isLayout = false) ∧
        (∀ n ∈ s.action.operand.children, ∀ c ∈ n.ownCalls w, c.isLayout = false) ∧
        s.callsWith frame = before ++
          Call.ofList frame (s.action.operand.children.map (Node.ownCalls w))
    | .rename _ | .comment _ => ∀ c ∈ s.callsWith frame, c.isLayout = false := by
  have hitem := fun (n : Node) (h : n ∈ s.action.operand.children) => isLayout_ownCalls w h
  obtain ⟨span, catalog, action⟩ := s
  cases action with
  | set settings =>
    have hitems : (Action.set settings).operand.children.map (Node.ownCalls w) =
        settings.items.map Setting.calls := by
      simp [Action.operand, Node.children, Function.comp_def, ownCalls_setting]
    refine ⟨[.keyword "ALTER", .keyword "CATALOG", catalog.call, .keyword "SET"], by simp, hitem, ?_⟩
    rw [hitems]
    rfl
  | reset keys =>
    have hitems : (Action.reset keys).operand.children.map (Node.ownCalls w) =
        keys.items.map fun k => [k.call] := by
      simp [Action.operand, Node.children, Function.comp_def, ownCalls_literal]
    refine ⟨[.keyword "ALTER", .keyword "CATALOG", catalog.call, .keyword "RESET"], by simp, hitem, ?_⟩
    rw [hitems]
    rfl
  | rename newName => simp [Statement.callsWith, Action.calls]
  | comment text => simp [Statement.callsWith, Action.calls]

end

/-- **Writing follows the walk.** Whatever the sink, the calls that a statement makes there, less its
fixed words and its layout, are those of the names and literals of its walk, each written by itself
to any sink. A list is closed with the frame that its opening was given, and each of its items stands
after one separator and one line break; there is no other layout. -/
theorem calls_follow_walk {σ τ : Type} [Sink σ] [Sink τ] (s : Statement) (w : σ) (v : τ) :
    let written := s.write (⟨w, []⟩ : Recorded σ)
    written.sink = s.write w ∧
    written.calls.filter Call.isOperand = (s.nodes.filter Node.isLeaf).flatMap (Node.ownCalls v) ∧
    Call.Balanced written.calls ∧
    ∃ frame, match s.action with
    | .set _ | .reset _ => ∃ before, (∀ c ∈ before, c.isLayout = false) ∧
        (∀ n ∈ s.action.operand.children, ∀ c ∈ n.ownCalls v, c.isLayout = false) ∧
        written.calls = before ++
          Call.ofList frame (s.action.operand.children.map (Node.ownCalls v))
    | .rename _ | .comment _ => ∀ c ∈ written.calls, c.isLayout = false := by
  obtain ⟨frame, h⟩ := statement_recorded s (⟨w, []⟩ : Recorded σ)
  simp only [h, List.nil_append]
  refine ⟨trivial, ?_, ?_, frame, layout_callsWith v s frame⟩
  · rw [filter_statement, flatMap_ownCalls_leaves]
  · exact .cons rfl (.cons rfl (.cons rfl (balanced_action s.action frame)))

end AlterCatalog
