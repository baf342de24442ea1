import AlterCatalog.Proofs.Admission
import Mathlib.Data.List.Forall2
import Mathlib.Data.List.Perm.Basic

/-!
# Literals that are no texts

A key, a value or a comment may be written as a literal of any kind, and three readers meet the ones
that are no texts. The walk meets them as nodes, resolving a statement stops at the first of them,
and validation tells of each with one fault of the typing category. Resolving takes the literals in
the order of the walk; validation takes a value before its key, so its faults come in another order.
-/

namespace AlterCatalog

def Literal.isMismatched (l : Literal) : Bool := l.kind ≠ .text

def Node.mismatched? : Node → Option Literal
  | literal l => if l.isMismatched then some l else none
  | _ => none

/-- The literals other than texts that the walk meets, in its order. -/
def Statement.mismatched (s : Statement) : List Literal := s.nodes.filterMap Node.mismatched?

/-- The faults that validation reports. -/
def Statement.reported (s : Statement) : List Fault :=
  match s.validate with
  | .ok _ => []
  | .error faults => faults

/-- A fault that tells of a literal that it is no text. -/
def Fault.TellsOf (f : Fault) (l : Literal) : Prop :=
  f.location = l.span.start ∧ ∃ role, f = .notText role l

theorem Statement.reported_eq (s : Statement) : s.reported = s.faults := by
  unfold reported validate
  by_cases h : s.faults = [] <;> simp [h]

/-! ## The walk -/

theorem filterMap_mismatched?_literal (ls : List Literal) :
    (ls.map Node.literal).filterMap Node.mismatched? = ls.filter Literal.isMismatched := by
  rw [List.filterMap_map, ← List.filterMap_eq_filter]
  rfl

theorem filterMap_mismatched?_setting (ss : List Setting) :
    (ss.flatMap fun s => [.setting s, .literal s.key, .literal s.value]).filterMap
        Node.mismatched? =
      (ss.flatMap fun s => [s.key, s.value]).filter Literal.isMismatched := by
  rw [List.filterMap_flatMap, List.filter_flatMap]
  exact List.flatMap_congr fun s _ => filterMap_mismatched?_literal [s.key, s.value]

theorem Statement.mismatched_eq (s : Statement) :
    s.mismatched = s.action.literals.filter Literal.isMismatched := by
  rw [mismatched, nodes_eq]
  cases s.action with
  | set settings => exact filterMap_mismatched?_setting settings.items
  | reset keys => exact filterMap_mismatched?_literal keys.items
  | rename newName => rfl
  | comment text => exact filterMap_mismatched?_literal [text]

theorem Statement.mem_mismatched {s : Statement} {l : Literal} :
    l ∈ s.mismatched ↔ .literal l ∈ s.nodes ∧ l.kind ≠ .text := by
  rw [mismatched_eq, List.mem_filter, literal_mem_nodes]
  simp [Literal.isMismatched]

/-! ## Resolving -/

/-- What is refused at the first of some literals that is no text. -/
def firstMismatch (ls : List Literal) : Option NodeError :=
  (ls.filter Literal.isMismatched).head?.map fun l => .mismatch .text l.kind

theorem firstMismatch_append (ls ms : List Literal) :
    firstMismatch (ls ++ ms) = (firstMismatch ls).or (firstMismatch ms) := by
  simp only [firstMismatch, List.filter_append, List.head?_append, Option.map_or]

theorem Literal.asText_eq_error_iff (l : Literal) (e : NodeError) :
    l.asText = .error e ↔ firstMismatch [l] = some e := by
  obtain ⟨value, span⟩ := l
  cases value <;>
    simp [asText, firstMismatch, isMismatched, kind, LiteralValue.kind]

/-- Reading a list stops where reading its first literal that is no text does. -/
theorem mapM_eq_error_iff {α β : Type} {f : α → Except NodeError β} {literals : α → List Literal}
    (h : ∀ a e, f a = .error e ↔ firstMismatch (literals a) = some e) (e : NodeError) :
    ∀ as : List α, as.mapM f = .error e ↔ firstMismatch (as.flatMap literals) = some e
  | [] => by simp [firstMismatch, pure, Except.pure]
  | a :: as => by
    have ih := mapM_eq_error_iff h e as
    rw [List.mapM_cons, List.flatMap_cons, firstMismatch_append]
    cases ha : f a with
    | error e' =>
      rw [(h a e').1 ha]
      simp [bind, Except.bind]
    | ok b =>
      have none : firstMismatch (literals a) = none := by
        rw [Option.eq_none_iff_forall_ne_some]
        intro e' he
        rw [(h a e').2 he] at ha
        cases ha
      rw [none, Option.none_or, ← ih]
      cases as.mapM f <;> simp [bind, Except.bind, pure, Except.pure]

theorem Setting.entry_eq_error_iff (s : Setting) (e : NodeError) :
    s.entry = .error e ↔ firstMismatch [s.key, s.value] = some e := by
  have h := mapM_eq_error_iff Literal.asText_eq_error_iff e [s.key, s.value]
  rw [List.flatMap_singleton'] at h
  rw [← h, entry, List.mapM_cons, List.mapM_cons, List.mapM_nil]
  cases s.key.asText <;> cases s.value.asText <;> simp [bind, Except.bind, pure, Except.pure]

theorem map_eq_error_iff {ε α β : Type} {x : Except ε α} {f : α → β} {e : ε} :
    x.map f = .error e ↔ x = .error e := by
  cases x <;> simp [Except.map]

theorem Action.effect_eq_error_iff (a : Action) (e : NodeError) :
    a.effect = .error e ↔ firstMismatch a.literals = some e := by
  cases a with
  | set settings =>
    rw [effect, map_eq_error_iff, setProperties, map_eq_error_iff]
    exact mapM_eq_error_iff Setting.entry_eq_error_iff e settings.items
  | reset keys =>
    rw [effect, map_eq_error_iff, resetKeys, map_eq_error_iff,
      mapM_eq_error_iff Literal.asText_eq_error_iff, List.flatMap_singleton', literals]
  | rename newName => simp [effect, literals, firstMismatch]
  | comment text =>
    rw [effect, map_eq_error_iff]
    exact text.asText_eq_error_iff e

theorem Statement.change_eq_error_iff (s : Statement) (e : NodeError) :
    s.change = .error e ↔
      s.mismatched.head?.map (fun l => .mismatch .text l.kind) = some e := by
  rw [change, map_eq_error_iff, Action.effect_eq_error_iff, mismatched_eq]
  rfl

/-! ## Validation -/

/-- The literals of an action in the order in which validation takes them. -/
def Action.visited : Action → List Literal
  | set settings => settings.items.flatMap fun s => [s.value, s.key]
  | reset keys => keys.items
  | rename _ => []
  | comment text => [text]

theorem Action.visited_perm (a : Action) : a.visited.Perm a.literals := by
  cases a with
  | set settings => exact List.Perm.flatMap_left _ fun s _ => List.Perm.swap s.key s.value []
  | _ => exact List.Perm.refl _

namespace Validation

def typing (faults : List Fault) : List Fault := faults.filter fun f => f.category = .typing

/-- Faults that tell of the literals one by one that they are no texts. -/
def Tell (faults : List Fault) (ls : List Literal) : Prop :=
  List.Forall₂ Fault.TellsOf (typing faults) (ls.filter Literal.isMismatched)

theorem Tell.append {fs gs : List Fault} {ls ms : List Literal} (h : Tell fs ls) (h' : Tell gs ms) :
    Tell (fs ++ gs) (ls ++ ms) := by
  unfold Tell typing
  rw [List.filter_append, List.filter_append]
  exact List.rel_append h h'

theorem Tell.flatMap {α : Type} {faults : α → List Fault} {ls : α → List Literal}
    (h : ∀ a, Tell (faults a) (ls a)) : ∀ as : List α, Tell (as.flatMap faults) (as.flatMap ls)
  | [] => .nil
  | a :: as => (h a).append (Tell.flatMap h as)

theorem tell_textFaults (role : Role) (l : Literal) : Tell (textFaults role l) [l] := by
  obtain ⟨value, span⟩ := l
  cases value with
  | text value => exact .nil
  | _ => exact .cons ⟨rfl, role, rfl⟩ .nil

theorem tell_keyFaults (l : Literal) : Tell (keyFaults l) [l] := by
  obtain ⟨value, span⟩ := l
  cases value with
  | text value =>
    unfold keyFaults
    dsimp only
    -- An empty key has a fault, but of another category.
    split <;> exact .nil
  | _ => exact .cons ⟨rfl, .key, rfl⟩ .nil

theorem tell_actionFaults (catalog : Name) (a : Action) :
    Tell (actionFaults catalog a) a.visited := by
  cases a with
  | set settings =>
    exact Tell.flatMap (fun s => (tell_textFaults .value s.value).append (tell_keyFaults s.key))
      settings.items
  | reset keys =>
    have h := Tell.flatMap tell_keyFaults keys.items
    rwa [List.flatMap_singleton'] at h
  | rename newName =>
    by_cases h : catalog.same newName = true
    · rw [actionFaults, if_pos h]
      exact .nil
    · rw [actionFaults, if_neg h]
      exact .nil
  | comment text => exact tell_textFaults .comment text

theorem tell_nameFaults (n : Node) : Tell (nameFaults n) [] := by
  unfold nameFaults
  split
  · split <;> exact .nil
  · exact .nil

end Validation

theorem Statement.tell_reported (s : Statement) : Validation.Tell s.reported s.action.visited := by
  have names := Validation.Tell.flatMap Validation.tell_nameFaults s.nodes
  rw [List.flatMap_eq_nil_iff.2 fun _ _ => rfl] at names
  rw [reported_eq, faults]
  exact names.append (Validation.tell_actionFaults s.catalog s.action)

/-- **A literal that is no text is one fact for three readers.** Resolving a statement fails exactly
when the walk meets such a literal, and then for the first of them; validation has as many faults of
the typing category, one at the start of each; and a rename has none. -/
theorem mismatch_everywhere (s : Statement) :
    ((∃ e, s.change = .error e) ↔ ∃ l, .literal l ∈ s.nodes ∧ l.kind ≠ .text) ∧
    (∀ e, s.change = .error e ↔
      s.mismatched.head?.map (fun l => .mismatch .text l.kind) = some e) ∧
    (Validation.typing s.reported).length = s.mismatched.length ∧
    (∃ ls, ls.Perm s.mismatched ∧
      List.Forall₂ Fault.TellsOf (Validation.typing s.reported) ls) ∧
    ∀ n, s.action = .rename n → ∃ c, s.change = .ok c := by
  have perm : (s.action.visited.filter Literal.isMismatched).Perm s.mismatched := by
    rw [s.mismatched_eq]
    exact s.action.visited_perm.filter _
  refine ⟨?_, s.change_eq_error_iff, s.tell_reported.length_eq.trans perm.length_eq,
    ⟨_, perm, s.tell_reported⟩, ?_⟩
  · simp only [s.change_eq_error_iff, ← Statement.mem_mismatched]
    cases s.mismatched <;> simp
  · intro n hn
    rw [Statement.change, hn]
    exact ⟨_, rfl⟩

theorem mismatch_everywhere_key_and_value :
    let s : Statement := ⟨{}, ⟨["c"], {}⟩, .set ⟨[⟨⟨.integer 1, {}⟩, ⟨.null, {}⟩, {}⟩], {}⟩⟩
    s.change = .error (.mismatch .text .integer) ∧ (Validation.typing s.reported).length = 2 := by
  intro s
  have first : s.mismatched.head? = some ⟨.integer 1, {}⟩ := by decide +kernel
  have both : s.mismatched.length = 2 := by decide +kernel
  obtain ⟨-, change, count, -⟩ := mismatch_everywhere s
  exact ⟨(change _).2 (by rw [first]; rfl), count.trans both⟩

end AlterCatalog
