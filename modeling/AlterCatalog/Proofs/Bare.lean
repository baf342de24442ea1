import AlterCatalog.Report
import AlterCatalog.Validation
import Mathlib.Data.List.Basic

/-!
# Spans do not count

Every use of a statement apart from locations is a use of its bare tree: what it is written as, how
it is outlined, what it resolves to and what is found about it. Writing, walking and checking all
commute with forgetting the spans, node by node, so their texts are the texts for the bare tree.
-/

namespace AlterCatalog

/-! ## Writing -/

section
variable {σ : Type} [Sink σ]

theorem Listing.write_bare {α : Type} {item : α → σ → σ} {bare : α → α}
    (h : ∀ a w, item (bare a) w = item a w) (l : Listing α) (w : σ) :
    (l.bare bare).write item w = l.write item w := by
  simp only [write, Listing.bare, List.foldl_map, h]

theorem Action.write_bare (a : Action) (w : σ) : a.bare.write w = a.write w := by
  cases a with
  | set settings =>
    have h : ∀ (s : Setting) (w : σ), s.bare.write w = s.write w := fun _ _ => rfl
    exact Listing.write_bare h settings _
  | reset keys =>
    have h : ∀ (l : Literal) (w : σ), l.bare.write w = l.write w := fun _ _ => rfl
    exact Listing.write_bare h keys _
  | rename newName => rfl
  | comment text => rfl

/-- A statement is written alike with and without its spans, to any sink. -/
theorem Statement.write_bare (s : Statement) (w : σ) : s.bare.write w = s.write w :=
  Action.write_bare s.action _

end

theorem Statement.sql_bare (s : Statement) (l : Layout) : s.bare.sql l = s.sql l := by
  have h : s.bare.write (σ := Page) = s.write := funext fun p => s.write_bare p
  rw [sql, sql, h]

theorem Statement.line_bare (s : Statement) : s.bare.line = s.line := by
  have h : s.bare.write (σ := Writer) = s.write := funext fun w => s.write_bare w
  rw [line, line, h]

/-! ## Walking -/

namespace Node

def bare : Node → Node
  | statement s => .statement s.bare
  | name n => .name n.bare
  | literal l => .literal l.bare
  | keys l => .keys (l.bare Literal.bare)
  | settings l => .settings (l.bare Setting.bare)
  | setting s => .setting s.bare

theorem children_bare (n : Node) : n.bare.children = n.children.map bare := by
  cases n with
  | statement s =>
    obtain ⟨span, catalog, action⟩ := s
    cases action <;> rfl
  | keys l => simp [bare, children, Listing.bare]
  | settings l => simp [bare, children, Listing.bare]
  | _ => rfl

theorem walkFrom_bare (depth : Nat) (n : Node) :
    n.bare.walkFrom depth = (n.walkFrom depth).map fun p => (p.1.bare, p.2) := by
  rw [walkFrom_eq, walkFrom_eq depth n, children_bare, List.map_cons, List.flatMap_map,
    List.map_flatMap]
  refine congrArg _ (List.flatMap_congr fun c hc => ?_)
  have : c.height < n.height := height_lt_of_mem_children hc
  exact walkFrom_bare (depth + 1) c
termination_by n.height

theorem describe_bare (n : Node) : n.bare.describe = n.describe := by
  cases n with
  | statement s =>
    obtain ⟨span, catalog, action⟩ := s
    cases action <;> rfl
  | keys l =>
    have h : (l.bare Literal.bare).items.length = l.items.length := List.length_map Literal.bare
    exact congrArg (fun k => "Literal List: " ++ toString k ++ " items") h
  | settings l =>
    have h : (l.bare Setting.bare).items.length = l.items.length := List.length_map Setting.bare
    exact congrArg (fun k => "Option List: " ++ toString k ++ " items") h
  | _ => rfl

end Node

theorem Statement.walk_bare (s : Statement) : s.bare.walk = s.walk.map fun p => (p.1.bare, p.2) :=
  Node.walkFrom_bare 0 (.statement s)

theorem Statement.nodes_bare (s : Statement) : s.bare.nodes = s.nodes.map Node.bare := by
  rw [nodes, walk_bare, List.map_map, nodes, List.map_map]
  rfl

theorem Statement.outline_bare (s : Statement) : s.bare.outline = s.outline := by
  simp only [outline, walk_bare, List.map_map, Function.comp_def, Node.describe_bare]

/-! ## Resolving -/

theorem resetKeys_bare (keys : Listing Literal) :
    resetKeys (keys.bare Literal.bare) = resetKeys keys := by
  have h : Literal.asText ∘ Literal.bare = Literal.asText := rfl
  rw [resetKeys, Listing.bare, List.mapM_map, h]
  rfl

theorem setProperties_bare (settings : Listing Setting) :
    setProperties (settings.bare Setting.bare) = setProperties settings := by
  have h : Setting.entry ∘ Setting.bare = Setting.entry := rfl
  rw [setProperties, Listing.bare, List.mapM_map, h]
  rfl

theorem Statement.change_bare (s : Statement) : s.bare.change = s.change := by
  have h : s.action.bare.effect = s.action.effect := by
    cases s.action with
    | set settings => simp only [Action.bare, Action.effect, setProperties_bare]
    | reset keys => simp only [Action.bare, Action.effect, resetKeys_bare]
    | rename newName => rfl
    | comment text => rfl
  rw [change, bare, h]
  rfl

/-! ## Checking -/

def Fault.bare : Fault → Fault
  | emptyPart name => .emptyPart name.bare
  | notText role literal => .notText role literal.bare
  | emptyKey key => .emptyKey key.bare
  | renameToSelf catalog newName => .renameToSelf catalog.bare newName.bare

def Warning.bare : Warning → Warning
  | resetAgain key _ => .resetAgain key {}
  | setAgain key _ => .setAgain key {}

theorem Fault.category_bare (f : Fault) : f.bare.category = f.category := by cases f <;> rfl

theorem Fault.message_bare (f : Fault) : f.bare.message = f.message := by cases f <;> rfl

theorem Warning.message_bare (w : Warning) : w.bare.message = w.message := by cases w <;> rfl

namespace Validation

theorem nameFaults_bare (n : Node) : nameFaults n.bare = (nameFaults n).map Fault.bare := by
  cases n with
  | name n =>
    by_cases h : n.parts = [] ∨ "" ∈ n.parts <;>
      simp [Node.bare, Name.bare, nameFaults, h, Fault.bare]
  | _ => rfl

theorem textFaults_bare (role : Role) (l : Literal) :
    textFaults role l.bare = (textFaults role l).map Fault.bare := by
  obtain ⟨value, span⟩ := l
  cases value <;> rfl

theorem keyFaults_bare (l : Literal) : keyFaults l.bare = (keyFaults l).map Fault.bare := by
  obtain ⟨value, span⟩ := l
  cases value with
  | text value => by_cases h : value = "" <;> simp [Literal.bare, keyFaults, h, Fault.bare]
  | _ => rfl

theorem settingFaults_bare (s : Setting) :
    settingFaults s.bare = (settingFaults s).map Fault.bare := by
  rw [settingFaults, settingFaults, List.map_append, ← textFaults_bare, ← keyFaults_bare]
  rfl

theorem actionFaults_bare (catalog : Name) (a : Action) :
    actionFaults catalog.bare a.bare = (actionFaults catalog a).map Fault.bare := by
  cases a with
  | set settings =>
    simp only [Action.bare, actionFaults, Listing.bare, List.flatMap_map, List.map_flatMap,
      settingFaults_bare]
  | reset keys =>
    simp only [Action.bare, actionFaults, Listing.bare, List.flatMap_map, List.map_flatMap,
      keyFaults_bare]
  | rename newName =>
    have h : catalog.bare.same newName.bare = catalog.same newName := rfl
    simp only [Action.bare, actionFaults, h]
    split <;> rfl
  | comment text => exact textFaults_bare .comment text

/-- The items that repeat a key do so with or without their spans. -/
theorem repeated_map {α β : Type} {key? : β → Option String} (f : α → β) :
    ∀ (as : List α) (seen : List String), repeated key? seen (as.map f) =
      (repeated (fun a => key? (f a)) seen as).map fun p => (p.1, f p.2)
  | [], _ => rfl
  | a :: as, seen => by
    simp only [List.map_cons, repeated]
    cases key? (f a) with
    | none => exact repeated_map f as seen
    | some k =>
      by_cases hk : k ∈ seen
      · simp only [hk, if_true, List.map_cons, repeated_map f as]
      · simp only [hk, if_false, repeated_map f as]

end Validation

namespace Statement

theorem faults_bare (s : Statement) : s.bare.faults = s.faults.map Fault.bare := by
  have hn : s.bare.nodes.flatMap Validation.nameFaults =
      (s.nodes.flatMap Validation.nameFaults).map Fault.bare := by
    simp only [nodes_bare, List.flatMap_map, List.map_flatMap, Validation.nameFaults_bare]
  rw [faults, faults, hn, List.map_append, ← Validation.actionFaults_bare]
  rfl

theorem warnings_bare (s : Statement) : s.bare.warnings = s.warnings.map Warning.bare := by
  obtain ⟨span, catalog, action⟩ := s
  cases action with
  | set settings =>
    simp only [bare, Action.bare, warnings, Listing.bare, Validation.repeated_map, List.map_map]
    rfl
  | reset keys =>
    simp only [bare, Action.bare, warnings, Listing.bare, Validation.repeated_map, List.map_map]
    rfl
  | rename newName => rfl
  | comment text => rfl

/-- What validation says about a statement, apart from places. -/
def judgement (s : Statement) : Except (List (Category × String)) (List String) :=
  match s.validate with
  | .ok warnings => .ok (warnings.map Warning.message)
  | .error faults => .error (faults.map fun f => (f.category, f.message))

theorem validate_bare (s : Statement) : s.bare.validate =
    (s.validate.map (List.map Warning.bare)).mapError (List.map Fault.bare) := by
  unfold validate
  rw [faults_bare, warnings_bare]
  by_cases h : s.faults = [] <;> simp [h, Except.map, Except.mapError]

theorem judgement_bare (s : Statement) : s.bare.judgement = s.judgement := by
  rw [judgement, validate_bare, judgement]
  cases s.validate with
  | ok warnings =>
    simp [Except.map, Except.mapError, Function.comp_def, Warning.message_bare]
  | error faults =>
    simp [Except.map, Except.mapError, Function.comp_def, Fault.category_bare, Fault.message_bare]

/-! ## Explaining -/

theorem explanationLines_bare (color : Bool) (place : Nat) (s : Statement) :
    s.bare.explanationLines color place = s.explanationLines color place := by
  simp only [explanationLines, line_bare, outline_bare, changeLine, change_bare]

end Statement

theorem explainText_bare (color : Bool) (ss : List Statement) :
    explainText color (ss.map Statement.bare) = explainText color ss := by
  simp only [explainText, List.zipIdx_map, List.flatMap_map, Prod.map, id,
    Statement.explanationLines_bare]

end AlterCatalog
