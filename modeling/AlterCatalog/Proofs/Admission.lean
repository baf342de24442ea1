import AlterCatalog.Change
import AlterCatalog.Proofs.Dictionary
import AlterCatalog.Proofs.Legible

/-!
# Validation admits what can be carried out

A change is well formed when an executor can act on it: its names have parts, none of them empty, no
key is empty, and a rename leads to another name. Validation looks at nodes and lists of literals;
resolving a statement reads the literals one by one. They agree item by item: an item has no faults
exactly when it is read and its key is not empty. So a statement passes validation exactly when it
resolves to a well-formed change.
-/

namespace AlterCatalog

/-- A path of a catalog that can exist. -/
def ProperPath (path : List String) : Prop := path ≠ [] ∧ "" ∉ path

def Effect.WellFormed (catalog : List String) : Effect → Prop
  | resetProperties keys => "" ∉ keys.keys
  | setProperties properties => "" ∉ properties.keys
  | rename newName => ProperPath newName ∧ newName ≠ catalog
  | setComment _ => True

structure Change.WellFormed (c : Change) : Prop where
  catalog : ProperPath c.catalog
  effect : c.effect.WellFormed c.catalog

/-! ## Reading a list item by item -/

theorem forall_ok_iff_mapM {ε α β : Type} {f : α → Except ε β} {p : β → Prop} (xs : List α) :
    (∀ x ∈ xs, ∃ y, f x = .ok y ∧ p y) ↔ ∃ ys, xs.mapM f = .ok ys ∧ ∀ y ∈ ys, p y := by
  induction xs with
  | nil => simp [pure, Except.pure]
  | cons x xs ih =>
    rw [List.forall_mem_cons, ih, List.mapM_cons]
    cases hy : f x with
    | error e => simp [bind, Except.bind]
    | ok y =>
      cases hys : xs.mapM f with
      | error e => simp [bind, Except.bind]
      | ok ys => simp [bind, Except.bind, pure, Except.pure]

theorem exists_map_eq_ok {ε α β : Type} {x : Except ε α} {f : α → β} {p : β → Prop} :
    (∃ b, x.map f = .ok b ∧ p b) ↔ ∃ a, x = .ok a ∧ p (f a) := by
  cases x <;> simp [Except.map]

/-! ## Faults of the parts of a statement -/

namespace Validation

theorem nameFaults_eq_nil_iff {n : Name} : nameFaults (.name n) = [] ↔ ProperPath n.parts := by
  unfold nameFaults ProperPath
  rw [ite_eq_right_iff, ← not_or]
  simp

theorem textFaults_eq_nil_iff {role : Role} {l : Literal} :
    textFaults role l = [] ↔ ∃ v, l.asText = .ok v := by
  unfold textFaults Literal.asText
  cases l.value <;> simp

theorem keyFaults_eq_nil_iff {l : Literal} : keyFaults l = [] ↔ ∃ v, l.asText = .ok v ∧ v ≠ "" := by
  unfold keyFaults Literal.asText
  cases l.value <;> simp

theorem settingFaults_eq_nil_iff {s : Setting} :
    settingFaults s = [] ↔ ∃ e, s.entry = .ok e ∧ e.1 ≠ "" := by
  rw [settingFaults, List.append_eq_nil_iff, textFaults_eq_nil_iff, keyFaults_eq_nil_iff,
    Setting.entry]
  cases hk : s.key.asText with
  | error e => simp [bind, Except.bind]
  | ok k =>
    cases hv : s.value.asText with
    | error e => simp [bind, Except.bind]
    | ok v => simp [bind, Except.bind, pure, Except.pure]

theorem flatMap_keyFaults_eq_nil_iff {keys : Listing Literal} :
    keys.items.flatMap keyFaults = [] ↔ ∃ ks, resetKeys keys = .ok ks ∧ "" ∉ ks.keys := by
  simp only [List.flatMap_eq_nil_iff, keyFaults_eq_nil_iff, forall_ok_iff_mapM, resetKeys,
    exists_map_eq_ok, Dictionary.mem_keys_ofKeys, List.forall_mem_ne']

theorem flatMap_settingFaults_eq_nil_iff {settings : Listing Setting} :
    settings.items.flatMap settingFaults = [] ↔
      ∃ ps, setProperties settings = .ok ps ∧ "" ∉ ps.keys := by
  simp only [List.flatMap_eq_nil_iff, settingFaults_eq_nil_iff,
    forall_ok_iff_mapM (p := fun e : String × String => e.1 ≠ ""), setProperties, exists_map_eq_ok,
    Dictionary.mem_keys_ofList, List.mem_map, not_exists, not_and]

/-- An action without faults resolves to a well-formed effect, apart from its new name. -/
theorem actionFaults_eq_nil_iff {catalog : Name} {a : Action} :
    (actionFaults catalog a = [] ∧ ∀ n, a = .rename n → ProperPath n.parts) ↔
      ∃ e, a.effect = .ok e ∧ e.WellFormed catalog.parts := by
  cases a with
  | set settings =>
    rw [actionFaults, flatMap_settingFaults_eq_nil_iff]
    simp [Action.effect, exists_map_eq_ok, Effect.WellFormed]
  | reset keys =>
    rw [actionFaults, flatMap_keyFaults_eq_nil_iff]
    simp [Action.effect, exists_map_eq_ok, Effect.WellFormed]
  | rename newName =>
    simp [actionFaults, Action.effect, Effect.WellFormed, Name.same, and_comm, eq_comm]
  | comment text =>
    simp [actionFaults, textFaults_eq_nil_iff, Action.effect, exists_map_eq_ok, Effect.WellFormed]

end Validation

theorem nameFaults_nodes_eq_nil_iff {s : Statement} :
    s.nodes.flatMap Validation.nameFaults = [] ↔
      ProperPath s.catalog.parts ∧ ∀ n, s.action = .rename n → ProperPath n.parts := by
  rw [List.flatMap_eq_nil_iff]
  constructor
  · intro h
    have proper : ∀ n, .name n ∈ s.nodes → ProperPath n.parts := fun n hn =>
      Validation.nameFaults_eq_nil_iff.1 (h _ hn)
    exact ⟨proper _ (name_mem_nodes.2 (.inl rfl)), fun n hn => proper n (name_mem_nodes.2 (.inr hn))⟩
  · rintro ⟨hc, ha⟩ node hn
    cases node with
    | name n =>
      apply Validation.nameFaults_eq_nil_iff.2
      rcases name_mem_nodes.1 hn with rfl | hn
      · exact hc
      · exact ha n hn
    | _ => rfl

theorem faults_eq_nil_iff {s : Statement} :
    s.faults = [] ↔ ∃ c, s.change = .ok c ∧ c.WellFormed := by
  rw [Statement.faults, List.append_eq_nil_iff, nameFaults_nodes_eq_nil_iff, Statement.change,
    exists_map_eq_ok]
  constructor
  · rintro ⟨⟨hc, hn⟩, ha⟩
    obtain ⟨e, he, hw⟩ := Validation.actionFaults_eq_nil_iff.1 ⟨ha, hn⟩
    exact ⟨e, he, hc, hw⟩
  · rintro ⟨e, he, hc, hw⟩
    obtain ⟨ha, hn⟩ := Validation.actionFaults_eq_nil_iff.2 ⟨e, he, hw⟩
    exact ⟨⟨hc, hn⟩, ha⟩

/-- **Validation is the gate of the executor.** A statement, read or built by hand, is valid exactly
when it resolves and its change is well formed; and every literal of a valid statement is a text. -/
theorem validate_ok_iff_change_wellFormed :
    (∀ s : Statement, (∃ ws, s.validate = .ok ws) ↔ ∃ c, s.change = .ok c ∧ c.WellFormed) ∧
    ∀ (s : Statement) ws, s.validate = .ok ws →
      ∀ l, .literal l ∈ s.nodes → ∃ v, l.asText = .ok v := by
  constructor
  · intro s
    simp only [validate_eq_ok_iff, exists_and_left, exists_eq', and_true]
    exact faults_eq_nil_iff
  · intro s ws h l hl
    obtain ⟨v, hv⟩ := text_of_faults (validate_eq_ok_iff.1 h).1 l hl
    exact ⟨v, by rw [Literal.asText, hv]⟩

theorem validate_repeated_key :
    let s : Statement := ⟨{}, ⟨["a", "b"], {}⟩, .set ⟨[⟨⟨.text "k", {}⟩, ⟨.text "", {}⟩, {}⟩,
      ⟨⟨.text "k", {}⟩, ⟨.text "v", {}⟩, {}⟩], {}⟩⟩
    s.validate = .ok [.setAgain "k" {}] ∧ (∃ c, s.change = .ok c ∧ c.WellFormed) ∧
      ∃ v, Literal.asText ⟨.text "", {}⟩ = .ok v := by
  intro s
  have h : s.validate = .ok [.setAgain "k" {}] :=
    validate_eq_ok_iff.2 ⟨by decide +kernel, by decide +kernel⟩
  exact ⟨h, (validate_ok_iff_change_wellFormed.1 s).1 ⟨_, h⟩,
    validate_ok_iff_change_wellFormed.2 s _ h _ (by decide +kernel)⟩

end AlterCatalog
