import AlterCatalog.Proofs.Lexeme
import AlterCatalog.Statement.Grammar
import AlterCatalog.Validation

/-!
# Statements that can be written down

A statement has a spelling when its names have a part and its decimals are numbers. A tree of the
grammar is one, as its names are read part by part and its decimals come from the text; and a
statement without faults is one, as its literals are texts.
-/

namespace AlterCatalog

/-- A literal that reads back: a decimal number holds the text of one. -/
def LiteralValue.Legible (v : LiteralValue) : Prop := ∀ d, v = .decimal d → IsDecimal d.toList

structure Statement.Legible (s : Statement) : Prop where
  names : ∀ n, .name n ∈ s.nodes → n.parts ≠ []
  literals : ∀ l, .literal l ∈ s.nodes → l.value.Legible

/-! ## Names and literals of a statement -/

def Action.literals : Action → List Literal
  | .set settings => settings.items.flatMap fun s => [s.key, s.value]
  | .reset keys => keys.items
  | .rename _ => []
  | .comment text => [text]

def Action.nodes : Action → List Node
  | .set settings => .settings settings ::
      settings.items.flatMap fun s => [.setting s, .literal s.key, .literal s.value]
  | .reset keys => .keys keys :: keys.items.map .literal
  | .rename newName => [.name newName]
  | .comment text => [.literal text]

@[simp] theorem Node.walkFrom_name (depth : Nat) (n : Name) :
    (name n).walkFrom depth = [(name n, depth)] := by
  rw [walkFrom_eq, children, List.flatMap_nil]

@[simp] theorem Node.walkFrom_literal (depth : Nat) (l : Literal) :
    (literal l).walkFrom depth = [(literal l, depth)] := by
  rw [walkFrom_eq, children, List.flatMap_nil]

theorem Node.map_walkFrom_setting (s : Setting) (depth : Nat) :
    ((Node.setting s).walkFrom depth).map Prod.fst =
      [.setting s, .literal s.key, .literal s.value] := by
  rw [walkFrom_eq]
  simp [children]

theorem Action.map_walkFrom_operand (a : Action) (depth : Nat) :
    (a.operand.walkFrom depth).map Prod.fst = a.nodes := by
  rw [Node.walkFrom_eq]
  cases a with
  | set settings =>
    simp [operand, Node.children, nodes, List.map_flatMap, List.flatMap_map,
      Node.map_walkFrom_setting]
  | reset keys =>
    simp [operand, Node.children, nodes, List.flatMap_map, ← List.map_eq_flatMap]
  | _ => simp [operand, Node.children, nodes]

theorem Statement.nodes_eq (s : Statement) :
    s.nodes = .statement s :: .name s.catalog :: s.action.nodes := by
  rw [nodes, walk, Node.walk, Node.walkFrom_eq]
  simp [Node.children, Action.map_walkFrom_operand]

theorem name_mem_nodes {s : Statement} {n : Name} :
    .name n ∈ s.nodes ↔ n = s.catalog ∨ s.action = .rename n := by
  rw [Statement.nodes_eq]
  cases s.action <;> simp [Action.nodes, eq_comm]

theorem literal_mem_nodes {s : Statement} {l : Literal} :
    .literal l ∈ s.nodes ↔ l ∈ s.action.literals := by
  rw [Statement.nodes_eq]
  cases s.action <;> simp [Action.nodes, Action.literals]

theorem Statement.legible_iff {s : Statement} : s.Legible ↔
    s.catalog.parts ≠ [] ∧ (∀ n, s.action = .rename n → n.parts ≠ []) ∧
      ∀ l ∈ s.action.literals, l.value.Legible := by
  constructor
  · intro ⟨hn, hl⟩
    exact ⟨hn _ (name_mem_nodes.2 (.inl rfl)), fun n h => hn n (name_mem_nodes.2 (.inr h)),
      fun l h => hl l (literal_mem_nodes.2 h)⟩
  · intro ⟨hc, hn, hl⟩
    constructor
    · intro n h
      rcases name_mem_nodes.1 h with rfl | h
      · exact hc
      · exact hn n h
    · exact fun l h => hl l (literal_mem_nodes.1 h)

theorem Statement.legible_bare {s : Statement} : s.bare.Legible ↔ s.Legible := by
  rw [legible_iff, legible_iff]
  obtain ⟨span, catalog, action⟩ := s
  cases action with
  | set settings =>
    simp only [bare, Action.bare, Name.bare, Listing.bare, Action.literals, List.forall_mem_flatMap,
      List.forall_mem_map]
    simp [Setting.bare, Literal.bare]
  | _ => simp [bare, Action.bare, Name.bare, Listing.bare, Literal.bare, Action.literals]

/-! ## Statements without faults -/

theorem text_of_textFaults {role : Role} {l : Literal} (h : Validation.textFaults role l = []) :
    ∃ v, l.value = .text v := by
  unfold Validation.textFaults at h
  split at h
  · next v hv => exact ⟨v, hv⟩
  · cases h

theorem text_of_keyFaults {l : Literal} (h : Validation.keyFaults l = []) :
    ∃ v, l.value = .text v := by
  unfold Validation.keyFaults at h
  split at h
  · next v hv => exact ⟨v, hv⟩
  · cases h

theorem text_of_faults {s : Statement} (h : s.faults = []) :
    ∀ l, .literal l ∈ s.nodes → ∃ v, l.value = .text v := by
  obtain ⟨-, ha⟩ := List.append_eq_nil_iff.1 h
  intro l hm
  rw [literal_mem_nodes] at hm
  cases hs : s.action with
  | set settings =>
    rw [hs] at hm ha
    obtain ⟨x, hx, hl⟩ := List.mem_flatMap.1 hm
    obtain ⟨hv, hk⟩ := List.append_eq_nil_iff.1 (List.flatMap_eq_nil_iff.1 ha x hx)
    rcases List.mem_cons.1 hl with rfl | hl
    · exact text_of_keyFaults hk
    · rw [List.mem_singleton.1 hl]
      exact text_of_textFaults hv
  | reset keys =>
    rw [hs] at hm ha
    exact text_of_keyFaults (List.flatMap_eq_nil_iff.1 ha l hm)
  | rename n =>
    rw [hs] at hm
    cases hm
  | comment text =>
    rw [hs] at hm ha
    rw [List.mem_singleton.1 hm]
    exact text_of_textFaults ha

theorem legible_of_faults {s : Statement} (h : s.faults = []) : s.Legible := by
  constructor
  · intro n hm hp
    have hf := List.flatMap_eq_nil_iff.1 (List.append_eq_nil_iff.1 h).1 _ hm
    simp [Validation.nameFaults, hp] at hf
  · intro l hm d hd
    obtain ⟨v, hv⟩ := text_of_faults h l hm
    rw [hv] at hd
    cases hd

theorem validate_eq_ok_iff {s : Statement} {ws : List Warning} :
    s.validate = .ok ws ↔ s.faults = [] ∧ s.warnings = ws := by
  unfold Statement.validate
  by_cases h : s.faults = [] <;> simp [h]

theorem legible_of_validate {s : Statement} {ws : List Warning} (h : s.validate = .ok ws) :
    s.Legible :=
  legible_of_faults (validate_eq_ok_iff.1 h).1

/-! ## Trees of the grammar -/

namespace Grammar

theorem legible_of_value {t : Token} {v : LiteralValue} (h : Value t v)
    (ht : ∀ d, t = .decimal d → IsDecimal d.toList) : v.Legible := by
  intro d hd
  cases h <;> cases hd
  exact ht d rfl

theorem ne_nil_of_separated {α : Type} {separator : Symbol} {item : List Token → α → Prop}
    {ts : List Token} {as : List α} (h : Separated separator item ts as) : as ≠ [] := by
  cases h <;> simp

/-- What holds of every item whose tokens are good holds of all items of a good list. -/
theorem forall_of_separated {α : Type} {separator : Symbol} {item : List Token → α → Prop}
    {good : Token → Prop} {p : α → Prop}
    (hi : ∀ ts a, item ts a → (∀ t ∈ ts, good t) → p a) {ts : List Token} {as : List α}
    (h : Separated separator item ts as) (ht : ∀ t ∈ ts, good t) : ∀ a ∈ as, p a := by
  induction h with
  | one ha => exact List.forall_mem_singleton.2 (hi _ _ ha ht)
  | more ha _ ih =>
    obtain ⟨hts, hrest⟩ := List.forall_mem_append.1 ht
    exact List.forall_mem_cons.2 ⟨hi _ _ ha hts, ih (List.forall_mem_cons.1 hrest).2⟩

theorem forall_of_listed {α : Type} {item : List Token → α → Prop} {good : Token → Prop}
    {p : α → Prop} (hi : ∀ ts a, item ts a → (∀ t ∈ ts, good t) → p a) {ts : List Token}
    {l : Listing α} (h : Listed item ts l) (ht : ∀ t ∈ ts, good t) : ∀ a ∈ l.items, p a := by
  cases h with
  | none => simp
  | some hs =>
    refine forall_of_separated hi hs fun t h => ht t ?_
    simp [h]

theorem parts_ne_nil_of_nameOf {ts : List Token} {n : Name} (h : NameOf ts n) : n.parts ≠ [] := by
  obtain ⟨hs⟩ := h
  exact ne_nil_of_separated hs

theorem legible_of_literalOf {ts : List Token} {l : Literal} (h : LiteralOf ts l)
    (ht : ∀ t ∈ ts, ∀ d, t = .decimal d → IsDecimal d.toList) : l.value.Legible := by
  obtain ⟨hv⟩ := h
  exact legible_of_value hv (ht _ (by simp))

theorem legible_of_settingOf {ts : List Token} {s : Setting} (h : SettingOf ts s)
    (ht : ∀ t ∈ ts, ∀ d, t = .decimal d → IsDecimal d.toList) :
    s.key.value.Legible ∧ s.value.value.Legible := by
  obtain ⟨hk, hv⟩ := h
  obtain ⟨htk, htv⟩ := List.forall_mem_append.1 ht
  exact ⟨legible_of_literalOf hk htk, legible_of_literalOf hv (List.forall_mem_cons.1 htv).2⟩

theorem legible_of_statementOf {ts : List Token} {s : Statement} (h : StatementOf ts s)
    (ht : ∀ t ∈ ts, ∀ d, t = .decimal d → IsDecimal d.toList) : s.Legible := by
  obtain ⟨hn, ha⟩ := h
  have hta := (List.forall_mem_append.1 (List.forall_mem_cons.1 (List.forall_mem_cons.1 ht).2).2).2
  refine Statement.legible_iff.2 ⟨parts_ne_nil_of_nameOf hn, ?_, ?_⟩
  · rintro n rfl
    cases ha with
    | rename hn => exact parts_ne_nil_of_nameOf hn
  · cases ha with
    | set hl =>
      intro l hm
      obtain ⟨x, hx, hlx⟩ := List.mem_flatMap.1 hm
      obtain ⟨hk, hv⟩ := forall_of_listed
        (p := fun s => s.key.value.Legible ∧ s.value.value.Legible)
        (fun _ _ => legible_of_settingOf) hl (List.forall_mem_cons.1 hta).2 x hx
      rcases List.mem_cons.1 hlx with rfl | hlx
      · exact hk
      · rw [List.mem_singleton.1 hlx]
        exact hv
    | reset hl =>
      exact forall_of_listed (p := fun l => l.value.Legible) (fun _ _ => legible_of_literalOf) hl
        (List.forall_mem_cons.1 hta).2
    | rename hn => exact List.forall_mem_nil _
    | comment hl =>
      exact List.forall_mem_singleton.2 (legible_of_literalOf hl (List.forall_mem_cons.1 hta).2)

end Grammar

end AlterCatalog
