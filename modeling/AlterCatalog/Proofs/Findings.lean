import AlterCatalog.Proofs.Mismatch
import AlterCatalog.Proofs.Repeats

/-!
# Findings of validation

What may be wrong with a statement is wrong at one of its sites, where a name or a literal stands.
Validation goes through the sites one by one, and the faults that it adds at a site are the
violations of that site. So every violation is reported, and none twice. A statement without
violations has one warning for each repetition of a key.
-/

namespace AlterCatalog

/-- Where a name or a literal of a statement stands. -/
inductive Site where
  | catalog
  | newName
  | key (i : Nat)
  | value (i : Nat)
  | comment
deriving DecidableEq

def Site.role : Site → Role
  | key _ => .key
  | value _ => .value
  | _ => .comment

namespace Action

def keyLiterals : Action → List Literal
  | set settings => settings.items.map Setting.key
  | reset keys => keys.items
  | rename _ => []
  | comment _ => []

def valueLiterals : Action → List Literal
  | set settings => settings.items.map Setting.value
  | reset _ => []
  | rename _ => []
  | comment _ => []

def entrySpans : Action → List Span
  | set settings => settings.items.map Setting.span
  | reset keys => keys.items.map Literal.span
  | rename _ => []
  | comment _ => []

def newName? : Action → Option Name
  | rename newName => some newName
  | _ => none

def comment? : Action → Option Literal
  | comment text => some text
  | _ => none

def sites : Action → List Site
  | set settings => (List.range settings.items.length).flatMap fun i => [.value i, .key i]
  | reset keys => (List.range keys.items.length).map .key
  | rename _ => [.newName]
  | comment _ => [.comment]

end Action

theorem Action.newName?_eq_some_iff {a : Action} {n : Name} :
    a.newName? = some n ↔ a = .rename n := by
  cases a <;> simp [newName?]

theorem Action.mem_literals {a : Action} {l : Literal} :
    l ∈ a.literals ↔ l ∈ a.keyLiterals ∨ l ∈ a.valueLiterals ∨ a.comment? = some l := by
  cases a with
  | set settings =>
    simp only [literals, keyLiterals, valueLiterals, comment?, List.mem_flatMap, List.mem_map,
      List.mem_cons, List.not_mem_nil, or_false, reduceCtorEq]
    grind
  | reset keys => simp [literals, keyLiterals, valueLiterals, comment?]
  | rename newName => simp [literals, keyLiterals, valueLiterals, comment?]
  | comment text => simp [literals, keyLiterals, valueLiterals, comment?, eq_comm]

namespace Statement

/-- The name or literal at a site. -/
def nodeAt? (s : Statement) : Site → Option Node
  | .catalog => some (.name s.catalog)
  | .newName => s.action.newName?.map .name
  | .key i => s.action.keyLiterals[i]?.map .literal
  | .value i => s.action.valueLiterals[i]?.map .literal
  | .comment => s.action.comment?.map .literal

/-- What is wrong at a site. -/
inductive Violates (s : Statement) : Site → Category → Prop
  | emptyPart {site : Site} {n : Name} : s.nodeAt? site = some (.name n) →
      n.parts = [] ∨ "" ∈ n.parts → Violates s site .spelling
  | notText {site : Site} {l : Literal} : s.nodeAt? site = some (.literal l) →
      l.kind ≠ .text → Violates s site .typing
  | emptyKey {i : Nat} {l : Literal} : s.nodeAt? (.key i) = some (.literal l) →
      l.value = .text "" → Violates s (.key i) .spelling
  | renameToSelf {n : Name} : s.nodeAt? .newName = some (.name n) →
      n.parts = s.catalog.parts → Violates s .newName .structural

def sites (s : Statement) : List Site := .catalog :: s.action.sites

def faultsAt (s : Statement) : Site → List Fault
  | .catalog => Validation.nameFaults (.name s.catalog)
  | .newName => s.action.newName?.elim [] fun n =>
      Validation.nameFaults (.name n) ++ Validation.actionFaults s.catalog (.rename n)
  | .key i => s.action.keyLiterals[i]?.elim [] Validation.keyFaults
  | .value i => s.action.valueLiterals[i]?.elim [] (Validation.textFaults .value)
  | .comment => s.action.comment?.elim [] (Validation.textFaults .comment)

/-! ## Sites and the walk -/

theorem nodeAt?_eq_name_iff {s : Statement} {site : Site} {n : Name} :
    s.nodeAt? site = some (.name n) ↔
      (site = .catalog ∧ n = s.catalog) ∨ (site = .newName ∧ s.action.newName? = some n) := by
  cases site <;> simp [nodeAt?, eq_comm]

theorem nodeAt?_eq_literal_iff {s : Statement} {site : Site} {l : Literal} :
    s.nodeAt? site = some (.literal l) ↔
      (∃ i, site = .key i ∧ s.action.keyLiterals[i]? = some l) ∨
      (∃ i, site = .value i ∧ s.action.valueLiterals[i]? = some l) ∨
      (site = .comment ∧ s.action.comment? = some l) := by
  cases site <;> simp [nodeAt?]

theorem name_mem_nodes_iff {s : Statement} {n : Name} :
    .name n ∈ s.nodes ↔ ∃ site, s.nodeAt? site = some (.name n) := by
  rw [name_mem_nodes, ← Action.newName?_eq_some_iff]
  simp [nodeAt?_eq_name_iff, exists_or]

theorem literal_mem_nodes_iff {s : Statement} {l : Literal} :
    .literal l ∈ s.nodes ↔ ∃ site, s.nodeAt? site = some (.literal l) := by
  rw [literal_mem_nodes, Action.mem_literals, List.mem_iff_getElem?, List.mem_iff_getElem?]
  simp only [nodeAt?_eq_literal_iff, exists_or]
  constructor
  · rintro (⟨i, h⟩ | ⟨i, h⟩ | h)
    · exact .inl ⟨.key i, i, rfl, h⟩
    · exact .inr (.inl ⟨.value i, i, rfl, h⟩)
    · exact .inr (.inr ⟨.comment, rfl, h⟩)
  · rintro (⟨_, i, -, h⟩ | ⟨_, i, -, h⟩ | ⟨_, -, h⟩)
    · exact .inl ⟨i, h⟩
    · exact .inr (.inl ⟨i, h⟩)
    · exact .inr (.inr h)

/-! ## Faults by site -/

theorem flatMap_range {α β : Type} {f : Nat → List β} {g : α → List β} (xs : List α)
    (h : ∀ i x, xs[i]? = some x → f i = g x) : (List.range xs.length).flatMap f = xs.flatMap g := by
  induction xs using List.reverseRecOn with
  | nil => rfl
  | append_singleton xs x ih =>
    have earlier : ∀ i y, xs[i]? = some y → f i = g y := fun i y hy =>
      h i y ((List.getElem?_append_left (List.getElem?_eq_some_iff.1 hy).1).trans hy)
    rw [List.length_append, List.length_singleton, List.range_succ, List.flatMap_append,
      List.flatMap_append, ih earlier, List.flatMap_singleton, List.flatMap_singleton,
      h _ _ List.getElem?_concat_length]

theorem flatMap_nameFaults (s : Statement) : s.nodes.flatMap Validation.nameFaults =
    Validation.nameFaults (.name s.catalog) ++
      s.action.newName?.elim [] fun n => Validation.nameFaults (.name n) := by
  have leaves : ∀ ls : List Literal, (ls.map Node.literal).flatMap Validation.nameFaults = [] := by
    intro ls
    rw [List.flatMap_map]
    exact List.flatMap_eq_nil_iff.2 fun _ _ => rfl
  have settings : ∀ ss : List Setting, (ss.flatMap fun s =>
      [.setting s, .literal s.key, .literal s.value]).flatMap Validation.nameFaults = [] := by
    intro ss
    rw [List.flatMap_assoc]
    exact List.flatMap_eq_nil_iff.2 fun _ _ => rfl
  rw [nodes_eq, List.flatMap_cons, List.flatMap_cons]
  refine (List.nil_append _).trans (congrArg _ ?_)
  cases s.action with
  | set ss => exact settings ss.items
  | reset keys => exact leaves keys.items
  | rename newName => exact List.append_nil _
  | comment text => rfl

theorem faults_eq (s : Statement) : s.faults = s.sites.flatMap s.faultsAt := by
  obtain ⟨span, catalog, action⟩ := s
  rw [faults, flatMap_nameFaults, sites, List.flatMap_cons, List.append_assoc]
  congr 1
  cases action with
  | set settings =>
    rw [Action.sites, List.flatMap_assoc]
    refine (flatMap_range settings.items fun i x hx => ?_).symm
    simp [faultsAt, Action.valueLiterals, Action.keyLiterals, hx, Validation.settingFaults]
  | reset keys =>
    rw [Action.sites, List.flatMap_map]
    refine (flatMap_range keys.items fun i x hx => ?_).symm
    simp [faultsAt, Action.keyLiterals, hx]
  | rename newName => exact (List.append_nil _).symm
  | comment text => exact (List.append_nil _).symm

end Statement

/-! ## Faults of one site -/

namespace Validation

theorem mem_nameFaults {n : Name} {f : Fault} :
    f ∈ nameFaults (.name n) ↔ (n.parts = [] ∨ "" ∈ n.parts) ∧ f = .emptyPart n := by
  unfold nameFaults
  by_cases h : n.parts = [] ∨ "" ∈ n.parts <;> simp [h]

theorem mem_textFaults {role : Role} {l : Literal} {f : Fault} :
    f ∈ textFaults role l ↔ l.kind ≠ .text ∧ f = .notText role l := by
  unfold textFaults
  cases h : l.value <;> simp [Literal.kind, LiteralValue.kind, h]

theorem mem_keyFaults {l : Literal} {f : Fault} : f ∈ keyFaults l ↔
    (l.kind ≠ .text ∧ f = .notText .key l) ∨ (l.value = .text "" ∧ f = .emptyKey l) := by
  unfold keyFaults
  cases h : l.value with
  | text value => by_cases hv : value = "" <;> simp [Literal.kind, LiteralValue.kind, h, hv]
  | _ => simp [Literal.kind, LiteralValue.kind, h]

theorem mem_renameFaults {catalog n : Name} {f : Fault} :
    f ∈ actionFaults catalog (.rename n) ↔
      n.parts = catalog.parts ∧ f = .renameToSelf catalog n := by
  unfold actionFaults
  by_cases h : catalog.parts = n.parts <;> simp [Name.same, h, eq_comm]

end Validation

namespace Statement

open Validation

theorem mem_faultsAt {s : Statement} {site : Site} {f : Fault} : f ∈ s.faultsAt site ↔
    (∃ n, s.nodeAt? site = some (.name n) ∧
      ((n.parts = [] ∨ "" ∈ n.parts) ∧ f = .emptyPart n ∨
        site = .newName ∧ n.parts = s.catalog.parts ∧ f = .renameToSelf s.catalog n)) ∨
    ∃ l, s.nodeAt? site = some (.literal l) ∧
      (l.kind ≠ .text ∧ f = .notText site.role l ∨
        (∃ i, site = .key i) ∧ l.value = .text "" ∧ f = .emptyKey l) := by
  cases site with
  | catalog => simp [faultsAt, nodeAt?, mem_nameFaults]
  | newName =>
    cases h : s.action.newName? <;>
      simp [faultsAt, nodeAt?, h, mem_nameFaults, mem_renameFaults]
  | key i =>
    cases h : s.action.keyLiterals[i]? <;>
      simp [faultsAt, nodeAt?, h, mem_keyFaults, Site.role]
  | value i =>
    cases h : s.action.valueLiterals[i]? <;>
      simp [faultsAt, nodeAt?, h, mem_textFaults, Site.role]
  | comment =>
    cases h : s.action.comment? <;>
      simp [faultsAt, nodeAt?, h, mem_textFaults, Site.role]

theorem location_of_mem_faultsAt {s : Statement} {site : Site} {f : Fault}
    (h : f ∈ s.faultsAt site) :
    ∃ node, s.nodeAt? site = some node ∧ f.location = node.span.start := by
  rcases mem_faultsAt.1 h with ⟨n, hn, ⟨-, rfl⟩ | ⟨-, -, rfl⟩⟩ | ⟨l, hl, ⟨-, rfl⟩ | ⟨-, -, rfl⟩⟩
  · exact ⟨_, hn, rfl⟩
  · exact ⟨_, hn, rfl⟩
  · exact ⟨_, hl, rfl⟩
  · exact ⟨_, hl, rfl⟩

theorem violates_iff {s : Statement} {site : Site} {c : Category} :
    s.Violates site c ↔ ∃ f ∈ s.faultsAt site, f.category = c := by
  constructor
  · intro h
    cases h with
    | @emptyPart _ n hn hp => exact ⟨_, mem_faultsAt.2 (.inl ⟨n, hn, .inl ⟨hp, rfl⟩⟩), rfl⟩
    | @notText _ l hl hk => exact ⟨_, mem_faultsAt.2 (.inr ⟨l, hl, .inl ⟨hk, rfl⟩⟩), rfl⟩
    | @emptyKey i l hl hv =>
      exact ⟨_, mem_faultsAt.2 (.inr ⟨l, hl, .inr ⟨⟨i, rfl⟩, hv, rfl⟩⟩), rfl⟩
    | @renameToSelf n hn hp =>
      exact ⟨_, mem_faultsAt.2 (.inl ⟨n, hn, .inr ⟨rfl, hp, rfl⟩⟩), rfl⟩
  · rintro ⟨f, hf, rfl⟩
    rcases mem_faultsAt.1 hf with
      ⟨n, hn, ⟨hp, rfl⟩ | ⟨rfl, hp, rfl⟩⟩ | ⟨l, hl, ⟨hk, rfl⟩ | ⟨⟨i, rfl⟩, hv, rfl⟩⟩
    · exact .emptyPart hn hp
    · exact .renameToSelf hn hp
    · exact .notText hl hk
    · exact .emptyKey hl hv

theorem nodup_categories (s : Statement) (site : Site) :
    ((s.faultsAt site).map Fault.category).Nodup := by
  have name : ∀ n, nameFaults (.name n) = [] ∨ nameFaults (.name n) = [.emptyPart n] := by
    intro n
    by_cases h : n.parts = [] ∨ "" ∈ n.parts <;> simp [nameFaults, h]
  have text : ∀ role l, textFaults role l = [] ∨ textFaults role l = [.notText role l] := by
    intro role l
    cases h : l.value <;> simp [textFaults, h]
  cases site with
  | catalog => rcases name s.catalog with h | h <;> simp [faultsAt, h]
  | newName =>
    cases hn : s.action.newName? with
    | none => simp [faultsAt, hn]
    | some n =>
      by_cases hs : s.catalog.parts = n.parts <;> rcases name n with h | h <;>
        simp [faultsAt, hn, h, actionFaults, Name.same, hs, Fault.category]
  | key i =>
    cases hl : s.action.keyLiterals[i]? with
    | none => simp [faultsAt, hl]
    | some l =>
      cases hv : l.value with
      | text value => by_cases h : value = "" <;> simp [faultsAt, hl, keyFaults, hv, h]
      | _ => simp [faultsAt, hl, keyFaults, hv]
  | value i =>
    cases hl : s.action.valueLiterals[i]? with
    | none => simp [faultsAt, hl]
    | some l => rcases text .value l with h | h <;> simp [faultsAt, hl, h]
  | comment =>
    cases hl : s.action.comment? with
    | none => simp [faultsAt, hl]
    | some l => rcases text .comment l with h | h <;> simp [faultsAt, hl, h]

theorem nodup_sites (s : Statement) : s.sites.Nodup := by
  unfold sites
  cases s.action with
  | set settings =>
    have apart : (List.range settings.items.length).Pairwise fun i j =>
        List.Disjoint [Site.value i, Site.key i] [Site.value j, Site.key j] :=
      List.nodup_range.imp fun h => by simp [h.symm]
    rw [Action.sites, List.nodup_cons, List.nodup_flatMap]
    exact ⟨by simp, fun i _ => by simp, apart⟩
  | reset keys =>
    rw [Action.sites, List.nodup_cons]
    exact ⟨by simp, List.nodup_range.map fun i j h => Site.key.inj h⟩
  | rename newName => simp [Action.sites]
  | comment text => simp [Action.sites]

theorem mem_sites_of_faultsAt {s : Statement} {site : Site} {f : Fault}
    (h : f ∈ s.faultsAt site) : site ∈ s.sites := by
  obtain ⟨node, hn, -⟩ := location_of_mem_faultsAt h
  have bound : ∀ {ls : List Literal} {i : Nat}, ls[i]?.map Node.literal = some node →
      i < ls.length := by
    intro ls i hi
    obtain ⟨l, hl, -⟩ := Option.map_eq_some_iff.1 hi
    exact (List.getElem?_eq_some_iff.1 hl).1
  cases site with
  | catalog => exact List.mem_cons_self
  | newName =>
    refine List.mem_cons_of_mem _ ?_
    cases ha : s.action <;> simp [nodeAt?, ha, Action.newName?] at hn
    simp [Action.sites]
  | key i =>
    have hi := bound hn
    refine List.mem_cons_of_mem _ ?_
    cases ha : s.action <;> simp_all [Action.keyLiterals, Action.sites]
  | value i =>
    have hi := bound hn
    refine List.mem_cons_of_mem _ ?_
    cases ha : s.action <;> simp_all [Action.valueLiterals, Action.sites]
  | comment =>
    refine List.mem_cons_of_mem _ ?_
    cases ha : s.action <;> simp [nodeAt?, ha, Action.comment?] at hn
    simp [Action.sites]

/-! ## One fault for each violation -/

def siteFaults (s : Statement) : List (Site × Fault) :=
  s.sites.flatMap fun site => (s.faultsAt site).map fun f => (site, f)

def violations (s : Statement) : List (Site × Category) :=
  s.siteFaults.map fun p => (p.1, p.2.category)

theorem mem_siteFaults {s : Statement} {p : Site × Fault} :
    p ∈ s.siteFaults ↔ p.2 ∈ s.faultsAt p.1 := by
  obtain ⟨site, f⟩ := p
  simp only [siteFaults, List.mem_flatMap, List.mem_map, Prod.mk.injEq]
  constructor
  · rintro ⟨_, _, _, hf, rfl, rfl⟩
    exact hf
  · intro hf
    exact ⟨site, mem_sites_of_faultsAt hf, f, hf, rfl, rfl⟩

theorem reported_eq_siteFaults (s : Statement) : s.reported = s.siteFaults.map Prod.snd := by
  rw [reported_eq, faults_eq, siteFaults, List.map_flatMap]
  simp

theorem mem_violations {s : Statement} {site : Site} {c : Category} :
    (site, c) ∈ s.violations ↔ s.Violates site c := by
  rw [violates_iff, violations, List.mem_map]
  constructor
  · rintro ⟨p, hp, h⟩
    cases h
    exact ⟨p.2, mem_siteFaults.1 hp, rfl⟩
  · rintro ⟨f, hf, rfl⟩
    exact ⟨(site, f), mem_siteFaults.2 hf, rfl⟩

theorem nodup_violations (s : Statement) : s.violations.Nodup := by
  rw [violations, siteFaults, List.map_flatMap, List.nodup_flatMap]
  constructor
  · intro site _
    have pairs : ((s.faultsAt site).map fun f => (site, f)).map (fun p => (p.1, p.2.category)) =
        ((s.faultsAt site).map Fault.category).map (Prod.mk site) := by
      simp only [List.map_map, Function.comp_def]
    rw [pairs]
    exact (nodup_categories s site).map (Prod.mk_right_injective site)
  · refine (nodup_sites s).imp fun {a b} hab => ?_
    refine List.disjoint_left.2 fun _ ha hb => ?_
    simp only [List.mem_map] at ha hb
    obtain ⟨_, ⟨_, _, rfl⟩, rfl⟩ := ha
    obtain ⟨_, ⟨_, _, rfl⟩, h⟩ := hb
    exact hab (congrArg Prod.fst h).symm

/-! ## One warning for each repetition -/

theorem faults_eq_nil_of_not_violates {s : Statement} (h : ∀ site c, ¬s.Violates site c) :
    s.faults = [] := by
  rw [faults_eq, List.flatMap_eq_nil_iff]
  exact fun site _ => List.eq_nil_iff_forall_not_mem.2 fun f hf =>
    h site f.category (violates_iff.2 ⟨f, hf, rfl⟩)

end Statement

def Warning.key : Warning → String
  | resetAgain key _ => key
  | setAgain key _ => key

/-- A warning about the key at a position of a list, located where the entry there starts. -/
structure Action.WarnedAt (a : Action) (w : Warning) (i : Nat) : Prop where
  key : a.keyValues[i]? = some (.text w.key)
  location : a.entrySpans[i]?.map Span.start = some w.location

namespace Validation

theorem key?_eq_some_iff {l : Literal} {k : String} :
    key? l = some k ↔ l.value = .text k ∧ k ≠ "" := by
  unfold key?
  cases l.value with
  | text value =>
    by_cases h : value = ""
    · simp [h, eq_comm]
    · simp only [if_neg h, Option.some.injEq, LiteralValue.text.injEq, iff_self_and]
      exact fun hk => hk ▸ h
  | _ => simp

theorem isKey_of_keyFaults {l : Literal} (h : keyFaults l = []) : isKey l.value = true := by
  unfold keyFaults at h
  cases hv : l.value with
  | text k =>
    by_cases hk : k = ""
    · simp [hv, hk] at h
    · simp [isKey, hk]
  | _ => simp [hv] at h

end Validation

/-- A statement has one warning for each position that repeats a key, whatever its faults. -/
theorem Statement.warnedAt_keyed (s : Statement) :
    List.Forall₂ s.action.WarnedAt s.warnings
      ((repeats s.action.keyValues).filter fun i => s.action.keyValues[i]?.any Validation.isKey) := by
  obtain ⟨span, catalog, action⟩ := s
  cases action with
  | set settings =>
    have keys : ∀ (x : Setting) (k : String),
        Validation.key? x.key = some k ↔ x.key.value = .text k ∧ k ≠ "" :=
      fun _ _ => Validation.key?_eq_some_iff
    refine List.forall₂_map_left_iff.2 ((Validation.forall₂_repeated keys _).imp ?_)
    rintro ⟨k, x⟩ i ⟨hi, hk⟩
    constructor
    · simpa [Action.keyValues, hi, Warning.key] using hk
    · simp [Action.entrySpans, hi, Warning.location]
  | reset keys =>
    have keys : ∀ (l : Literal) (k : String),
        Validation.key? l = some k ↔ l.value = .text k ∧ k ≠ "" :=
      fun _ _ => Validation.key?_eq_some_iff
    refine List.forall₂_map_left_iff.2 ((Validation.forall₂_repeated keys _).imp ?_)
    rintro ⟨k, l⟩ i ⟨hi, hk⟩
    constructor
    · simpa [Action.keyValues, hi, Warning.key] using hk
    · simp [Action.entrySpans, hi, Warning.location]
  | rename newName => exact .nil
  | comment text => exact .nil

theorem Statement.isKey_of_faults {s : Statement} (h : s.faults = []) :
    ∀ v ∈ s.action.keyValues, Validation.isKey v = true := by
  obtain ⟨span, catalog, action⟩ := s
  have ha := (List.append_eq_nil_iff.1 h).2
  cases action with
  | set settings =>
    refine List.forall_mem_map.2 fun x hx => ?_
    have hx := List.flatMap_eq_nil_iff.1 ha x hx
    exact Validation.isKey_of_keyFaults (List.append_eq_nil_iff.1 hx).2
  | reset keys =>
    refine List.forall_mem_map.2 fun l hl => ?_
    exact Validation.isKey_of_keyFaults (List.flatMap_eq_nil_iff.1 ha l hl)
  | rename newName => exact List.forall_mem_nil _
  | comment text => exact List.forall_mem_nil _

theorem Statement.warnedAt_warnings {s : Statement} (h : s.faults = []) :
    List.Forall₂ s.action.WarnedAt s.warnings (repeats s.action.keyValues) := by
  have all : (repeats s.action.keyValues).filter
      (fun i => s.action.keyValues[i]?.any Validation.isKey) = repeats s.action.keyValues := by
    refine List.filter_eq_self.2 fun i hi => ?_
    rw [List.getElem?_eq_getElem (lt_of_mem_repeats hi)]
    exact s.isKey_of_faults h _ (List.getElem_mem _)
  have hw := s.warnedAt_keyed
  rwa [all] at hw

/-- **Findings are complete and counted exactly.** Every name and literal of a statement stands at a
site; the reported faults are, one for one, the violations at the sites, each with its category and
the start of what stands there. Without violations, a statement has one warning for each position of
its list whose key stands at an earlier position, in order. -/
theorem findings_exact (s : Statement) :
    (∀ n, .name n ∈ s.nodes ↔ ∃ site, s.nodeAt? site = some (.name n)) ∧
    (∀ l, .literal l ∈ s.nodes ↔ ∃ site, s.nodeAt? site = some (.literal l)) ∧
    (∃ vs : List (Site × Category), vs.Nodup ∧ (∀ site c, (site, c) ∈ vs ↔ s.Violates site c) ∧
      List.Forall₂ (fun f v => f.category = v.2 ∧
        ∃ node, s.nodeAt? v.1 = some node ∧ f.location = node.span.start) s.reported vs) ∧
    ((∀ site c, ¬s.Violates site c) → ∃ ws, s.validate = .ok ws ∧
      ws.length + s.action.keyValues.toFinset.card = s.action.keyValues.length ∧
      List.Forall₂ s.action.WarnedAt ws (repeats s.action.keyValues) ∧
      (ws = [] ↔ s.action.keyValues.Nodup) ∧
      (s.kind = .rename ∨ s.kind = .comment → ws = [])) := by
  refine ⟨fun n => s.name_mem_nodes_iff, fun l => s.literal_mem_nodes_iff,
    ⟨s.violations, s.nodup_violations, fun site c => s.mem_violations, ?_⟩, fun h => ?_⟩
  · rw [s.reported_eq_siteFaults, Statement.violations, List.forall₂_map_left_iff,
      List.forall₂_map_right_iff, List.forall₂_same]
    exact fun p hp => ⟨rfl, Statement.location_of_mem_faultsAt (Statement.mem_siteFaults.1 hp)⟩
  · have hf := s.faults_eq_nil_of_not_violates h
    have warned := s.warnedAt_warnings hf
    have nil : s.warnings = [] ↔ s.action.keyValues.Nodup := by
      rw [← repeats_eq_nil_iff, ← List.length_eq_zero_iff, warned.length_eq,
        List.length_eq_zero_iff]
    refine ⟨s.warnings, validate_eq_ok_iff.2 ⟨hf, rfl⟩, ?_, warned, nil, fun hk => nil.2 ?_⟩
    · rw [warned.length_eq, length_repeats]
    · cases ha : s.action <;> simp [Statement.kind, Action.kind, ha] at hk <;>
        exact List.nodup_nil

theorem findings_exact_keys_again :
    let s : Statement := ⟨{}, ⟨["c"], {}⟩, .reset ⟨[⟨.text "a", ⟨⟨1, 24, 23⟩, ⟨1, 27, 26⟩⟩⟩,
      ⟨.text "b", ⟨⟨1, 29, 28⟩, ⟨1, 32, 31⟩⟩⟩, ⟨.text "a", ⟨⟨1, 34, 33⟩, ⟨1, 37, 36⟩⟩⟩], {}⟩⟩
    (∀ site c, ¬s.Violates site c) ∧
      ∃ ws, s.validate = .ok ws ∧ List.Forall₂ s.action.WarnedAt ws [2] := by
  intro s
  have sound : ∀ site c, ¬s.Violates site c := by
    intro site c h
    rw [← Statement.mem_violations, show s.violations = [] by decide +kernel] at h
    cases h
  have again : repeats s.action.keyValues = [2] := by decide +kernel
  obtain ⟨ws, hv, -, hw, -⟩ := (findings_exact s).2.2.2 sound
  exact ⟨sound, ws, hv, again ▸ hw⟩

end AlterCatalog
