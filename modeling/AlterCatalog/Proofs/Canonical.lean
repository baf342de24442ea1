import AlterCatalog.Change.Json
import AlterCatalog.Json.Printer
import AlterCatalog.Proofs.BareJson
import AlterCatalog.Proofs.Dictionary
import AlterCatalog.Proofs.Reading

/-!
# Changes are canonical

Two actions ask for the same when they clear the same keys, when they give every key the same last
value, or when they have the same new name or comment. A change keeps just that of a statement: it
forgets the order of a list, its repetitions and the values that later ones replace, and nothing
else.
-/

namespace AlterCatalog

/-- The value that a SET list gives a key last. -/
def Listing.given? (settings : Listing Setting) (key : String) : Option LiteralValue :=
  lastValue (settings.items.map fun s => (s.key.value, s.value.value)) (.text key)

namespace Action

/-- The keys of an action, each as often as it is written. -/
def keyValues : Action → List LiteralValue
  | set settings => settings.items.map fun s => s.key.value
  | reset keys => keys.items.map Literal.value
  | rename _ => []
  | comment _ => []

/-- Actions that ask for the same. -/
inductive SameEffect : Action → Action → Prop
  | set {ss ts : Listing Setting} (h : ∀ key, ss.given? key = ts.given? key) :
      SameEffect (.set ss) (.set ts)
  | reset {ks ls : Listing Literal} (h : ∀ key : String,
      .text key ∈ ks.items.map Literal.value ↔ .text key ∈ ls.items.map Literal.value) :
      SameEffect (.reset ks) (.reset ls)
  | rename {m n : Name} (h : m.parts = n.parts) : SameEffect (.rename m) (.rename n)
  | comment {k l : Literal} (h : k.value = l.value) : SameEffect (.comment k) (.comment l)

/-- What an action resolves to, said of its keys one by one. -/
inductive Means : Action → Effect → Prop
  | set {settings : Listing Setting} {ps : Dictionary String}
      (h : ∀ key, settings.given? key = (ps.get? key).map .text) :
      Means (.set settings) (.setProperties ps)
  | reset {keys : Listing Literal} {ks : KeySet}
      (h : ∀ key : String, .text key ∈ keys.items.map Literal.value ↔ key ∈ ks.keys) :
      Means (.reset keys) (.resetProperties ks)
  | rename {n : Name} : Means (.rename n) (.rename n.parts)
  | comment {l : Literal} {text : String} (h : l.value = .text text) :
      Means (.comment l) (.setComment text)

end Action

structure Statement.SameEffect (a b : Statement) : Prop where
  catalog : a.catalog.parts = b.catalog.parts
  action : a.action.SameEffect b.action

def Effect.keys : Effect → List String
  | resetProperties keys => keys.keys
  | setProperties properties => properties.keys
  | rename _ => []
  | setComment _ => []

/-! ## Resolved lists -/

theorem map_eq_of_mapM {ε α β γ : Type} {f : α → Except ε β} {g : α → γ} {h : β → γ}
    (hf : ∀ {a b}, f a = .ok b → g a = h b) : ∀ {as : List α} {bs : List β},
      as.mapM f = .ok bs → as.map g = bs.map h
  | [], bs, hm => by
    obtain rfl : [] = bs := Except.ok.inj hm
    rfl
  | a :: as, bs, hm => by
    rw [List.mapM_cons] at hm
    obtain ⟨b, hb, hm⟩ := Parser.bind_eq_ok.1 hm
    obtain ⟨bs', hbs, hm⟩ := Parser.bind_eq_ok.1 hm
    obtain rfl : b :: bs' = bs := Except.ok.inj hm
    rw [List.map_cons, List.map_cons, hf hb, map_eq_of_mapM hf hbs]

theorem lastValue_map {κ κ' α β : Type} [DecidableEq κ] [DecidableEq κ'] {f : κ → κ'}
    (hf : Function.Injective f) (g : α → β) (es : List (κ × α)) (k : κ) :
    lastValue (es.map fun e => (f e.1, g e.2)) (f k) = (lastValue es k).map g := by
  simp [lastValue, List.filter_map, Function.comp_def, hf.eq_iff]

theorem LiteralValue.text_injective : Function.Injective text := fun _ _ => text.inj

theorem Literal.asText_eq_ok {l : Literal} {k : String} (h : l.asText = .ok k) :
    l.value = .text k := by
  unfold asText at h
  cases hv : l.value <;> simp_all

theorem Setting.entry_eq_ok {s : Setting} {e : String × String} (h : s.entry = .ok e) :
    (s.key.value, s.value.value) = (.text e.1, .text e.2) := by
  obtain ⟨k, hk, h⟩ := Parser.bind_eq_ok.1 h
  obtain ⟨v, hv, h⟩ := Parser.bind_eq_ok.1 h
  obtain rfl : (k, v) = e := Except.ok.inj h
  rw [Literal.asText_eq_ok hk, Literal.asText_eq_ok hv]

/-! ## Resolved actions -/

theorem map_eq_ok {ε α β : Type} {x : Except ε α} {f : α → β} {b : β} (h : x.map f = .ok b) :
    ∃ a, x = .ok a ∧ f a = b := by
  cases x with
  | error e => cases h
  | ok a => exact ⟨a, rfl, Except.ok.inj h⟩

theorem given?_of_setProperties {settings : Listing Setting} {ps : Dictionary String}
    (h : setProperties settings = .ok ps) (key : String) :
    settings.given? key = (ps.get? key).map .text := by
  obtain ⟨es, hes, rfl⟩ := map_eq_ok h
  rw [Listing.given?, map_eq_of_mapM Setting.entry_eq_ok hes,
    lastValue_map LiteralValue.text_injective, Dictionary.get?_ofList]

theorem mem_of_resetKeys {keys : Listing Literal} {ks : KeySet} (h : resetKeys keys = .ok ks)
    (key : String) : .text key ∈ keys.items.map Literal.value ↔ key ∈ ks.keys := by
  obtain ⟨texts, ht, rfl⟩ := map_eq_ok h
  rw [map_eq_of_mapM Literal.asText_eq_ok ht, List.mem_map_of_injective LiteralValue.text_injective,
    Dictionary.mem_keys_ofKeys]

namespace Action

theorem means_of_effect {a : Action} {e : Effect} (h : a.effect = .ok e) : a.Means e := by
  cases a with
  | set settings =>
    obtain ⟨ps, hps, rfl⟩ := map_eq_ok h
    exact .set (given?_of_setProperties hps)
  | reset keys =>
    obtain ⟨ks, hks, rfl⟩ := map_eq_ok h
    exact .reset (mem_of_resetKeys hks)
  | rename newName =>
    cases h
    exact .rename
  | comment text =>
    obtain ⟨value, hv, rfl⟩ := map_eq_ok h
    exact .comment (Literal.asText_eq_ok hv)

theorem Means.unique {a : Action} {e f : Effect} (he : a.Means e) (hf : a.Means f) : e = f := by
  cases he with
  | @set settings ps h =>
    cases hf with
    | @set _ qs h' =>
      have text : ∀ key, ps.get? key = qs.get? key := fun key =>
        Option.map_injective LiteralValue.text_injective ((h key).symm.trans (h' key))
      rw [Dictionary.ext_get? text]
  | reset h =>
    cases hf with
    | reset h' => rw [Dictionary.ext_keys fun key => (h key).symm.trans (h' key)]
  | rename =>
    cases hf with
    | rename => rfl
  | comment h =>
    cases hf with
    | comment h' => rw [LiteralValue.text_injective (h.symm.trans h')]

theorem SameEffect.means {a b : Action} {e : Effect} (hab : a.SameEffect b) (h : b.Means e) :
    a.Means e := by
  cases hab with
  | set hs =>
    cases h with
    | set h => exact .set fun key => (hs key).trans (h key)
  | reset hs =>
    cases h with
    | reset h => exact .reset fun key => (hs key).trans (h key)
  | rename hs =>
    cases h with
    | rename => exact hs ▸ .rename
  | comment hs =>
    cases h with
    | comment h => exact .comment (hs.trans h)

theorem Means.sameEffect {a b : Action} {e : Effect} (ha : a.Means e) (hb : b.Means e) :
    a.SameEffect b := by
  cases ha with
  | set h =>
    cases hb with
    | set h' => exact .set fun key => (h key).trans (h' key).symm
  | reset h =>
    cases hb with
    | reset h' => exact .reset fun key => (h key).trans (h' key).symm
  | @rename m =>
    generalize hp : m.parts = parts at hb
    cases hb with
    | rename => exact .rename hp
  | comment h =>
    cases hb with
    | comment h' => exact .comment (h.trans h'.symm)

/-- Actions resolve to one effect exactly when they ask for the same. -/
theorem effect_eq_iff {a b : Action} {e f : Effect} (ha : a.effect = .ok e)
    (hb : b.effect = .ok f) : e = f ↔ a.SameEffect b := by
  constructor
  · rintro rfl
    exact (means_of_effect ha).sameEffect (means_of_effect hb)
  · intro h
    exact (means_of_effect ha).unique (h.means (means_of_effect hb))

end Action

/-! ## Changes as JSON -/

theorem Effect.pairwise_keys (e : Effect) : e.keys.Pairwise before := by
  cases e with
  | resetProperties keys => exact keys.pairwise_keys
  | setProperties properties => exact properties.pairwise_keys
  | rename newName => exact .nil
  | setComment comment => exact .nil

theorem KeySet.keys_inj {a b : KeySet} : a.keys = b.keys ↔ a = b :=
  ⟨fun h => Dictionary.ext_keys fun k => by rw [h], fun h => by rw [h]⟩

theorem Effect.toJson_setProperties_inj {ps qs : Dictionary String} :
    (setProperties ps).toJson = (setProperties qs).toJson ↔ ps = qs := by
  have field : Function.Injective fun e : String × String => (e.1, Json.string e.2) := by
    rintro ⟨k, v⟩ ⟨k', v'⟩ h
    simpa using h
  rw [toJson, toJson, Json.object.injEq, field.list_map.eq_iff]
  exact ⟨Dictionary.ext_entries, congrArg _⟩

theorem Effect.toJson_resetProperties_inj {ks ls : KeySet} :
    (resetProperties ks).toJson = (resetProperties ls).toJson ↔ ks = ls := by
  rw [toJson, toJson, Json.ofStrings_inj, KeySet.keys_inj]

theorem Effect.toJson_rename_inj {m n : List String} :
    (rename m).toJson = (rename n).toJson ↔ m = n :=
  Json.ofStrings_inj

theorem Effect.toJson_setComment_inj {k l : String} :
    (setComment k).toJson = (setComment l).toJson ↔ k = l := by
  rw [toJson, toJson, Json.string.injEq]

/-- A change is known by its JSON. -/
theorem Change.toJson_inj {c d : Change} : c.toJson = d.toJson ↔ c = d := by
  obtain ⟨catalog, effect⟩ := c
  obtain ⟨catalog', effect'⟩ := d
  -- Records of two operations differ in the tag, those of one operation in their parts.
  cases effect <;> cases effect' <;>
    simp [toJson, operation, Effect.operandKey, Json.ofStrings_inj,
      Effect.toJson_resetProperties_inj, Effect.toJson_setProperties_inj,
      Effect.toJson_rename_inj, Effect.toJson_setComment_inj]

/-! ## Changes of statements -/

theorem Action.mem_keys {a : Action} {e : Effect} (h : a.Means e) (key : String) :
    key ∈ e.keys ↔ .text key ∈ a.keyValues := by
  cases h with
  | @set settings ps h =>
    have given : (settings.given? key).isSome ↔ .text key ∈ (Action.set settings).keyValues := by
      rw [Listing.given?, isSome_lastValue_iff, List.map_map]
      rfl
    rw [← given, h, Option.isSome_map, Dictionary.isSome_get?_iff]
    rfl
  | reset h => exact (h key).symm
  | rename => simp [Effect.keys, keyValues]
  | comment h => simp [Effect.keys, keyValues]

theorem Statement.change_eq_iff {a b : Statement} {c d : Change} (ha : a.change = .ok c)
    (hb : b.change = .ok d) : c = d ↔ a.SameEffect b := by
  obtain ⟨e, he, rfl⟩ := map_eq_ok ha
  obtain ⟨f, hf, rfl⟩ := map_eq_ok hb
  rw [Change.mk.injEq, Action.effect_eq_iff he hf]
  exact ⟨fun h => ⟨h.1, h.2⟩, fun h => ⟨h.catalog, h.action⟩⟩

/-- **Changes are canonical for their effect.** Two statements resolve to one change, or to changes
of one JSON, exactly when they are of one kind, alter one catalog and ask for the same; the texts are
then the same too. The keys of a change are those of the statement, each once, in the order of their
bytes. -/
theorem change_canonical {a b : Statement} {c d : Change} (ha : a.change = .ok c)
    (hb : b.change = .ok d) :
    (c = d ↔ a.SameEffect b) ∧ (c.toJson = d.toJson ↔ a.SameEffect b) ∧
    (a.SameEffect b → c.toJson.compact = d.toJson.compact ∧ c.toJson.pretty = d.toJson.pretty ∧
      c.describe = d.describe) ∧
    c.effect.keys.Pairwise before ∧
    ∀ key, key ∈ c.effect.keys ↔ .text key ∈ a.action.keyValues := by
  have same := Statement.change_eq_iff ha hb
  refine ⟨same, Change.toJson_inj.trans same, fun h => ?_, c.effect.pairwise_keys, fun key => ?_⟩
  · obtain rfl := same.2 h
    exact ⟨rfl, rfl, rfl⟩
  · obtain ⟨e, he, rfl⟩ := map_eq_ok ha
    exact Action.mem_keys (Action.means_of_effect he) key

/-- A SET of texts. -/
def Statement.ofTexts (entries : List (String × String)) : Statement where
  catalog := ⟨["c"], {}⟩
  action := .set ⟨entries.map fun e => ⟨⟨.text e.1, {}⟩, ⟨.text e.2, {}⟩, {}⟩, {}⟩

theorem change_canonical_replaced_value : ∃ c,
    (Statement.ofTexts [("k", "1"), ("b", "2"), ("k", "3")]).change = .ok c ∧
    (Statement.ofTexts [("b", "2"), ("k", "3")]).change = .ok c ∧
    c.effect.keys.Pairwise before := by
  have ha : (Statement.ofTexts [("k", "1"), ("b", "2"), ("k", "3")]).change =
      .ok ⟨["c"], .setProperties (.ofList [("k", "1"), ("b", "2"), ("k", "3")])⟩ := rfl
  have hb : (Statement.ofTexts [("b", "2"), ("k", "3")]).change =
      .ok ⟨["c"], .setProperties (.ofList [("b", "2"), ("k", "3")])⟩ := rfl
  have same : (Statement.ofTexts [("k", "1"), ("b", "2"), ("k", "3")]).SameEffect
      (.ofTexts [("b", "2"), ("k", "3")]) := by
    refine ⟨rfl, .set fun key => ?_⟩
    by_cases hk : "k" = key <;> by_cases hb : "b" = key <;> simp [Listing.given?, lastValue, hk, hb]
  obtain ⟨equal, -, -, sorted, -⟩ := change_canonical ha hb
  exact ⟨_, ha, equal.2 same ▸ hb, sorted⟩

end AlterCatalog
