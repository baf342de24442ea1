import AlterCatalog.Proofs.Canonical
import AlterCatalog.Proofs.Records
import Mathlib.Data.Set.List

/-!
# Changes read back from JSON

The fields of a change may stand in any order, so the tag may stand anywhere, and its keys and
properties repeat as they do in a statement. Which operation is read decides under which key the
operand is looked up and how it is read; everything else is common to the four operations.
-/

namespace AlterCatalog

/-! ## Values taken in whole -/

namespace Json

/-- All of it has a value, and it nests at most so deep. -/
def Bounded (n : Nat) (j : Json) : Prop := j.representable = true ∧ j.depth ≤ n

instance (n : Nat) (j : Json) : Decidable (j.Bounded n) := instDecidableAnd

theorem bounded_array {n : Nat} {items : List Json} :
    (array items).Bounded (n + 1) ↔ ∀ j ∈ items, j.Bounded n := by
  have h : representableItems items = true ∧ depthOfItems items ≤ n ↔ ∀ j ∈ items, j.Bounded n := by
    induction items with
    | nil => simp [representableItems, depthOfItems]
    | cons j js ih =>
      rw [List.forall_mem_cons, ← ih, Bounded, representableItems, depthOfItems, Bool.and_eq_true,
        Nat.max_le]
      tauto
  rw [Bounded, representable, depth, Nat.succ_le_succ_iff, h]

theorem bounded_object {n : Nat} {fields : List (String × Json)} :
    (object fields).Bounded (n + 1) ↔ ∀ f ∈ fields, f.2.Bounded n := by
  have h : representableFields fields = true ∧ depthOfFields fields ≤ n ↔
      ∀ f ∈ fields, f.2.Bounded n := by
    induction fields with
    | nil => simp [representableFields, depthOfFields]
    | cons f fs ih =>
      rw [List.forall_mem_cons, ← ih, Bounded, representableFields, depthOfFields,
        Bool.and_eq_true, Nat.max_le]
      tauto
  rw [Bounded, representable, depth, Nat.succ_le_succ_iff, h]

theorem bounded_string (n : Nat) (s : String) : (string s).Bounded n := ⟨rfl, Nat.zero_le n⟩

theorem bounded_ofStrings (n : Nat) (texts : List String) : (ofStrings texts).Bounded (n + 1) :=
  bounded_array.2 (List.forall_mem_map.2 fun text _ => bounded_string n text)

/-- An object of texts. -/
def ofEntries (es : List (String × String)) : Json := .object (es.map fun e => (e.1, .string e.2))

theorem bounded_ofEntries (n : Nat) (es : List (String × String)) :
    (ofEntries es).Bounded (n + 1) :=
  bounded_object.2 (List.forall_mem_map.2 fun e _ => bounded_string n e.2)

end Json

open Json

def keysOfJson? (j : Json) : Option KeySet := (j.asList? asString?).map .ofKeys

namespace Effect

/-- How the operand of an operation is read: from under which key, and as which effect. -/
def reader? : String → Option (String × (Json → Option Effect))
  | "reset_properties" => some ("keys",
      fun j => (keysOfJson? j).map .resetProperties)
  | "set_properties" => some ("properties",
      fun j => (Change.propertiesOfJson? j).map .setProperties)
  | "rename" => some ("new_name", fun j => (j.asList? asString?).map .rename)
  | "set_comment" => some ("comment", fun j => j.asString?.map .setComment)
  | _ => none

end Effect

namespace Change

theorem ofJson?_eq (j : Json) : ofJson? j =
    if j.Bounded 127 then
      (untag? j).bind fun t => (Effect.reader? t.1).bind fun r => ofRecord? r.1 r.2 t.2
    else none := by
  by_cases hb : j.Bounded 127
  · have hb' : j.representable = true ∧ j.depth ≤ 127 := hb
    rw [ofJson?, if_pos hb', if_pos hb]
    cases untag? j with
    | none => rfl
    | some t =>
      obtain ⟨operation, record⟩ := t
      simp only [Option.bind_some]
      unfold Effect.reader?
      split <;> simp_all [keysOfJson?, Function.comp_def]
  · have hb' : ¬ (j.representable = true ∧ j.depth ≤ 127) := hb
    rw [ofJson?, if_neg hb', if_neg hb]

theorem ofRecord?_eq (key : String) (effect? : Json → Option Effect)
    (fields : List (String × Json)) : ofRecord? key effect? (.object fields) =
      (field fields "catalog").bind fun catalog => (field fields key).bind fun operand =>
        (catalog.asList? asString?).bind fun parts => (effect? operand).map fun effect =>
          ⟨parts, effect⟩ := by
  rw [ofRecord?, record]
  cases hc : field fields "catalog" <;> cases hk : field fields key <;> simp [hc, hk]
  cases asList? asString? _ <;> cases effect? _ <;> rfl

theorem reader?_key {operation key : String} {effect? : Json → Option Effect}
    (h : Effect.reader? operation = some (key, effect?)) : key ≠ "operation" ∧ key ≠ "catalog" := by
  unfold Effect.reader? at h
  split at h <;> cases h <;> decide

theorem reader?_keys {operation : String} {effect? : Json → Option Effect}
    (h : Effect.reader? operation = some ("keys", effect?)) (j : Json) :
    effect? j = (keysOfJson? j).map .resetProperties := by
  unfold Effect.reader? at h
  split at h <;> simp at h
  rw [← h]

theorem reader?_properties {operation : String} {effect? : Json → Option Effect}
    (h : Effect.reader? operation = some ("properties", effect?)) (j : Json) :
    effect? j = (propertiesOfJson? j).map .setProperties := by
  unfold Effect.reader? at h
  split at h <;> simp at h
  rw [← h]

/-- The fields of a record read as those of one operation. -/
def ofFields? (operation : String) (fields : List (String × Json)) : Option Change :=
  (Effect.reader? operation).bind fun r => ofRecord? r.1 r.2 (.object fields)

theorem ofFields?_congr {operation : String} {fs gs : List (String × Json)}
    (h : ∀ key effect?, Effect.reader? operation = some (key, effect?) →
      ofRecord? key effect? (.object fs) = ofRecord? key effect? (.object gs)) :
    ofFields? operation fs = ofFields? operation gs := by
  unfold ofFields?
  cases hr : Effect.reader? operation with
  | none => rfl
  | some r => exact h r.1 r.2 hr

/-- The tag is read like any other field, and what reads the record passes over it. -/
theorem ofJson?_object (fields : List (String × Json)) : ofJson? (.object fields) =
    if (object fields).Bounded 127 then
      ((field fields "operation").bind asString?).bind fun operation => ofFields? operation fields
    else none := by
  have untagged : ∀ operation, ofFields? operation (fields.filter fun f => f.1 != "operation") =
      ofFields? operation fields := by
    intro operation
    apply ofFields?_congr
    intro key effect? hr
    have catalog : "catalog" ≠ "operation" := by decide
    rw [ofRecord?_eq, ofRecord?_eq, field_filter_ne catalog, field_filter_ne (reader?_key hr).1]
  rw [ofJson?_eq]
  by_cases hb : (object fields).Bounded 127
  · rw [if_pos hb, if_pos hb, untag?]
    cases hf : field fields "operation" with
    | none => rfl
    | some tag =>
      cases tag with
      | string operation => exact untagged operation
      | _ => rfl
  · rw [if_neg hb, if_neg hb]

/-! ### What does not count -/

theorem ofJson?_perm {fs gs : List (String × Json)} (h : fs.Perm gs) :
    ofJson? (.object fs) = ofJson? (.object gs) := by
  have fields : field fs = field gs := funext (field_eq_of_perm h)
  have bounded : (object fs).Bounded 127 ↔ (object gs).Bounded 127 := by
    rw [bounded_object, bounded_object]
    exact forall_congr' fun f => by rw [h.mem_iff]
  simp only [ofJson?_object, ofFields?, ofRecord?_eq, fields, bounded]

theorem ofJson?_replace {name : String} {v w : Json} (hb : v.Bounded 126 ↔ w.Bounded 126)
    (hn : name ≠ "operation" ∧ name ≠ "catalog")
    (hr : ∀ operation effect?, Effect.reader? operation = some (name, effect?) →
      effect? v = effect? w) (before after : List (String × Json)) :
    ofJson? (.object (before ++ (name, v) :: after)) =
      ofJson? (.object (before ++ (name, w) :: after)) := by
  have bounded : (object (before ++ (name, v) :: after)).Bounded 127 ↔
      (object (before ++ (name, w) :: after)).Bounded 127 := by
    rw [bounded_object, bounded_object, List.forall_mem_append, List.forall_mem_append,
      List.forall_mem_cons, List.forall_mem_cons, hb]
  have record : ∀ operation, ofFields? operation (before ++ (name, v) :: after) =
      ofFields? operation (before ++ (name, w) :: after) := by
    intro operation
    apply ofFields?_congr
    intro key effect? he
    rw [ofRecord?_eq, ofRecord?_eq, field_replace hn.2.symm before after v w]
    -- Only the operation whose operand is replaced looks at it.
    by_cases hk : key = name
    · subst hk
      rcases field_replaced key before after v w with ⟨hv, hw⟩ | ⟨hv, hw⟩
      · simp [hv, hw]
      · simp [hv, hw, hr operation effect? he]
    · rw [field_replace hk before after v w]
  simp only [ofJson?_object, bounded, field_replace hn.1.symm before after v w, record]

theorem keysOfJson?_congr {ks ks' : List Json} (h : ∀ k, k ∈ ks ↔ k ∈ ks') {s : KeySet}
    (hs : keysOfJson? (.array ks) = some s) : keysOfJson? (.array ks') = some s := by
  obtain ⟨texts, ht, rfl⟩ := Option.map_eq_some_iff.1 hs
  obtain rfl := mapM_asString?_eq_some.1 ht
  have strings : ks' ∈ Set.range (List.map Json.string) := by
    rw [Set.range_list_map]
    intro k hk
    obtain ⟨text, -, rfl⟩ := List.mem_map.1 ((h k).2 hk)
    exact ⟨text, rfl⟩
  obtain ⟨texts', rfl⟩ := strings
  have inj : Function.Injective Json.string := fun _ _ => Json.string.inj
  have same : KeySet.ofKeys texts' = .ofKeys texts := Dictionary.ext_keys fun k => by
    rw [Dictionary.mem_keys_ofKeys, Dictionary.mem_keys_ofKeys, ← List.mem_map_of_injective inj,
      ← h, List.mem_map_of_injective inj]
  rw [keysOfJson?, asList?, mapM_asString?_eq_some.2 rfl, Option.map_some, same]

theorem ofJson?_keys {ks ks' : List Json} (h : ∀ k, k ∈ ks ↔ k ∈ ks')
    (before after : List (String × Json)) :
    ofJson? (.object (before ++ ("keys", .array ks) :: after)) =
      ofJson? (.object (before ++ ("keys", .array ks') :: after)) := by
  have same : keysOfJson? (.array ks) = keysOfJson? (.array ks') :=
    Option.ext fun s => ⟨keysOfJson?_congr h, keysOfJson?_congr fun k => (h k).symm⟩
  refine ofJson?_replace ?_ (by decide) (fun operation effect? hr => ?_) before after
  · rw [bounded_array, bounded_array]
    exact forall_congr' fun k => by rw [h]
  · rw [reader?_keys hr, reader?_keys hr, same]

theorem propertiesOfJson?_ofEntries (es : List (String × String)) :
    propertiesOfJson? (ofEntries es) = some (.ofList es) := by
  have read : (es.map fun e => (e.1, Json.string e.2)).mapM propertyOfJson? = some es := by
    induction es with
    | nil => rfl
    | cons e es ih => simp [propertyOfJson?, asString?, ih]
  rw [ofEntries, propertiesOfJson?, read, Option.map_some]

theorem ofJson?_properties {es es' : List (String × String)}
    (h : ∀ k, lastValue es k = lastValue es' k) (before after : List (String × Json)) :
    ofJson? (.object (before ++ ("properties", ofEntries es) :: after)) =
      ofJson? (.object (before ++ ("properties", ofEntries es') :: after)) := by
  have same : Dictionary.ofList es = .ofList es' :=
    Dictionary.ext_get? fun k => by rw [Dictionary.get?_ofList, h, Dictionary.get?_ofList]
  refine ofJson?_replace ?_ (by decide) (fun operation effect? hr => ?_) before after
  · simp only [bounded_ofEntries]
  · rw [reader?_properties hr, reader?_properties hr, propertiesOfJson?_ofEntries,
      propertiesOfJson?_ofEntries, same]

/-! ### One operation at a time -/

/-- The fields of a change, with the tag first. -/
def tagged (operation : String) (catalog : List String) (key : String) (operand : Json) :
    List (String × Json) :=
  [("operation", .string operation), ("catalog", .ofStrings catalog), (key, operand)]

theorem ofJson?_tagged {operation key : String} {effect? : Json → Option Effect} {operand : Json}
    (hr : Effect.reader? operation = some (key, effect?)) (hb : operand.Bounded 126)
    (catalog : List String) :
    ofJson? (.object (tagged operation catalog key operand)) =
      (effect? operand).map fun effect => ⟨catalog, effect⟩ := by
  obtain ⟨ho, hc⟩ := reader?_key hr
  have bounded : (object (tagged operation catalog key operand)).Bounded 127 := by
    refine bounded_object.2 ?_
    simp [tagged, bounded_string, bounded_ofStrings, hb]
  have catalogs : asList? asString? (ofStrings catalog) = some catalog :=
    strings_rearranged (.refl _)
  rw [ofJson?_object, if_pos bounded]
  simp [tagged, field, valuesOf, ho, hc, ho.symm, hc.symm, asString?, ofFields?, hr, ofRecord?_eq,
    catalogs]

theorem ofJson?_reset (catalog texts : List String) :
    ofJson? (.object (tagged "reset_properties" catalog "keys" (.ofStrings texts))) =
      some ⟨catalog, .resetProperties (.ofKeys texts)⟩ := by
  have keys : keysOfJson? (.ofStrings texts) = some (.ofKeys texts) := by
    rw [keysOfJson?, strings_rearranged (.refl _), Option.map_some]
  rw [ofJson?_tagged rfl (bounded_ofStrings ..), keys]
  rfl

theorem ofJson?_set (catalog : List String) (es : List (String × String)) :
    ofJson? (.object (tagged "set_properties" catalog "properties" (ofEntries es))) =
      some ⟨catalog, .setProperties (.ofList es)⟩ := by
  rw [ofJson?_tagged rfl (bounded_ofEntries ..), propertiesOfJson?_ofEntries]
  rfl

theorem ofJson?_rename (catalog newName : List String) :
    ofJson? (.object (tagged "rename" catalog "new_name" (.ofStrings newName))) =
      some ⟨catalog, .rename newName⟩ := by
  rw [ofJson?_tagged rfl (bounded_ofStrings ..), strings_rearranged (.refl _)]
  rfl

theorem ofJson?_comment (catalog : List String) (text : String) :
    ofJson? (.object (tagged "set_comment" catalog "comment" (.string text))) =
      some ⟨catalog, .setComment text⟩ := by
  rw [ofJson?_tagged rfl (bounded_string ..)]
  rfl

/-! ## Round trip -/

theorem toJson_perm (c : Change) : ∃ fields, c.toJson = .object fields ∧
    fields.Perm (tagged c.operation c.catalog c.effect.operandKey c.effect.toJson) := by
  obtain ⟨catalog, effect⟩ := c
  cases effect with
  | setProperties properties => exact ⟨_, rfl, .swap ..⟩
  | _ => exact ⟨_, rfl, ((List.Perm.swap ..).cons _).trans (.swap ..)⟩

theorem ofJson?_toJson (c : Change) : ofJson? c.toJson = some c := by
  obtain ⟨fields, hj, hp⟩ := c.toJson_perm
  rw [hj, ofJson?_perm hp]
  obtain ⟨catalog, effect⟩ := c
  cases effect with
  | resetProperties keys =>
    exact (ofJson?_reset catalog keys.keys).trans (by rw [Dictionary.ofKeys_keys])
  | setProperties properties =>
    exact (ofJson?_set catalog properties.entries).trans (by rw [Dictionary.ofList_entries])
  | rename newName => exact ofJson?_rename catalog newName
  | setComment comment => exact ofJson?_comment catalog comment

theorem legible_toJson (c : Change) : c.toJson.Legible := by
  have operand : c.effect.toJson.Legible := by
    cases c.effect with
    | resetProperties keys => exact legible_ofStrings keys.keys
    | setProperties properties => exact .object (List.forall_mem_map.2 fun e _ => .string e.2)
    | rename newName => exact legible_ofStrings newName
    | setComment comment => exact .string comment
  obtain ⟨fields, hj, hp⟩ := c.toJson_perm
  rw [hj]
  refine .object fun f hf => ?_
  have hf := hp.mem_iff.1 hf
  simp only [tagged, List.mem_cons, List.not_mem_nil, or_false] at hf
  rcases hf with rfl | rfl | rfl
  · exact .string _
  · exact legible_ofStrings _
  · exact operand

/-- A change is read back from its text in any order of the fields. -/
theorem reads_text {c : Change} {fields fs : List (String × Json)} (hj : c.toJson = .object fields)
    (hp : fs.Perm fields) : (parse? (object fs).compact).bind ofJson? = some c ∧
      (parse? (object fs).pretty).bind ofJson? = some c := by
  have rearranged : (object fs).Rearranges c.toJson :=
    hj ▸ .object hp rfl (List.forall₂_same.2 fun v _ => .refl v)
  have legible := c.legible_toJson.of_rearranges rearranged
  have read : ofJson? (.object fs) = some c := by rw [ofJson?_perm hp, ← hj, ofJson?_toJson]
  rw [parse?_compact legible, parse?_pretty legible]
  exact ⟨read, read⟩

end Change

/-! ## As statements resolve -/

/-- What an action asks for as it is written, repeated keys and all: the operation, the key of the
operand and the operand. -/
def Action.transcript : Action → Except NodeError (String × String × Json)
  | set settings => (settings.items.mapM Setting.entry).map fun es =>
      ("set_properties", "properties", Json.ofEntries es)
  | reset keys => (keys.items.mapM Literal.asText).map fun texts =>
      ("reset_properties", "keys", .ofStrings texts)
  | rename newName => .ok ("rename", "new_name", .ofStrings newName.parts)
  | comment text => text.asText.map fun comment => ("set_comment", "comment", .string comment)

def Statement.transcript (s : Statement) : Except NodeError (List (String × Json)) :=
  s.action.transcript.map fun t => Change.tagged t.1 s.catalog.parts t.2.1 t.2.2

theorem Statement.transcript_reads (s : Statement) :
    (s.transcript.map fun fields => Change.ofJson? (.object fields)) = s.change.map some := by
  obtain ⟨span, catalog, action⟩ := s
  cases action with
  | set settings =>
    simp only [transcript, Action.transcript, change, Action.effect, setProperties]
    cases settings.items.mapM Setting.entry with
    | error e => rfl
    | ok es => exact congrArg Except.ok (Change.ofJson?_set catalog.parts es)
  | reset keys =>
    simp only [transcript, Action.transcript, change, Action.effect, resetKeys]
    cases keys.items.mapM Literal.asText with
    | error e => rfl
    | ok texts => exact congrArg Except.ok (Change.ofJson?_reset catalog.parts texts)
  | rename newName => exact congrArg Except.ok (Change.ofJson?_rename catalog.parts newName.parts)
  | comment text =>
    simp only [transcript, Action.transcript, change, Action.effect]
    cases text.asText with
    | error e => rfl
    | ok comment => exact congrArg Except.ok (Change.ofJson?_comment catalog.parts comment)

/-- **Changes round-trip through JSON.** A change is read back from its JSON and from its text, on
one line or over several and in any order of the fields, so no two changes have one JSON. The order
of fields does not count for any object, nor do the order and the repetitions of keys, and of the
values of a property the last one counts: a statement written down key by key as it stands is read as
the change that it resolves to. -/
theorem change_json_roundTrip :
    (∀ c : Change, Change.ofJson? c.toJson = some c) ∧
    (∀ (c : Change) (fields fs : List (String × Json)), c.toJson = .object fields →
      fs.Perm fields → (Json.parse? (Json.object fs).compact).bind Change.ofJson? = some c ∧
        (Json.parse? (Json.object fs).pretty).bind Change.ofJson? = some c) ∧
    (∀ c d : Change, c.toJson = d.toJson → c = d) ∧
    (∀ fs gs : List (String × Json), fs.Perm gs →
      Change.ofJson? (.object fs) = Change.ofJson? (.object gs)) ∧
    (∀ (before after : List (String × Json)) (ks ks' : List Json), (∀ k, k ∈ ks ↔ k ∈ ks') →
      Change.ofJson? (.object (before ++ ("keys", .array ks) :: after)) =
        Change.ofJson? (.object (before ++ ("keys", .array ks') :: after))) ∧
    (∀ (before after : List (String × Json)) (es es' : List (String × String)),
      (∀ k, lastValue es k = lastValue es' k) →
      Change.ofJson? (.object (before ++ ("properties", .ofEntries es) :: after)) =
        Change.ofJson? (.object (before ++ ("properties", .ofEntries es') :: after))) ∧
    (∀ (catalog : List String) (es : List (String × String)), ∃ ps,
      Change.ofJson? (.object
        (Change.tagged "set_properties" catalog "properties" (.ofEntries es))) =
          some ⟨catalog, .setProperties ps⟩ ∧ ∀ k, ps.get? k = lastValue es k) ∧
    (∀ s : Statement, (s.transcript.map fun fields => Change.ofJson? (.object fields)) =
      s.change.map some) := by
  refine ⟨Change.ofJson?_toJson, fun _ _ _ => Change.reads_text, fun _ _ => Change.toJson_inj.1,
    fun _ _ => Change.ofJson?_perm, fun before after _ _ h => Change.ofJson?_keys h before after,
    fun before after _ _ h => Change.ofJson?_properties h before after, fun catalog es => ?_,
    Statement.transcript_reads⟩
  exact ⟨_, Change.ofJson?_set catalog es, Dictionary.get?_ofList es⟩

theorem change_json_roundTrip_late_tag : ∃ ps,
    Change.ofJson? (.object [("catalog", .ofStrings ["c"]),
      ("properties", .ofEntries [("operation", "1"), ("catalog", "2"), ("operation", "3")]),
      ("operation", .string "set_properties")]) = some ⟨["c"], .setProperties ps⟩ ∧
    ps.get? "operation" = some "3" := by
  obtain ⟨-, -, -, order, -, last, given, -⟩ := change_json_roundTrip
  have same : ∀ k, lastValue [("operation", "1"), ("catalog", "2"), ("operation", "3")] k =
      lastValue [("catalog", "2"), ("operation", "3")] k := by
    intro k
    by_cases ho : "operation" = k
    · subst ho
      rfl
    · by_cases hc : "catalog" = k
      · subst hc
        rfl
      · simp [lastValue, ho, hc]
  obtain ⟨ps, read, get⟩ := given ["c"] [("catalog", "2"), ("operation", "3")]
  have late :=
    last [("catalog", .ofStrings ["c"])] [("operation", .string "set_properties")] _ _ same
  have front := order _ (Change.tagged "set_properties" ["c"] "properties"
    (.ofEntries [("catalog", "2"), ("operation", "3")]))
    (((List.Perm.swap ..).cons _).trans (.swap ..))
  exact ⟨ps, late.trans (front.trans read), get "operation"⟩

end AlterCatalog
