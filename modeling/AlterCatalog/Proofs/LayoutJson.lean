import AlterCatalog.Layout.Json
import AlterCatalog.Proofs.Records
import Mathlib.Data.List.Nodup

/-!
# Layouts from JSON

Each field of a layout can be given at most once. The layout that an object stands for is the
default one with the given fields set, so the order of the fields does not count, nor what else
the object holds.
-/

namespace AlterCatalog

namespace Layout

inductive Field where
  | pretty | indentWidth | keywordCase | quoteAll
deriving DecidableEq

def Field.key : Field → String
  | pretty => "pretty"
  | indentWidth => "indent_width"
  | keywordCase => "keyword_case"
  | quoteAll => "quote_all_identifiers"

def isKnown (key : String) : Bool :=
  [Field.pretty, .indentWidth, .keywordCase, .quoteAll].any fun f => f.key == key

/-- A field with its value. -/
inductive Entry where
  | pretty (b : Bool)
  | indentWidth (n : UInt64)
  | keywordCase (k : KeywordCase)
  | quoteAll (b : Bool)

def Entry.field : Entry → Field
  | pretty _ => .pretty
  | indentWidth _ => .indentWidth
  | keywordCase _ => .keywordCase
  | quoteAll _ => .quoteAll

def Entry.set : Layout → Entry → Layout
  | l, pretty b => { l with pretty := b }
  | l, indentWidth n => { l with indentWidth := n }
  | l, keywordCase k => { l with keywordCase := k }
  | l, quoteAll b => { l with quoteAll := b }

/-- The values that stand for a field's value; the name of a letter case may be a key as well. -/
inductive Entry.WrittenAs : Entry → Json → Prop
  | pretty (b : Bool) : WrittenAs (.pretty b) (.bool b)
  | indentWidth (n : UInt64) : WrittenAs (.indentWidth n) (.int n.toNat)
  | upper : WrittenAs (.keywordCase .upper) (.string "upper")
  | lower : WrittenAs (.keywordCase .lower) (.string "lower")
  | upperKey : WrittenAs (.keywordCase .upper) (.object [("upper", .null)])
  | lowerKey : WrittenAs (.keywordCase .lower) (.object [("lower", .null)])
  | quoteAll (b : Bool) : WrittenAs (.quoteAll b) (.bool b)

def entry (l : Layout) : Field → Entry
  | .pretty => .pretty l.pretty
  | .indentWidth => .indentWidth l.indentWidth
  | .keywordCase => .keywordCase l.keywordCase
  | .quoteAll => .quoteAll l.quoteAll

theorem Field.key_injective : Function.Injective Field.key := by
  intro f g h
  revert h
  cases f <;> cases g <;> decide

theorem Field.forall_iff {p : Field → Prop} :
    (∀ f, p f) ↔ p .pretty ∧ p .indentWidth ∧ p .keywordCase ∧ p .quoteAll := by
  constructor
  · intro h
    exact ⟨h _, h _, h _, h _⟩
  · intro h f
    cases f
    exacts [h.1, h.2.1, h.2.2.1, h.2.2.2]

theorem isKnown_key (f : Field) : isKnown f.key = true := by
  cases f <;> rfl

theorem exists_key {key : String} (h : isKnown key = true) : ∃ f : Field, f.key = key := by
  obtain ⟨f, _, hf⟩ := List.any_eq_true.1 h
  exact ⟨f, eq_of_beq hf⟩

theorem eq_of_entry {l m : Layout} (h : ∀ f, l.entry f = m.entry f) : l = m := by
  obtain ⟨p, i, k, q⟩ := l
  obtain ⟨p', i', k', q'⟩ := m
  simp only [Field.forall_iff, entry, Entry.pretty.injEq, Entry.indentWidth.injEq,
    Entry.keywordCase.injEq, Entry.quoteAll.injEq] at h
  rw [h.1, h.2.1, h.2.2.1, h.2.2.2]

theorem entry_set (l : Layout) (e : Entry) (f : Field) :
    (e.set l).entry f = if f = e.field then e else l.entry f := by
  cases e <;> cases f <;> rfl

/-! ## One field -/

def Field.read? : Field → Json → Option Entry
  | pretty, v => v.asBool?.map .pretty
  | indentWidth, v => v.asUInt64?.map .indentWidth
  | keywordCase, v => (KeywordCase.ofJson? v).map .keywordCase
  | quoteAll, v => v.asBool?.map .quoteAll

theorem ofJson?_keywordCase {v : Json} {k : KeywordCase} :
    KeywordCase.ofJson? v = some k ↔ (Entry.keywordCase k).WrittenAs v := by
  constructor
  · intro h
    unfold KeywordCase.ofJson? at h
    split at h
    · next hv =>
      obtain ⟨rfl, _⟩ | ⟨j, _, hj⟩ := Json.variant_eq_some.1 hv
      · cases h
        exact .upper
      · cases hj
    · next hv =>
      obtain ⟨_, hj⟩ | ⟨j, rfl, hj⟩ := Json.variant_eq_some.1 hv
      · cases hj
      · cases h
        cases hj
        exact .upperKey
    · next hv =>
      obtain ⟨rfl, _⟩ | ⟨j, _, hj⟩ := Json.variant_eq_some.1 hv
      · cases h
        exact .lower
      · cases hj
    · next hv =>
      obtain ⟨_, hj⟩ | ⟨j, rfl, hj⟩ := Json.variant_eq_some.1 hv
      · cases hj
      · cases h
        cases hj
        exact .lowerKey
    · cases h
  · intro h
    cases h <;> rfl

theorem read?_eq_some {f : Field} {v : Json} {e : Entry} :
    f.read? v = some e ↔ e.field = f ∧ e.WrittenAs v := by
  constructor
  · intro h
    cases f with
    | pretty =>
      obtain ⟨b, hb, rfl⟩ := Option.map_eq_some_iff.1 h
      rw [Json.asBool?_eq_some.1 hb]
      exact ⟨rfl, .pretty b⟩
    | indentWidth =>
      obtain ⟨n, hc, rfl⟩ := Option.map_eq_some_iff.1 h
      rw [Json.asUInt64?_eq_some.1 hc]
      exact ⟨rfl, .indentWidth n⟩
    | keywordCase =>
      obtain ⟨k, hk, rfl⟩ := Option.map_eq_some_iff.1 h
      exact ⟨rfl, ofJson?_keywordCase.1 hk⟩
    | quoteAll =>
      obtain ⟨b, hb, rfl⟩ := Option.map_eq_some_iff.1 h
      rw [Json.asBool?_eq_some.1 hb]
      exact ⟨rfl, .quoteAll b⟩
  · intro h
    obtain ⟨rfl, h⟩ := h
    cases h with
    | indentWidth n => simp [Entry.field, Field.read?, Json.asUInt64?_eq_some.2 rfl]
    | _ => rfl

/-- What a field of a layout is, given those of an object over a default. -/
def fieldOver (d : Layout) (fields : List (String × Json)) (f : Field) : Option Entry :=
  (Json.optionalField fields f.key).bind fun v => v.elim (some (d.entry f)) f.read?

theorem fieldOr_eq_some {α : Type} {read : Json → Option α} {make : α → Entry}
    (hm : Function.Injective make) (x y : α) (v : Option Json) :
    fieldOr x read v = some y ↔
      v.elim (some (make x)) (fun j => (read j).map make) = some (make y) := by
  cases v with
  | none => simp [fieldOr, hm.eq_iff]
  | some j => simp [fieldOr, hm.eq_iff]

theorem ofJson?_fields {fields : List (String × Json)} {l : Layout} :
    ofJson? (.object fields) = some l ↔ ∀ f, fieldOver {} fields f = some (l.entry f) := by
  rw [Field.forall_iff]
  simp only [fieldOver, Field.key]
  unfold ofJson?
  simp only [Json.partialRecord, List.mapM_cons, List.mapM_nil]
  cases Json.optionalField fields "pretty" with
  | none => simp
  | some p =>
  cases Json.optionalField fields "indent_width" with
  | none => simp
  | some i =>
  cases Json.optionalField fields "keyword_case" with
  | none => simp
  | some k =>
  cases Json.optionalField fields "quote_all_identifiers" with
  | none => simp
  | some q =>
  simp only [Option.pure_def, Option.bind_eq_bind, Option.bind_some, Option.bind_eq_some_iff,
    entry]
  constructor
  · rintro ⟨b, hp, n, hi, c, hk, b', hq, hl⟩
    cases hl
    exact ⟨(fieldOr_eq_some (fun _ _ => Entry.pretty.inj) _ _ p).1 hp,
      (fieldOr_eq_some (fun _ _ => Entry.indentWidth.inj) _ _ i).1 hi,
      (fieldOr_eq_some (fun _ _ => Entry.keywordCase.inj) _ _ k).1 hk,
      (fieldOr_eq_some (fun _ _ => Entry.quoteAll.inj) _ _ q).1 hq⟩
  · intro h
    obtain ⟨hp, hi, hk, hq⟩ := h
    exact ⟨_, (fieldOr_eq_some (fun _ _ => Entry.pretty.inj) _ _ p).2 hp,
      _, (fieldOr_eq_some (fun _ _ => Entry.indentWidth.inj) _ _ i).2 hi,
      _, (fieldOr_eq_some (fun _ _ => Entry.keywordCase.inj) _ _ k).2 hk,
      _, (fieldOr_eq_some (fun _ _ => Entry.quoteAll.inj) _ _ q).2 hq, rfl⟩

/-! ## All fields -/

section
variable (d : Layout) (f : Field) (v : Json) (fields : List (String × Json))

theorem fieldOver_absent (h : f.key ∉ fields.map Prod.fst) :
    fieldOver d fields f = some (d.entry f) := by
  rw [fieldOver, Json.optionalField, Json.valuesOf_eq_nil_iff.2 h]
  rfl

theorem fieldOver_cons_of_ne {key : String} (h : key ≠ f.key) :
    fieldOver d ((key, v) :: fields) f = fieldOver d fields f := by
  have hv : Json.valuesOf f.key ((key, v) :: fields) = Json.valuesOf f.key fields := by
    simp [Json.valuesOf, h]
  rw [fieldOver, fieldOver, Json.optionalField, Json.optionalField, hv]

theorem fieldOver_cons_key : fieldOver d ((f.key, v) :: fields) f =
    if f.key ∈ fields.map Prod.fst then none else f.read? v := by
  have hv : Json.valuesOf f.key ((f.key, v) :: fields) = v :: Json.valuesOf f.key fields := by
    simp [Json.valuesOf]
  rw [fieldOver, Json.optionalField, hv]
  by_cases h : f.key ∈ fields.map Prod.fst
  · rw [if_pos h]
    cases hw : Json.valuesOf f.key fields with
    | nil => exact absurd h (Json.valuesOf_eq_nil_iff.1 hw)
    | cons w ws => rfl
  · rw [if_neg h, Json.valuesOf_eq_nil_iff.2 h]
    rfl

end

theorem forall_fieldOver_cons {d l : Layout} {f : Field} {v : Json}
    {fields : List (String × Json)} :
    (∀ g, fieldOver d ((f.key, v) :: fields) g = some (l.entry g)) ↔
      ∃ e : Entry, e.field = f ∧ e.WrittenAs v ∧ f.key ∉ fields.map Prod.fst ∧
        ∀ g, fieldOver (e.set d) fields g = some (l.entry g) := by
  have later : ∀ {e : Entry} {g : Field}, e.field = f → g ≠ f →
      fieldOver d ((f.key, v) :: fields) g = fieldOver (e.set d) fields g := by
    intro e g he hg
    have hk : f.key ≠ g.key := fun hk => hg (Field.key_injective hk).symm
    rw [fieldOver_cons_of_ne d g v fields hk, fieldOver, fieldOver, entry_set, he, if_neg hg]
  constructor
  · intro h
    have hf := h f
    rw [fieldOver_cons_key] at hf
    by_cases hk : f.key ∈ fields.map Prod.fst
    · rw [if_pos hk] at hf
      cases hf
    · rw [if_neg hk] at hf
      obtain ⟨he, hw⟩ := read?_eq_some.1 hf
      refine ⟨l.entry f, he, hw, hk, fun g => ?_⟩
      by_cases hg : g = f
      · rw [hg, fieldOver_absent _ f fields hk, entry_set, he, if_pos rfl]
      · rw [← later he hg, h g]
  · intro h g
    obtain ⟨e, he, hw, hk, h⟩ := h
    by_cases hg : g = f
    · have hf := h f
      rw [fieldOver_absent _ f fields hk, entry_set, he, if_pos rfl] at hf
      rw [hg, fieldOver_cons_key, if_neg hk, read?_eq_some.2 ⟨he, hw⟩, hf]
    · rw [later he hg, h g]

/-- The fields of an object that a layout has. -/
def known (fields : List (String × Json)) : List (String × Json) :=
  fields.filter fun g => isKnown g.1

theorem known_cons_key (f : Field) (v : Json) (fields : List (String × Json)) :
    known ((f.key, v) :: fields) = (f.key, v) :: known fields :=
  List.filter_cons_of_pos (isKnown_key f)

theorem map_key_known (fields : List (String × Json)) :
    (known fields).map Prod.fst = (fields.map Prod.fst).filter isKnown := by
  rw [List.filter_map]
  rfl

/-- A field of an object gives a field of a layout its value. -/
def Gives (g : String × Json) (e : Entry) : Prop := g.1 = e.field.key ∧ e.WrittenAs g.2

theorem map_key_of_gives {gs : List (String × Json)} {es : List Entry}
    (h : List.Forall₂ Gives gs es) : gs.map Prod.fst = (es.map Entry.field).map Field.key := by
  induction h with
  | nil => rfl
  | cons hg _ ih => simp only [List.map_cons, hg.1, ih]

theorem key_mem_iff_of_gives {fields : List (String × Json)} {es : List Entry}
    (h : List.Forall₂ Gives (known fields) es) (f : Field) :
    f.key ∈ fields.map Prod.fst ↔ f ∈ es.map Entry.field := by
  rw [← List.mem_map_of_injective Field.key_injective, ← map_key_of_gives h, map_key_known,
    List.mem_filter, and_iff_left (isKnown_key f)]

/-- A layout that is `d` with the fields of an object set, each of them given once. -/
def Overrides (d : Layout) (fields : List (String × Json)) (l : Layout) : Prop :=
  ∃ entries : List Entry, List.Forall₂ Gives (known fields) entries ∧
    (entries.map Entry.field).Nodup ∧ entries.foldl Entry.set d = l

theorem overrides_cons {d l : Layout} {f : Field} {v : Json} {fields : List (String × Json)} :
    Overrides d ((f.key, v) :: fields) l ↔
      ∃ e : Entry, e.field = f ∧ e.WrittenAs v ∧ f.key ∉ fields.map Prod.fst ∧
        Overrides (e.set d) fields l := by
  constructor
  · rintro ⟨entries, hg, hn, hl⟩
    rw [known_cons_key] at hg
    obtain ⟨e, es, ⟨hk, he⟩, hgs, rfl⟩ := List.forall₂_cons_left_iff.1 hg
    obtain rfl := Field.key_injective hk
    rw [List.map_cons, List.nodup_cons] at hn
    exact ⟨e, rfl, he, fun h => hn.1 ((key_mem_iff_of_gives hgs _).1 h), es, hgs, hn.2, hl⟩
  · rintro ⟨e, rfl, he, hk, es, hg, hn, hl⟩
    refine ⟨e :: es, ?_, ?_, hl⟩
    · rw [known_cons_key]
      exact .cons ⟨rfl, he⟩ hg
    · rw [List.map_cons, List.nodup_cons]
      exact ⟨fun h => hk ((key_mem_iff_of_gives hg _).2 h), hn⟩

theorem forall_fieldOver_iff {l : Layout} : ∀ {fields : List (String × Json)} {d : Layout},
    (∀ f, fieldOver d fields f = some (l.entry f)) ↔ Overrides d fields l
  | [], d => by
    constructor
    · intro h
      refine ⟨[], .nil, .nil, eq_of_entry fun f => ?_⟩
      exact Option.some.inj (h f)
    · rintro ⟨entries, hg, _, rfl⟩ f
      cases hg
      rfl
  | (key, v) :: fields, d => by
    by_cases hk : isKnown key = true
    · obtain ⟨f, rfl⟩ := exists_key hk
      rw [forall_fieldOver_cons, overrides_cons]
      exact exists_congr fun e => and_congr_right fun _ => and_congr_right fun _ =>
        and_congr_right fun _ => forall_fieldOver_iff
    · have hf : ∀ f, fieldOver d ((key, v) :: fields) f = fieldOver d fields f := by
        intro f
        refine fieldOver_cons_of_ne d f v fields ?_
        rintro rfl
        exact hk (isKnown_key f)
      have hkn : known ((key, v) :: fields) = known fields := List.filter_cons_of_neg hk
      simp only [hf, forall_fieldOver_iff, Overrides, hkn]

theorem ofJson?_object {fields : List (String × Json)} {l : Layout} :
    ofJson? (.object fields) = some l ↔ Overrides {} fields l := by
  rw [ofJson?_fields, forall_fieldOver_iff]

theorem Overrides.count_le {d l : Layout} {fields : List (String × Json)} (h : Overrides d fields l)
    (f : Field) : (fields.map Prod.fst).count f.key ≤ 1 := by
  obtain ⟨es, hg, hn, _⟩ := h
  have hk : ((known fields).map Prod.fst).Nodup := by
    rw [map_key_of_gives hg]
    exact List.Nodup.map Field.key_injective hn
  rw [map_key_known] at hk
  rw [← List.count_filter (isKnown_key f)]
  exact List.nodup_iff_count_le_one.1 hk _

theorem Overrides.gives {d l : Layout} {fields : List (String × Json)} (h : Overrides d fields l)
    {g : String × Json} (hg : g ∈ fields) {f : Field} (hf : g.1 = f.key) : ∃ e, Gives g e := by
  have hk : isKnown g.1 = true := by rw [hf, isKnown_key]
  obtain ⟨es, hes, _, _⟩ := h
  obtain ⟨e, _, he⟩ := Json.exists_of_forall₂ hes g (List.mem_filter.2 ⟨hg, hk⟩)
  exact ⟨e, he⟩

theorem ofJson?_perm {fs gs : List (String × Json)} (h : fs.Perm gs) :
    ofJson? (.object fs) = ofJson? (.object gs) := by
  have hf : Json.optionalField fs = Json.optionalField gs :=
    funext (Json.optionalField_eq_of_perm h)
  rw [ofJson?, ofJson?, Json.partialRecord, Json.partialRecord, hf]

/-! ## Layouts written and read back -/

section
variable {c : Layout}

theorem ofJson?_toJson : ofJson? c.toJson = some c := by
  have hk : (Entry.keywordCase c.keywordCase).WrittenAs c.keywordCase.toJson := by
    cases c.keywordCase
    · exact .upper
    · exact .lower
  refine ofJson?_object.2 ⟨[.indentWidth c.indentWidth, .keywordCase c.keywordCase,
    .pretty c.pretty, .quoteAll c.quoteAll], ?_, by simp [Entry.field], rfl⟩
  exact .cons ⟨rfl, .indentWidth _⟩ (.cons ⟨rfl, hk⟩ (.cons ⟨rfl, .pretty _⟩
    (.cons ⟨rfl, .quoteAll _⟩ .nil)))

theorem legible_toJson : c.toJson.Legible := by
  have hk : c.keywordCase.toJson.Legible := by
    cases c.keywordCase <;> exact .string _
  apply Json.Legible.object
  simp [Json.legible_natCast c.indentWidth.toNat_lt, hk, Json.Legible.bool]

theorem ofJson?_rearranged {j : Json} (h : j.Rearranges c.toJson) : ofJson? j = some c := by
  have hk : ∀ k : Json, k.Rearranges c.keywordCase.toJson → k = c.keywordCase.toJson := by
    cases c.keywordCase <;> exact fun k hk => by cases hk; rfl
  obtain ⟨fs, rfl, hp⟩ : ∃ fs, j = .object fs ∧ fs.Perm _ := by
    refine h.fields_of_atoms ?_
    simp only [List.forall_mem_cons, List.not_mem_nil, false_implies, implies_true, and_true]
    refine ⟨fun k hi => ?_, hk, fun k hb => ?_, fun k hb => ?_⟩
    · cases hi
      rfl
    · cases hb
      rfl
    · cases hb
      rfl
  rw [ofJson?_perm hp]
  exact ofJson?_toJson

end

/-- **Layouts from JSON.** A layout is read back from its text. A text of an object stands for the
default layout with the fields set that the object gives, each of them once and with a value of its
kind; the order of the fields does not count, and no other object stands for a layout. -/
theorem layout_of_json :
    (∀ c : Layout, ∀ j : Json, j.Rearranges c.toJson →
      parse? j.compact = some c ∧ parse? j.pretty = some c) ∧
    ∀ text fields, Json.parse? text = some (.object fields) →
      (∀ l, parse? text = some l ↔ Overrides {} fields l) ∧
      (∀ text' fields', Json.parse? text' = some (.object fields') → fields'.Perm fields →
        parse? text' = parse? text) ∧
      (∀ f : Field, 1 < (fields.map Prod.fst).count f.key → parse? text = none) ∧
      ∀ g ∈ fields, ∀ f : Field, g.1 = f.key → (∀ e, ¬Gives g e) → parse? text = none := by
  constructor
  · intro c j hj
    have hl := legible_toJson.of_rearranges hj
    have hr := ofJson?_rearranged hj
    simp only [parse?, Json.parse?_compact hl, Json.parse?_pretty hl, Option.bind_some, hr,
      and_self]
  · intro text fields h
    have law : ∀ l, parse? text = some l ↔ Overrides {} fields l := by
      intro l
      rw [parse?, h, Option.bind_some, ofJson?_object]
    refine ⟨law, ?_, ?_, ?_⟩
    · intro text' fields' h' hp
      rw [parse?, parse?, h, h', Option.bind_some, Option.bind_some, ofJson?_perm hp]
    · intro f hf
      rw [Option.eq_none_iff_forall_ne_some]
      intro l hl
      have := ((law l).1 hl).count_le f
      omega
    · intro g hg f hf hn
      rw [Option.eq_none_iff_forall_ne_some]
      intro l hl
      obtain ⟨e, he⟩ := ((law l).1 hl).gives hg hf
      exact hn e he

/-- Only the fields of the object itself count, a repeated one of another name does not, and no
number of 64 bits is too large. -/
theorem layout_of_json_strange_neighbours :
    parse? "\x7b\"x\": [1e999, \x7b\"pretty\": 3\x7d], \"keyword_case\": \"lower\", \"x\": 0\x7d" =
      some { keywordCase := .lower } ∧
    parse? "\x7b\"indent_width\": 4, \"pretty\": true, \"indent_width\": 4\x7d" = none ∧
    parse? "\x7b\"pretty\": true, \"indent_width\": -1\x7d" = none ∧
    parse? (toJson { indentWidth := 18446744073709551615 }).compact =
      some { indentWidth := 18446744073709551615 } := by
  obtain ⟨roundTrip, read⟩ := layout_of_json
  refine ⟨?_, ?_, ?_, (roundTrip _ _ (.refl _)).1⟩
  · refine ((read _ [("x", .array [.unrepresentable, .object [("pretty", .int 3)]]),
      ("keyword_case", .string "lower"), ("x", .int 0)] ?_).1 _).2
      ⟨[.keywordCase .lower], .cons ⟨rfl, .lower⟩ .nil, by decide, rfl⟩
    with_unfolding_all rfl
  · refine (read _ [("indent_width", .int 4), ("pretty", .bool true), ("indent_width", .int 4)]
      ?_).2.2.1 .indentWidth (by decide)
    with_unfolding_all rfl
  · have h := read "\x7b\"pretty\": true, \"indent_width\": -1\x7d"
      [("pretty", .bool true), ("indent_width", .int (-1))] (by with_unfolding_all rfl)
    refine h.2.2.2 ("indent_width", .int (-1)) (by simp) .indentWidth rfl ?_
    intro e he
    obtain ⟨hk, hw⟩ := he
    have hf : Field.indentWidth = e.field := Field.key_injective hk
    have hr := read?_eq_some.2 ⟨hf.symm, hw⟩
    simp [Field.read?, Json.asUInt64?, Json.asCount?] at hr

end Layout

end AlterCatalog
