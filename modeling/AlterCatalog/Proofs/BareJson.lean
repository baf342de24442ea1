import AlterCatalog.Proofs.Bare
import AlterCatalog.Statement.Json
import Mathlib.Data.List.Forall2

/-!
# Equal up to spans

Two statements that differ at most in spans serve alike: they have the same text in every layout,
the same outline, change and explanation, and the same findings apart from places. What they are
stored as differs in spans only, and two statements that are not the same differ in more.
-/

namespace AlterCatalog

namespace Json

mutual

/-- A value without the fields that hold spans. -/
def withoutSpans : Json → Json
  | array items => array (itemsWithoutSpans items)
  | object fields => object (fieldsWithoutSpans fields)
  | j => j

def itemsWithoutSpans : List Json → List Json
  | [] => []
  | j :: js => j.withoutSpans :: itemsWithoutSpans js

def fieldsWithoutSpans : List (String × Json) → List (String × Json)
  | [] => []
  | (key, j) :: fs =>
    if key = "span" then fieldsWithoutSpans fs
    else (key, j.withoutSpans) :: fieldsWithoutSpans fs

end

theorem itemsWithoutSpans_eq (js : List Json) : itemsWithoutSpans js = js.map withoutSpans := by
  induction js with
  | nil => rfl
  | cons j js ih => rw [itemsWithoutSpans, ih, List.map_cons]

theorem ofStrings_withoutSpans (texts : List String) :
    (ofStrings texts).withoutSpans = ofStrings texts := by
  rw [ofStrings, withoutSpans, itemsWithoutSpans_eq, List.map_map]
  rfl

theorem ofStrings_inj {as bs : List String} : ofStrings as = ofStrings bs ↔ as = bs := by
  have h : Function.Injective string := fun _ _ => string.inj
  rw [ofStrings, ofStrings, array.injEq, h.list_map.eq_iff]

end Json

theorem map_eq_map_congr {α β γ : Type} {f : α → β} {g : α → γ}
    (h : ∀ a b, f a = f b ↔ g a = g b) :
    ∀ as bs : List α, as.map f = bs.map f ↔ as.map g = bs.map g
  | [], [] => by simp
  | [], _ :: _ => by simp
  | _ :: _, [] => by simp
  | a :: as, b :: bs => by simp [h a b, map_eq_map_congr h as bs]

/-! ## Nodes as JSON -/

theorem Name.withoutSpans_toJson (n : Name) :
    n.toJson.withoutSpans = .object [("names", .ofStrings n.parts)] := by
  simp [toJson, Json.withoutSpans, Json.fieldsWithoutSpans, Json.ofStrings_withoutSpans]

theorem LiteralValue.withoutSpans_toJson (v : LiteralValue) : v.toJson.withoutSpans = v.toJson := by
  cases v <;> simp [toJson, Json.withoutSpans, Json.fieldsWithoutSpans]

theorem LiteralValue.toJson_inj {v w : LiteralValue} : v.toJson = w.toJson ↔ v = w := by
  cases v <;> cases w <;> simp [toJson, Int64.toInt_inj]

theorem Literal.withoutSpans_toJson (l : Literal) :
    l.toJson.withoutSpans = .object [("value", l.value.toJson)] := by
  simp [toJson, Json.withoutSpans, Json.fieldsWithoutSpans, LiteralValue.withoutSpans_toJson]

theorem Setting.withoutSpans_toJson (s : Setting) : s.toJson.withoutSpans =
    .object [("key", s.key.toJson.withoutSpans), ("value", s.value.toJson.withoutSpans)] := by
  simp [toJson, Json.withoutSpans, Json.fieldsWithoutSpans]

theorem Listing.withoutSpans_toJson {α : Type} (item : α → Json) (l : Listing α) :
    (l.toJson item).withoutSpans =
      .object [("items", .array (l.items.map fun a => (item a).withoutSpans))] := by
  simp [toJson, Json.withoutSpans, Json.fieldsWithoutSpans, Json.itemsWithoutSpans_eq]

/-! ## Nodes told apart -/

theorem Name.withoutSpans_inj {m n : Name} :
    m.toJson.withoutSpans = n.toJson.withoutSpans ↔ m.bare = n.bare := by
  simp [withoutSpans_toJson, Json.ofStrings_inj, bare]

theorem Literal.withoutSpans_inj (k l : Literal) :
    k.toJson.withoutSpans = l.toJson.withoutSpans ↔ k.bare = l.bare := by
  simp [withoutSpans_toJson, LiteralValue.toJson_inj, bare]

theorem Setting.withoutSpans_inj (s t : Setting) :
    s.toJson.withoutSpans = t.toJson.withoutSpans ↔ s.bare = t.bare := by
  simp [withoutSpans_toJson, Literal.withoutSpans_inj, bare]

theorem Listing.withoutSpans_inj {α : Type} {item : α → Json} {bare : α → α}
    (h : ∀ a b, (item a).withoutSpans = (item b).withoutSpans ↔ bare a = bare b) (k l : Listing α) :
    (k.toJson item).withoutSpans = (l.toJson item).withoutSpans ↔ k.bare bare = l.bare bare := by
  simp [withoutSpans_toJson, Listing.bare, map_eq_map_congr h]

theorem Statement.withoutSpans_inj {a b : Statement} :
    a.toJson.withoutSpans = b.toJson.withoutSpans ↔ a.bare = b.bare := by
  obtain ⟨span, catalog, action⟩ := a
  obtain ⟨span', catalog', action'⟩ := b
  cases action <;> cases action' <;>
    simp [toJson, Json.withoutSpans, Json.fieldsWithoutSpans, Name.withoutSpans_inj,
      Literal.withoutSpans_inj, Listing.withoutSpans_inj Setting.withoutSpans_inj,
      Listing.withoutSpans_inj Literal.withoutSpans_inj, bare, Action.bare]

/-! ## Statements that differ in spans -/

/-- **Spans are diagnostics only.** Statements that differ at most in spans have the same texts, the
same change, the same outline, the same findings apart from places and the same explanation. They
are the statements whose JSON is the same apart from the spans in it. -/
theorem same_iff_apart_from_spans :
    (∀ a b : Statement, a.same b = true → (∀ l, a.sql l = b.sql l) ∧ a.change = b.change ∧
      a.outline = b.outline ∧ a.judgement = b.judgement) ∧
    (∀ as bs : List Statement, List.Forall₂ (fun a b => a.same b = true) as bs →
      ∀ color, explainText color as = explainText color bs) ∧
    ∀ a b : Statement, a.same b = true ↔ a.toJson.withoutSpans = b.toJson.withoutSpans := by
  refine ⟨fun a b h => ?_, fun as bs h color => ?_, fun a b => ?_⟩
  · rw [Statement.same_iff] at h
    refine ⟨fun l => ?_, ?_, ?_, ?_⟩
    · rw [← a.sql_bare, h, b.sql_bare]
    · rw [← a.change_bare, h, b.change_bare]
    · rw [← a.outline_bare, h, b.outline_bare]
    · rw [← a.judgement_bare, h, b.judgement_bare]
  · have hmap : as.map Statement.bare = bs.map Statement.bare := by
      rw [← List.forall₂_eq_eq_eq, List.forall₂_map_left_iff, List.forall₂_map_right_iff]
      exact h.imp fun _ _ => Statement.same_iff.1
    rw [← explainText_bare, hmap, explainText_bare]
  · rw [Statement.same_iff, Statement.withoutSpans_inj]

/-- A statement read from the second line of a text, of which one key stands twice. -/
def Statement.placed : Statement where
  span := ⟨⟨2, 1, 3⟩, ⟨2, 37, 39⟩⟩
  catalog := ⟨["c"], ⟨⟨2, 15, 17⟩, ⟨2, 16, 18⟩⟩⟩
  action := .reset ⟨[⟨.text "k", ⟨⟨2, 24, 26⟩, ⟨2, 27, 29⟩⟩⟩, ⟨.text "k", ⟨⟨2, 29, 31⟩, ⟨2, 32, 34⟩⟩⟩],
    ⟨⟨2, 23, 25⟩, ⟨2, 33, 35⟩⟩⟩

theorem same_iff_apart_from_spans_placed :
    Statement.placed.same Statement.placed.bare = true ∧
    Statement.placed.judgement = Statement.placed.bare.judgement ∧
    explainText true [.placed] = explainText true [Statement.placed.bare] := by
  have h : Statement.placed.same Statement.placed.bare = true := by decide
  obtain ⟨one, all, -⟩ := same_iff_apart_from_spans
  exact ⟨h, (one _ _ h).2.2.2, all _ _ (.cons h .nil) true⟩

end AlterCatalog
