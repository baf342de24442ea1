import AlterCatalog.Json.Record
import AlterCatalog.Proofs.JsonText
import Mathlib.Data.List.Forall2
import Mathlib.Data.List.Perm.Basic

/-!
# Records in any order

A record is read by the names of its fields, so their order does not count. A value rearranges
another when the two differ only in the order of fields, in any of their objects.
-/

namespace AlterCatalog.Json

/-! ## Fields -/

theorem valuesOf_eq_nil_iff {key : String} {fields : List (String × Json)} :
    valuesOf key fields = [] ↔ key ∉ fields.map Prod.fst := by
  rw [valuesOf, List.map_eq_nil_iff, List.filter_eq_nil_iff]
  simp only [List.mem_map, not_exists, not_and, beq_iff_eq]

/-- One value stays where it is, and any other number of values stays that number. -/
theorem valuesOf_of_perm {fs gs : List (String × Json)} (h : fs.Perm gs) (key : String) :
    valuesOf key fs = valuesOf key gs ∨
      ∃ v w vs v' w' vs', valuesOf key fs = v :: w :: vs ∧ valuesOf key gs = v' :: w' :: vs' := by
  have hv : (valuesOf key fs).Perm (valuesOf key gs) := (h.filter _).map _
  revert hv
  generalize valuesOf key fs = vs
  generalize valuesOf key gs = ws
  intro hv
  match vs, ws, hv with
  | [], ws, hv => exact .inl (List.nil_perm.1 hv).symm
  | [v], ws, hv => exact .inl (List.singleton_perm.1 hv)
  | _ :: _ :: _, [], hv => cases hv.length_eq
  | _ :: _ :: _, [_], hv => cases hv.length_eq
  | _ :: _ :: _, _ :: _ :: _, _ => exact .inr ⟨_, _, _, _, _, _, rfl, rfl⟩

theorem field_eq_of_perm {fs gs : List (String × Json)} (h : fs.Perm gs) (key : String) :
    field fs key = field gs key := by
  unfold field
  obtain he | ⟨_, _, _, _, _, _, hf, hg⟩ := valuesOf_of_perm h key
  · rw [he]
  · rw [hf, hg]

theorem optionalField_eq_of_perm {fs gs : List (String × Json)} (h : fs.Perm gs) (key : String) :
    optionalField fs key = optionalField gs key := by
  unfold optionalField
  obtain he | ⟨_, _, _, _, _, _, hf, hg⟩ := valuesOf_of_perm h key
  · rw [he]
  · rw [hf, hg]

theorem record_eq_of_perm {fs gs : List (String × Json)} (h : fs.Perm gs) (names : List String) :
    (object fs).record names = (object gs).record names := by
  have hf : field fs = field gs := funext (field_eq_of_perm h)
  rw [record, record, hf]

theorem variant_eq_some {v : Json} {name : String} {content : Option Json} :
    v.variant = some (name, content) ↔
      (v = string name ∧ content = none) ∨ ∃ j, v = object [(name, j)] ∧ content = some j := by
  unfold variant
  split
  · simp [eq_comm]
  · simp [eq_comm]
  · simp_all

/-! ### One field replaced -/

theorem valuesOf_replace {name key : String} (h : key ≠ name) (before after : List (String × Json))
    (v w : Json) : valuesOf key (before ++ (name, v) :: after) =
      valuesOf key (before ++ (name, w) :: after) := by
  simp [valuesOf, h.symm]

theorem field_replace {name key : String} (h : key ≠ name) (before after : List (String × Json))
    (v w : Json) : field (before ++ (name, v) :: after) key =
      field (before ++ (name, w) :: after) key := by
  rw [field, field, valuesOf_replace h before after v w]

/-- Where a field stands once, its value is the one replaced. -/
theorem field_replaced (name : String) (before after : List (String × Json)) (v w : Json) :
    (field (before ++ (name, v) :: after) name = none ∧
      field (before ++ (name, w) :: after) name = none) ∨
    (field (before ++ (name, v) :: after) name = some v ∧
      field (before ++ (name, w) :: after) name = some w) := by
  have values : ∀ x : Json, valuesOf name (before ++ (name, x) :: after) =
      valuesOf name before ++ x :: valuesOf name after := fun x => by simp [valuesOf]
  rw [field, field, values, values]
  cases valuesOf name before with
  | nil =>
    cases valuesOf name after with
    | nil => exact .inr ⟨rfl, rfl⟩
    | cons y ys => exact .inl ⟨rfl, rfl⟩
  | cons y ys => cases ys <;> exact .inl ⟨rfl, rfl⟩

theorem field_filter_ne {name key : String} (h : key ≠ name) (fields : List (String × Json)) :
    field (fields.filter fun f => f.1 != name) key = field fields key := by
  have values : valuesOf key (fields.filter fun f => f.1 != name) = valuesOf key fields := by
    rw [valuesOf, valuesOf, List.filter_filter]
    congr 2
    funext f
    by_cases hf : f.1 = key <;> simp [hf, h]
  rw [field, field, values]

/-! ## Rearranged values -/

/-- Equal up to the order of fields. -/
inductive Rearranges : Json → Json → Prop
  | refl (j : Json) : Rearranges j j
  | array {as bs : List Json} (h : List.Forall₂ Rearranges as bs) : Rearranges (array as) (array bs)
  | object {fs gs hs : List (String × Json)} (hp : fs.Perm gs)
      (hk : gs.map Prod.fst = hs.map Prod.fst)
      (hv : List.Forall₂ Rearranges (gs.map Prod.snd) (hs.map Prod.snd)) :
      Rearranges (object fs) (object hs)

theorem forall₂_of_map {α β : Type} {r : β → β → Prop} : ∀ {fs gs : List (α × β)},
    fs.map Prod.fst = gs.map Prod.fst → List.Forall₂ r (fs.map Prod.snd) (gs.map Prod.snd) →
      List.Forall₂ (fun f g => f.1 = g.1 ∧ r f.2 g.2) fs gs
  | [], [], _, _ => .nil
  | f :: fs, g :: gs, hk, hv => by
    obtain ⟨hk, hks⟩ := List.cons.inj hk
    obtain ⟨hv, hvs⟩ := List.forall₂_cons.1 hv
    exact .cons ⟨hk, hv⟩ (forall₂_of_map hks hvs)

namespace Rearranges

theorem items {j : Json} {bs : List Json} (h : j.Rearranges (.array bs)) :
    ∃ as, j = .array as ∧ List.Forall₂ Rearranges as bs := by
  cases h with
  | refl => exact ⟨bs, rfl, List.forall₂_same.2 fun b _ => .refl b⟩
  | array h => exact ⟨_, rfl, h⟩

theorem fields {j : Json} {hs : List (String × Json)} (h : j.Rearranges (.object hs)) :
    ∃ fs gs, j = .object fs ∧ fs.Perm gs ∧
      List.Forall₂ (fun g f => g.1 = f.1 ∧ g.2.Rearranges f.2) gs hs := by
  cases h with
  | refl => exact ⟨hs, hs, rfl, .refl hs, List.forall₂_same.2 fun f _ => ⟨rfl, .refl f.2⟩⟩
  | object hp hk hv => exact ⟨_, _, rfl, hp, forall₂_of_map hk hv⟩

/-- Where no value can be rearranged, the order of the fields is all that differs. -/
theorem fields_of_atoms {j : Json} {hs : List (String × Json)} (h : j.Rearranges (.object hs))
    (ha : ∀ f ∈ hs, ∀ k : Json, k.Rearranges f.2 → k = f.2) :
    ∃ fs, j = .object fs ∧ fs.Perm hs := by
  obtain ⟨fs, gs, rfl, hp, hg⟩ := h.fields
  have he : gs = hs := by
    clear h hp
    induction hg with
    | nil => rfl
    | cons hgf _ ih =>
      obtain ⟨hf, hfs⟩ := List.forall_mem_cons.1 ha
      rw [ih hfs, Prod.ext hgf.1 (hf _ hgf.2)]
  exact ⟨fs, rfl, he ▸ hp⟩

theorem pair {j x y : Json} {a b : String} (h : j.Rearranges (.object [(a, x), (b, y)])) :
    ∃ x' y', x'.Rearranges x ∧ y'.Rearranges y ∧
      ∀ names, j.record names = (Json.object [(a, x'), (b, y')]).record names := by
  obtain ⟨fs, gs, rfl, hp, hg⟩ := h.fields
  simp only [List.forall₂_cons_right_iff, List.forall₂_nil_right_iff] at hg
  obtain ⟨⟨_, x'⟩, _, ⟨rfl, hx⟩, ⟨⟨_, y'⟩, _, ⟨rfl, hy⟩, rfl, rfl⟩, rfl⟩ := hg
  exact ⟨x', y', hx, hy, fun names => record_eq_of_perm hp names⟩

theorem triple {j x y z : Json} {a b c : String}
    (h : j.Rearranges (.object [(a, x), (b, y), (c, z)])) :
    ∃ x' y' z', x'.Rearranges x ∧ y'.Rearranges y ∧ z'.Rearranges z ∧
      ∀ names, j.record names = (Json.object [(a, x'), (b, y'), (c, z')]).record names := by
  obtain ⟨fs, gs, rfl, hp, hg⟩ := h.fields
  simp only [List.forall₂_cons_right_iff, List.forall₂_nil_right_iff] at hg
  obtain ⟨⟨_, x'⟩, _, ⟨rfl, hx⟩, ⟨⟨_, y'⟩, _, ⟨rfl, hy⟩, ⟨⟨_, z'⟩, _, ⟨rfl, hz⟩, rfl, rfl⟩, rfl⟩,
    rfl⟩ := hg
  exact ⟨x', y', z', hx, hy, hz, fun names => record_eq_of_perm hp names⟩

theorem variant {j x : Json} {name : String} (h : j.Rearranges (.object [(name, x)])) :
    ∃ x', x'.Rearranges x ∧ j.variant = some (name, some x') := by
  obtain ⟨fs, gs, rfl, hp, hg⟩ := h.fields
  simp only [List.forall₂_cons_right_iff, List.forall₂_nil_right_iff] at hg
  obtain ⟨⟨_, x'⟩, _, ⟨rfl, hx⟩, rfl, rfl⟩ := hg
  rw [List.perm_singleton.1 hp]
  exact ⟨x', hx, rfl⟩

end Rearranges

theorem exists_of_forall₂ {α β : Type} {r : α → β → Prop} {as : List α} {bs : List β}
    (h : List.Forall₂ r as bs) : ∀ a ∈ as, ∃ b ∈ bs, r a b := by
  induction h with
  | nil => exact List.forall_mem_nil _
  | cons hab _ ih =>
    refine List.forall_mem_cons.2 ⟨⟨_, List.mem_cons_self .., hab⟩, fun a ha => ?_⟩
    obtain ⟨b, hb, hab⟩ := ih a ha
    exact ⟨b, List.mem_cons_of_mem _ hb, hab⟩

theorem Legible.of_rearranges {k : Json} (hk : k.Legible) :
    ∀ {j : Json}, j.Rearranges k → j.Legible := by
  induction hk with
  | null =>
    intro j h
    cases h
    exact .null
  | bool b =>
    intro j h
    cases h
    exact .bool b
  | int hmin hmax =>
    intro j h
    cases h
    exact .int hmin hmax
  | string s =>
    intro j h
    cases h
    exact .string s
  | array _ ih =>
    intro j h
    obtain ⟨as, rfl, has⟩ := h.items
    refine .array fun a ha => ?_
    obtain ⟨b, hb, hab⟩ := exists_of_forall₂ has a ha
    exact ih b hb hab
  | object _ ih =>
    intro j h
    obtain ⟨fs, gs, rfl, hp, hg⟩ := h.fields
    refine .object fun f hf => ?_
    obtain ⟨g, hg, -, hfg⟩ := exists_of_forall₂ hg f (hp.mem_iff.1 hf)
    exact ih g hg hfg

/-! ## Lists and numbers -/

section
variable {α : Type} {read : Json → Option α} {write : α → Json}

theorem mapM_rearranged : ∀ {as : List α} {js : List Json},
    (∀ a ∈ as, ∀ j : Json, j.Rearranges (write a) → read j = some a) →
      List.Forall₂ Rearranges js (as.map write) → js.mapM read = some as
  | [], [], _, _ => rfl
  | a :: as, j :: js, hr, h => by
    obtain ⟨hj, hjs⟩ := List.forall₂_cons.1 h
    obtain ⟨ha, has⟩ := List.forall_mem_cons.1 hr
    rw [List.mapM_cons, ha j hj, mapM_rearranged has hjs]
    rfl

theorem asList?_rearranged {as : List α}
    (hr : ∀ a ∈ as, ∀ j : Json, j.Rearranges (write a) → read j = some a) {j : Json}
    (h : j.Rearranges (.array (as.map write))) : j.asList? read = some as := by
  obtain ⟨js, rfl, hjs⟩ := h.items
  exact mapM_rearranged hr hjs

end

theorem strings_rearranged {texts : List String} {j : Json} (h : j.Rearranges (.ofStrings texts)) :
    j.asList? asString? = some texts := by
  refine asList?_rearranged (fun text _ k hk => ?_) h
  cases hk
  rfl

theorem mapM_asString?_eq_some {ks : List Json} {texts : List String} :
    ks.mapM asString? = some texts ↔ ks = texts.map .string := by
  constructor
  · intro h
    induction ks generalizing texts with
    | nil => cases h; rfl
    | cons k ks ih =>
      simp only [List.mapM_cons, Option.bind_eq_bind, Option.bind_eq_some_iff] at h
      obtain ⟨text, hk, rest, hrest, h⟩ := h
      cases k <;> cases hk
      cases h
      rw [ih hrest, List.map_cons]
  · rintro rfl
    exact strings_rearranged (.refl _)

theorem asCount?_natCast {n : Nat} (h : n < UInt64.size) : (Json.int n).asCount? = some n := by
  have hn : (0 : Int) ≤ n ∧ (n : Int) < UInt64.size := ⟨Int.natCast_nonneg n, Int.ofNat_lt.2 h⟩
  rw [asCount?, if_pos hn, Int.toNat_natCast]

theorem asBool?_eq_some {v : Json} {b : Bool} : v.asBool? = some b ↔ v = bool b := by
  cases v <;> simp [asBool?]

theorem asCount?_eq_some {v : Json} {n : Nat} :
    v.asCount? = some n ↔ n < UInt64.size ∧ v = int n := by
  constructor
  · intro h
    cases v with
    | int m =>
      rw [asCount?] at h
      by_cases hm : 0 ≤ m ∧ m < UInt64.size
      · rw [if_pos hm, Option.some.injEq] at h
        subst h
        have hn : (m.toNat : Int) = m := Int.toNat_of_nonneg hm.1
        exact ⟨Int.ofNat_lt.1 (by rw [hn]; exact hm.2), by rw [hn]⟩
      · rw [if_neg hm] at h
        cases h
    | _ => cases h
  · intro h
    rw [h.2]
    exact asCount?_natCast h.1

theorem asUInt64?_eq_some {v : Json} {n : UInt64} : v.asUInt64? = some n ↔ v = int n.toNat := by
  constructor
  · intro h
    obtain ⟨m, hm, rfl⟩ := Option.map_eq_some_iff.1 h
    obtain ⟨hlt, rfl⟩ := asCount?_eq_some.1 hm
    rw [Nat.toUInt64_eq, UInt64.toNat_ofNat', Nat.mod_eq_of_lt hlt]
  · rintro rfl
    rw [asUInt64?, asCount?_natCast n.toNat_lt, Option.map_some, Nat.toUInt64_eq,
      UInt64.ofNat_toNat]

theorem asInt64?_toInt (v : Int64) : (Json.int v.toInt).asInt64? = some v := by
  rw [asInt64?, if_pos ⟨v.minValue_le_toInt, v.toInt_le⟩, Int64.ofInt_toInt]

end AlterCatalog.Json
