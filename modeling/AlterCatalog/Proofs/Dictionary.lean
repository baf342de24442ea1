import AlterCatalog.Change.Dictionary
import Mathlib.Data.List.Induction
import Mathlib.Data.List.Sort

/-!
# Content of a dictionary

Inserting an entry changes the value under its key and no other, so a dictionary made from a list
has the keys of the list, however often and in whatever order they stand, each with the value that
stands there last. A dictionary is nothing but these values, because the order of its entries is
that of their keys.
-/

namespace AlterCatalog

/-- The value that stands last under a key. -/
def lastValue {κ α : Type} [DecidableEq κ] (es : List (κ × α)) (k : κ) : Option α :=
  ((es.filter fun e => e.1 = k).getLast?).map Prod.snd

theorem lastValue_concat {κ α : Type} [DecidableEq κ] (es : List (κ × α)) (e : κ × α) (k : κ) :
    lastValue (es ++ [e]) k = if e.1 = k then some e.2 else lastValue es k := by
  by_cases h : e.1 = k <;> simp [lastValue, h]

theorem isSome_lastValue_iff {κ α : Type} [DecidableEq κ] {es : List (κ × α)} {k : κ} :
    (lastValue es k).isSome ↔ k ∈ es.map Prod.fst := by
  simp [lastValue]

theorem mem_of_lastValue {κ α : Type} [DecidableEq κ] {es : List (κ × α)} {k : κ} {v : α}
    (h : lastValue es k = some v) : (k, v) ∈ es := by
  obtain ⟨e, he, rfl⟩ := Option.map_eq_some_iff.1 h
  obtain ⟨hm, hk⟩ := List.mem_filter.1 (List.mem_of_getLast? he)
  obtain rfl : e.1 = k := by simpa using hk
  exact hm

namespace Dictionary

variable {α : Type}

theorem find?_insertEntry {k key : String} {value : α} (es : List (String × α)) :
    ((insertEntry key value es).find? fun e => e.1 == k).map Prod.snd =
      if key = k then some value else (es.find? fun e => e.1 == k).map Prod.snd := by
  induction es with
  | nil => by_cases hk : key = k <;> simp [insertEntry, hk]
  | cons e es ih =>
    unfold insertEntry
    by_cases hb : before key e.1
    · rw [if_pos hb]
      by_cases hk : key = k <;> simp [hk]
    · rw [if_neg hb]
      by_cases heq : key = e.1
      · -- The new value takes the place of the old one.
        by_cases hk : e.1 = k <;> simp [heq, hk]
      · rw [if_neg heq, List.find?_cons, List.find?_cons]
        by_cases he : e.1 = k
        · have hk : key ≠ k := fun h => heq (h.trans he.symm)
          simp [he, hk]
        · rw [beq_false_of_ne he]
          exact ih

theorem get?_insert (d : Dictionary α) (k key : String) (value : α) :
    (d.insert key value).get? k = if key = k then some value else d.get? k :=
  find?_insertEntry d.entries

theorem get?_ofList (es : List (String × α)) (k : String) : (ofList es).get? k = lastValue es k := by
  induction es using List.reverseRecOn with
  | nil => rfl
  | append_singleton es e ih =>
    have snoc : ofList (es ++ [e]) = (ofList es).insert e.1 e.2 := List.foldl_concat ..
    rw [snoc, get?_insert, ih, lastValue_concat]

theorem isSome_get?_iff {d : Dictionary α} {k : String} : (d.get? k).isSome ↔ k ∈ d.keys := by
  rw [get?, Option.isSome_map, List.find?_isSome, keys, List.mem_map]
  simp

theorem mem_keys_ofList {k : String} {es : List (String × α)} :
    k ∈ (ofList es).keys ↔ k ∈ es.map Prod.fst := by
  rw [← isSome_get?_iff, get?_ofList, isSome_lastValue_iff]

theorem mem_keys_ofKeys {k : String} {ks : List String} : k ∈ (KeySet.ofKeys ks).keys ↔ k ∈ ks := by
  rw [KeySet.ofKeys, mem_keys_ofList]
  simp

/-! ## Equality -/

theorem pairwise_keys (d : Dictionary α) : d.keys.Pairwise before := List.pairwise_map.2 d.sorted

theorem nodup_keys (d : Dictionary α) : d.keys.Nodup := by
  apply d.pairwise_keys.imp
  rintro a _ h rfl
  exact before_irrefl a h

theorem get?_eq_some_iff {d : Dictionary α} {k : String} {v : α} :
    d.get? k = some v ↔ (k, v) ∈ d.entries := by
  unfold get?
  constructor
  · intro h
    obtain ⟨e, he, rfl⟩ := Option.map_eq_some_iff.1 h
    have hk : e.1 = k := by simpa using List.find?_some he
    exact hk ▸ List.mem_of_find?_eq_some he
  · intro h
    cases he : d.entries.find? fun e => e.1 == k with
    | none => exact absurd (List.find?_eq_none.1 he _ h) (by simp)
    | some e =>
      have hk : e.1 = k := by simpa using List.find?_some he
      -- A key stands once, so the entry found is the one given.
      have once := List.inj_on_of_nodup_map d.nodup_keys (List.mem_of_find?_eq_some he) h hk
      rw [once, Option.map_some]

/-- Dictionaries with the same value under every key are equal. -/
theorem ext_get? {a b : Dictionary α} (h : ∀ k, a.get? k = b.get? k) : a = b := by
  have irrefl : Std.Irrefl fun e f : String × α => before e.1 f.1 := ⟨fun e => before_irrefl e.1⟩
  have antisymm : Std.Antisymm fun e f : String × α => before e.1 f.1 :=
    ⟨fun e _ hef hfe => absurd (before_trans hef hfe) (before_irrefl e.1)⟩
  refine ext_entries (a.sorted.eq_of_mem_iff b.sorted fun e => ?_)
  rw [← get?_eq_some_iff, h, get?_eq_some_iff]

/-- Sets of the same keys are equal. -/
theorem ext_keys {a b : KeySet} (h : ∀ k, k ∈ a.keys ↔ k ∈ b.keys) : a = b := by
  refine ext_get? fun k => ?_
  have hk := h k
  rw [← isSome_get?_iff, ← isSome_get?_iff] at hk
  revert hk
  cases a.get? k <;> cases b.get? k <;> simp

/-! ## Entries and keys written out -/

theorem lastValue_entries (d : Dictionary α) (k : String) : lastValue d.entries k = d.get? k := by
  cases h : lastValue d.entries k with
  | none =>
    have hk : ¬ (d.get? k).isSome := by
      rw [isSome_get?_iff, keys, ← isSome_lastValue_iff, h]
      simp
    exact (Option.not_isSome_iff_eq_none.1 hk).symm
  | some v => exact (get?_eq_some_iff.2 (mem_of_lastValue h)).symm

theorem ofList_entries (d : Dictionary α) : ofList d.entries = d :=
  ext_get? fun k => by rw [get?_ofList, lastValue_entries]

theorem ofKeys_keys (s : KeySet) : KeySet.ofKeys s.keys = s := ext_keys fun _ => mem_keys_ofKeys

end Dictionary

end AlterCatalog
