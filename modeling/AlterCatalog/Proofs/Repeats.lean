import AlterCatalog.Proofs.Canonical
import AlterCatalog.Proofs.Admission
import Mathlib.Data.Finset.Card
import Mathlib.Data.List.Forall2

/-!
# Keys that stand more than once

Validation goes through a list with the keys that it has seen and warns at a key that is one of
them. Seen from the end of the list, its last entry is warned of exactly when its key stands
somewhere before it. So the warnings are, one for one and in order, the positions at which a key
stands again, and as many as the list has more positions than keys.
-/

namespace AlterCatalog

/-- The positions of a list at which something stands that an earlier position has. -/
def repeats {κ : Type} [DecidableEq κ] (ks : List κ) : List Nat :=
  (List.range ks.length).filter fun i => ∃ j < i, ks[j]? = ks[i]?

section
variable {κ : Type} [DecidableEq κ]

theorem repeats_concat (ks : List κ) (k : κ) :
    repeats (ks ++ [k]) = repeats ks ++ if k ∈ ks then [ks.length] else [] := by
  have earlier : ∀ i ∈ List.range ks.length,
      decide (∃ j < i, (ks ++ [k])[j]? = (ks ++ [k])[i]?) = decide (∃ j < i, ks[j]? = ks[i]?) := by
    intro i hi
    rw [List.mem_range] at hi
    refine decide_eq_decide.2 (exists_congr fun j => and_congr_right fun hj => ?_)
    rw [List.getElem?_append_left hi, List.getElem?_append_left (hj.trans hi)]
  have last : (∃ j < ks.length, (ks ++ [k])[j]? = some k) ↔ k ∈ ks := by
    rw [List.mem_iff_getElem?]
    constructor
    · rintro ⟨j, hj, h⟩
      rw [List.getElem?_append_left hj] at h
      exact ⟨j, h⟩
    · rintro ⟨j, h⟩
      obtain ⟨hj, -⟩ := List.getElem?_eq_some_iff.1 h
      exact ⟨j, hj, by rw [List.getElem?_append_left hj, h]⟩
  rw [repeats, List.length_append, List.length_singleton, List.range_succ, List.filter_append,
    List.filter_congr earlier]
  congr 1
  by_cases hk : k ∈ ks <;> simp [last, hk]

theorem length_repeats (ks : List κ) : (repeats ks).length + ks.toFinset.card = ks.length := by
  induction ks using List.reverseRecOn with
  | nil => rfl
  | append_singleton ks k ih =>
    have set : (ks ++ [k]).toFinset = insert k ks.toFinset := by
      ext x
      simp
    rw [repeats_concat, set, List.length_append, List.length_append, List.length_singleton]
    by_cases hk : k ∈ ks
    · rw [if_pos hk, Finset.insert_eq_of_mem (List.mem_toFinset.2 hk), List.length_singleton]
      omega
    · rw [if_neg hk, Finset.card_insert_of_notMem (mt List.mem_toFinset.1 hk), List.length_nil]
      omega

theorem lt_of_mem_repeats {ks : List κ} {i : Nat} (h : i ∈ repeats ks) : i < ks.length :=
  List.mem_range.1 (List.mem_filter.1 h).1

/-- Positions that repeat something of a kind. -/
theorem filter_repeats_concat (p : κ → Bool) (ks : List κ) (k : κ) :
    ((repeats (ks ++ [k])).filter fun i => (ks ++ [k])[i]?.any p) =
      ((repeats ks).filter fun i => ks[i]?.any p) ++ if k ∈ ks ∧ p k then [ks.length] else [] := by
  have earlier : ∀ i ∈ repeats ks, (ks ++ [k])[i]?.any p = ks[i]?.any p := by
    intro i hi
    rw [List.getElem?_append_left (lt_of_mem_repeats hi)]
  rw [repeats_concat, List.filter_append, List.filter_congr earlier]
  congr 1
  by_cases hk : k ∈ ks <;> cases hp : p k <;> simp [hk, hp]

theorem repeats_eq_nil_iff {ks : List κ} : repeats ks = [] ↔ ks.Nodup := by
  induction ks using List.reverseRecOn with
  | nil => simp [repeats]
  | append_singleton ks k ih =>
    rw [repeats_concat, List.append_eq_nil_iff, ih, ← List.concat_eq_append, List.nodup_concat]
    by_cases hk : k ∈ ks <;> simp [hk]

end

/-! ## Warnings -/

namespace Validation

/-- Whether a value serves as a key. -/
def isKey : LiteralValue → Bool
  | .text k => k ≠ ""
  | _ => false

section
variable {α : Type} {key? : α → Option String}

/-- The last entry of a list is warned of when its key stands before it. -/
theorem repeated_concat (x : α) : ∀ (xs : List α) (seen : List String),
    repeated key? seen (xs ++ [x]) = repeated key? seen xs ++ (key? x).elim [] fun k =>
      if k ∈ seen ∨ k ∈ xs.filterMap key? then [(k, x)] else []
  | [], seen => by cases hx : key? x <;> simp [repeated, hx]
  | a :: xs, seen => by
    rw [List.cons_append, repeated, repeated]
    cases ha : key? a with
    | none => simp only [repeated_concat x xs seen, List.filterMap_cons, ha]
    | some l =>
      rw [List.filterMap_cons_some ha]
      by_cases hl : l ∈ seen
      · -- A key that is seen already adds nothing to those seen.
        have same : ∀ k, (k ∈ seen ∨ k ∈ l :: xs.filterMap key?) ↔
            (k ∈ seen ∨ k ∈ xs.filterMap key?) := by
          intro k
          have hk : k = l → k ∈ seen := fun h => h ▸ hl
          rw [List.mem_cons, ← or_assoc, or_iff_left_of_imp hk]
        simp only [if_pos hl, repeated_concat x xs seen, same, List.cons_append]
      · have same : ∀ k, (k ∈ l :: seen ∨ k ∈ xs.filterMap key?) ↔
            (k ∈ seen ∨ k ∈ l :: xs.filterMap key?) := by
          intro k
          simp only [List.mem_cons, or_left_comm, or_assoc]
        simp only [if_neg hl, repeated_concat x xs (l :: seen), same]

/-- The entries warned of stand at the positions that repeat a value which serves as a key. -/
theorem forall₂_repeated {keyOf : α → LiteralValue}
    (hk : ∀ x k, key? x = some k ↔ keyOf x = .text k ∧ k ≠ "") : ∀ xs : List α,
      List.Forall₂ (fun r i => xs[i]? = some r.2 ∧ keyOf r.2 = .text r.1) (repeated key? [] xs)
        ((repeats (xs.map keyOf)).filter fun i => (xs.map keyOf)[i]?.any isKey) := by
  intro xs
  induction xs using List.reverseRecOn with
  | nil => exact .nil
  | append_singleton xs x ih =>
    have earlier : List.Forall₂ (fun r i => (xs ++ [x])[i]? = some r.2 ∧ keyOf r.2 = .text r.1)
        (repeated key? [] xs)
        ((repeats (xs.map keyOf)).filter fun i => (xs.map keyOf)[i]?.any isKey) :=
      ih.imp fun _ _ ⟨hi, hv⟩ =>
        ⟨(List.getElem?_append_left (List.getElem?_eq_some_iff.1 hi).1).trans hi, hv⟩
    rw [repeated_concat, List.map_append, List.map_singleton, filter_repeats_concat,
      List.length_map]
    cases hx : key? x with
    | none =>
      have hn : isKey (keyOf x) = false := by
        cases hv : keyOf x with
        | text k =>
          by_cases he : k = ""
          · simp [isKey, he]
          · rw [(hk x k).2 ⟨hv, he⟩] at hx
            cases hx
        | _ => rfl
      rw [if_neg (by simp [hn])]
      exact List.rel_append earlier .nil
    | some k =>
      obtain ⟨hv, hne⟩ := (hk x k).1 hx
      have hp : isKey (keyOf x) = true := by simp [hv, isKey, hne]
      have before : k ∈ xs.filterMap key? ↔ keyOf x ∈ xs.map keyOf := by
        rw [List.mem_filterMap, List.mem_map, hv]
        refine exists_congr fun y => and_congr_right fun _ => ?_
        rw [hk, and_iff_left hne]
      refine List.rel_append earlier ?_
      simp only [Option.elim_some]
      by_cases hb : keyOf x ∈ xs.map keyOf
      · rw [if_pos (.inr (before.2 hb)), if_pos ⟨hb, hp⟩]
        exact .cons ⟨List.getElem?_concat_length, hv⟩ .nil
      · rw [if_neg (by simp [mt before.1 hb]), if_neg (mt And.left hb)]
        exact .nil

end

end Validation

end AlterCatalog
