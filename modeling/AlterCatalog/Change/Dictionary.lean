/-!
# Dictionaries

A dictionary holds each key once, in strictly increasing order, so that equal dictionaries are
those with the same content. A later insertion of a key replaces its value. A set of keys is a
dictionary without values.

Keys are ordered by their UTF-8 bytes.
-/

namespace AlterCatalog

/-! ## The order of texts -/

def utf8 (s : String) : List UInt8 := s.toByteArray.data.toList

/-- Strictly before in the order of bytes. -/
def before (a b : String) : Prop := utf8 a < utf8 b

instance : DecidableRel before := fun a b => inferInstanceAs (Decidable (utf8 a < utf8 b))

theorem utf8_inj {a b : String} (h : utf8 a = utf8 b) : a = b :=
  String.toByteArray_inj.1 (ByteArray.ext (Array.toList_inj.1 h))

theorem before_irrefl (a : String) : ¬before a a := List.lt_irrefl (utf8 a)

theorem before_trans {a b c : String} (h : before a b) (h' : before b c) : before a c :=
  List.lt_trans h h'

theorem before_of_not_before {a b : String} (h : ¬before a b) (hne : a ≠ b) : before b a :=
  Decidable.byContradiction fun h' => hne (utf8_inj (List.le_antisymm h' h))

/-! ## Entries -/

structure Dictionary (α : Type) where
  entries : List (String × α)
  sorted : entries.Pairwise fun a b => before a.1 b.1

namespace Dictionary

variable {α : Type}

def insertEntry (key : String) (value : α) : List (String × α) → List (String × α)
  | [] => [(key, value)]
  | e :: es =>
    if before key e.1 then (key, value) :: e :: es
    else if key = e.1 then (key, value) :: es
    else e :: insertEntry key value es

theorem mem_insertEntry {key : String} {value : α} {es : List (String × α)} {x : String × α}
    (h : x ∈ insertEntry key value es) : x = (key, value) ∨ x ∈ es := by
  induction es with
  | nil => simpa [insertEntry] using h
  | cons e es ih =>
    simp only [insertEntry] at h
    split at h
    · simpa using h
    split at h
    · rcases List.mem_cons.1 h with h | h
      · exact .inl h
      · exact .inr (List.mem_cons_of_mem _ h)
    · rcases List.mem_cons.1 h with h | h
      · exact .inr (h ▸ List.mem_cons_self)
      · exact (ih h).imp_right (List.mem_cons_of_mem _)

theorem sorted_insertEntry (key : String) (value : α) {es : List (String × α)}
    (h : es.Pairwise fun a b => before a.1 b.1) :
    (insertEntry key value es).Pairwise fun a b => before a.1 b.1 := by
  induction es with
  | nil => simp [insertEntry]
  | cons e es ih =>
    obtain ⟨he, hes⟩ := List.pairwise_cons.1 h
    simp only [insertEntry]
    split
    · next hk =>
      refine List.pairwise_cons.2 ⟨fun x hx => ?_, h⟩
      rcases List.mem_cons.1 hx with rfl | hx
      · exact hk
      · exact before_trans hk (he x hx)
    · next hk =>
      split
      · next heq => exact List.pairwise_cons.2 ⟨fun x hx => heq ▸ he x hx, hes⟩
      · next hne =>
        refine List.pairwise_cons.2 ⟨fun x hx => ?_, ih hes⟩
        rcases mem_insertEntry hx with rfl | hx
        · exact before_of_not_before hk hne
        · exact he x hx

def empty : Dictionary α := ⟨[], .nil⟩

def insert (d : Dictionary α) (key : String) (value : α) : Dictionary α :=
  ⟨insertEntry key value d.entries, sorted_insertEntry key value d.sorted⟩

/-- Inserts from the left, so that the last value of a key stays. -/
def ofList (entries : List (String × α)) : Dictionary α :=
  entries.foldl (fun d e => d.insert e.1 e.2) empty

def get? (d : Dictionary α) (key : String) : Option α :=
  (d.entries.find? fun e => e.1 == key).map Prod.snd

def keys (d : Dictionary α) : List String := d.entries.map Prod.fst

theorem ext_entries {a b : Dictionary α} (h : a.entries = b.entries) : a = b := by
  cases a
  cases b
  cases h
  rfl

instance [DecidableEq α] : DecidableEq (Dictionary α) := fun a b =>
  decidable_of_iff (a.entries = b.entries) ⟨ext_entries, fun h => h ▸ rfl⟩

end Dictionary

abbrev KeySet := Dictionary Unit

def KeySet.ofKeys (keys : List String) : KeySet := .ofList (keys.map fun k => (k, ()))

end AlterCatalog
