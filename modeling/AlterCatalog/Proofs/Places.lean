import AlterCatalog.Location
import Mathlib.Data.List.Induction
import Mathlib.Data.String.Basic

/-!
# Places in a source text

What it means for a location to be right for a text: its offset lies between two characters, its
line counts the line feeds before it, and its column the characters since the last of them. Every
location reached from the first place by advancing over a head of the text is right for it.
-/

namespace AlterCatalog

/-- The stretch of a source text that a span covers. -/
def Span.slice (span : Span) (input : String) : String :=
  String.Pos.Raw.extract input ⟨span.start.offset⟩ ⟨span.finish.offset⟩

/-- The source text up to a location. -/
def Location.before (l : Location) (input : String) : List Char :=
  (Span.slice ⟨.origin, l⟩ input).toList

/-- A location that counts bytes, lines and columns of a text as they are. -/
structure Location.IsIn (l : Location) (input : String) : Prop where
  boundary : String.Pos.Raw.IsValid input ⟨l.offset⟩
  line : l.line = 1 + (l.before input).count '\n'
  column : l.column = 1 + ((l.before input).reverse.takeWhile (· != '\n')).length

namespace Location

theorem advance_snoc (l : Location) (s : List Char) (c : Char) :
    l.advance (s ++ [c]) = (l.advance s).step c := by
  rw [advance_append, advance_cons, advance_nil]

theorem offset_step (l : Location) (c : Char) : (l.step c).offset = l.offset + c.utf8Size := by
  unfold step
  split <;> rfl

theorem offset_advance : ∀ (s : List Char) (l : Location),
    (l.advance s).offset = l.offset + String.utf8Len s
  | [], _ => rfl
  | c :: s, l => by
    rw [advance_cons, offset_advance s, offset_step, String.utf8Len_cons, Nat.add_assoc,
      Nat.add_comm c.utf8Size]

theorem offset_advance_origin (s : List Char) :
    (origin.advance s).offset = String.utf8Len s := by
  rw [offset_advance]
  exact Nat.zero_add _

theorem offset_lt_advance {s : List Char} (h : s ≠ []) (l : Location) :
    l.offset < (l.advance s).offset := by
  have hs : String.utf8Len s ≠ 0 := fun h0 => h (String.utf8Len_eq_zero.1 h0)
  rw [offset_advance]
  omega

theorem offset_le_advance (s : List Char) (l : Location) : l.offset ≤ (l.advance s).offset := by
  rw [offset_advance]
  omega

theorem line_advance_origin (s : List Char) :
    (origin.advance s).line = 1 + s.count '\n' := by
  induction s using List.reverseRecOn with
  | nil => rfl
  | append_singleton s c ih =>
    rw [advance_snoc, List.count_append, List.count_singleton, step]
    by_cases hc : c = '\n'
    · simp only [hc, if_true, ih, beq_self_eq_true]
      omega
    · simp only [hc, if_false, ih, beq_iff_eq]
      rfl

theorem column_advance_origin (s : List Char) :
    (origin.advance s).column = 1 + (s.reverse.takeWhile (· != '\n')).length := by
  induction s using List.reverseRecOn with
  | nil => rfl
  | append_singleton s c ih =>
    rw [advance_snoc, List.reverse_append, List.reverse_singleton, List.singleton_append,
      List.takeWhile_cons, step]
    by_cases hc : c = '\n'
    · simp [hc]
    · simp only [hc, if_false, ih, bne_iff_ne, ne_eq, not_false_eq_true, if_true, List.length_cons]
      omega

end Location

theorem slice_advance (a b c : List Char) :
    Span.slice ⟨.advance .origin a, .advance .origin (a ++ b)⟩ (String.ofList (a ++ b ++ c)) =
      String.ofList b := by
  simp only [Span.slice, Location.offset_advance_origin, String.utf8Len_append]
  exact String.extract_of_valid a b c

theorem Location.before_advance (a b : List Char) :
    (Location.advance .origin a).before (String.ofList (a ++ b)) = a := by
  have h := slice_advance [] a b
  rw [List.nil_append, advance_nil] at h
  rw [Location.before, h, String.toList_ofList]

theorem Location.isIn_advance (a b : List Char) :
    (Location.advance .origin a).IsIn (String.ofList (a ++ b)) where
  boundary := by
    have h := String.Pos.Raw.isValid_rawEndPos (s := String.ofList a)
    rw [String.rawEndPos_ofList] at h
    rw [Location.offset_advance_origin, String.ofList_append]
    exact h.append_right _
  line := by rw [before_advance, line_advance_origin]
  column := by rw [before_advance, column_advance_origin]

end AlterCatalog
