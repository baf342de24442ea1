import AlterCatalog.Text

/-!
# Where a quoted text ends

What stands between two quotes is some text with every quote written twice, and it ends at the
first place where a quote stands alone or nothing is left. So the content of a quoted text is
settled by these two facts (`content_eq_iff`), whatever comes after it.
-/

namespace AlterCatalog.Quoted

/-- A place where no more content can follow: the end, or a quote that is not one of a pair. -/
def Stops (q : Char) : List Char → Prop
  | [] => True
  | c :: rest => c = q ∧ rest.head? ≠ some q

theorem content_cons_of_ne {q c : Char} (h : c ≠ q) (s : List Char) :
    content q (c :: s) = (c :: (content q s).1, (content q s).2) := by
  cases s with
  | nil => simp [content, h]
  | cons d r => simp [content, h]

theorem content_of_stops {q : Char} {rest : List Char} (h : Stops q rest) :
    content q rest = ([], rest) := by
  match rest, h with
  | [], _ => rfl
  | [c], h => simp [content, h.1]
  | c :: d :: r, h =>
    have hd : d ≠ q := fun hd => h.2 (by simp [hd])
    simp [content, h.1, hd]

theorem content_double (q : Char) {rest : List Char} (h : Stops q rest) :
    ∀ v : List Char, content q (double q v ++ rest) = (double q v, rest)
  | [] => content_of_stops h
  | c :: v => by
    by_cases hc : c = q
    · simp [double, hc, content, content_double q h v]
    · simp only [double, hc, if_false, List.cons_append]
      rw [content_cons_of_ne hc, content_double q h v]

theorem content_is_double (q : Char) (s : List Char) :
    (∃ v, (content q s).1 = double q v) ∧ Stops q (content q s).2 := by
  fun_induction content q s with
  | case1 => exact ⟨⟨[], rfl⟩, trivial⟩
  | case2 => exact ⟨⟨[], rfl⟩, rfl, by simp⟩
  | case3 c hc => exact ⟨⟨[c], by simp [double, hc]⟩, trivial⟩
  | case4 r ih =>
    obtain ⟨⟨v, hv⟩, hr⟩ := ih
    exact ⟨⟨q :: v, by simp [double, hv]⟩, hr⟩
  | case5 d r hd => exact ⟨⟨[], rfl⟩, rfl, by simpa using hd⟩
  | case6 c d r hc ih =>
    obtain ⟨⟨v, hv⟩, hr⟩ := ih
    exact ⟨⟨c :: v, by simp [double, hc, hv]⟩, hr⟩

theorem length_le_double (q : Char) (v : List Char) : v.length ≤ (double q v).length := by
  induction v with
  | nil => simp [double]
  | cons c v ih =>
    by_cases hc : c = q <;> simp [double, hc] <;> omega

theorem content_eq_iff {q : Char} {s raw rest : List Char} :
    content q s = (raw, rest) ↔ s = raw ++ rest ∧ (∃ v, raw = double q v) ∧ Stops q rest := by
  constructor
  · intro h
    have hs := content_append q s
    have hd := content_is_double q s
    rw [h] at hs hd
    exact ⟨hs.symm, hd⟩
  · rintro ⟨rfl, ⟨v, rfl⟩, hr⟩
    exact content_double q hr v

end AlterCatalog.Quoted
