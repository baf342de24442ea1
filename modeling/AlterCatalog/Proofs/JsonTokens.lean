import AlterCatalog.Json.Printer
import AlterCatalog.Json.Token
import Mathlib.Data.List.TakeDrop

/-!
# JSON tokens read back

A word, a number or a string that is written is scanned as the token of its value, whatever text
comes after it. Only a number needs that text to begin with no character of a number.
-/

namespace AlterCatalog.Json

/-! ## Strings -/

namespace Token

theorem hexDigit?_digitChar : ∀ d < 16, hexDigit? (Nat.digitChar d) = some d := by decide

theorem unit?_control {n : Nat} (h : n < 0x20) (r : List Char) :
    unit? ('0' :: '0' :: Nat.digitChar (n / 16) :: Nat.digitChar (n % 16) :: r) = some (n, r) := by
  have hzero : hexDigit? '0' = some 0 := rfl
  have hdiv := hexDigit?_digitChar (n / 16) (by omega)
  have hmod := hexDigit?_digitChar (n % 16) (by omega)
  simp only [unit?, hzero, hdiv, hmod, Option.some.injEq, Prod.mk.injEq, and_true]
  omega

theorem stringUnits_short {e d : Char} (h : shortEscape? e = some d) (r : List Char) :
    stringUnits ('\\' :: e :: r) =
      (stringUnits r).map fun (ns, rest) => (d.toNat :: ns, rest) := by
  have hu : e ≠ 'u' := by
    rintro rfl
    cases h
  rw [stringUnits.eq_def]
  simp [hu, h]

theorem stringUnits_unit {n : Nat} {s r : List Char} (h : unit? s = some (n, r)) :
    stringUnits ('\\' :: 'u' :: s) =
      (stringUnits r).map fun (ns, rest) => (n :: ns, rest) := by
  rw [stringUnits.eq_def]
  simp only [Char.reduceEq, ↓reduceIte]
  split
  · next n' r' h' =>
    obtain ⟨rfl, rfl⟩ : n = n' ∧ r = r' := by simpa [h] using h'
    rfl
  · next h' => simp [h] at h'

theorem stringUnits_plain {c : Char} (hq : c ≠ '"') (hb : c ≠ '\\') (hc : ¬c.toNat < 0x20)
    (r : List Char) :
    stringUnits (c :: r) = (stringUnits r).map fun (ns, rest) => (c.toNat :: ns, rest) := by
  rw [stringUnits.eq_def]
  simp [hq, hb, hc]

theorem stringUnits_escape (c : Char) (r : List Char) :
    stringUnits (escape c ++ r) =
      (stringUnits r).map fun (ns, rest) => (c.toNat :: ns, rest) := by
  unfold escape
  split
  · next h => exact stringUnits_short (by rcases h with rfl | rfl <;> rfl) r
  next hquote =>
  split
  · next h => exact stringUnits_short (h ▸ rfl) r
  split
  · next h => exact stringUnits_short (h ▸ rfl) r
  split
  · next h => exact stringUnits_short (h ▸ rfl) r
  split
  · next h => exact stringUnits_short (h ▸ rfl) r
  split
  · next h => exact stringUnits_short (h ▸ rfl) r
  split
  · next h => exact stringUnits_unit (unit?_control h r)
  · next h =>
    rw [not_or] at hquote
    exact stringUnits_plain hquote.1 hquote.2 h r

theorem stringUnits_flatMap (s r : List Char) :
    stringUnits (s.flatMap escape ++ '"' :: r) = some (s.map Char.toNat, r) := by
  induction s with
  | nil =>
    rw [List.flatMap_nil, List.nil_append, stringUnits.eq_def]
    simp
  | cons c s ih => rw [List.flatMap_cons, List.append_assoc, stringUnits_escape, ih]; rfl

/-- No character is a surrogate. -/
theorem not_surrogate (c : Char) : isLeading c.toNat = false ∧ isTrailing c.toNat = false := by
  have h : c.toNat < 0xD800 ∨ 0xDFFF < c.toNat ∧ c.toNat < 0x110000 := c.valid
  simp only [isLeading, isTrailing, Bool.and_eq_false_iff, decide_eq_false_iff_not]
  omega

theorem characters?_map_toNat : ∀ s : List Char, characters? (s.map Char.toNat) = some s
  | [] => rfl
  | [c] => by
    have h := not_surrogate c
    simp [characters?, h]
  | c :: d :: s => by
    have h := not_surrogate c
    have ih := characters?_map_toNat (d :: s)
    simp only [List.map_cons] at ih
    simp [characters?, h, ih]

theorem scan_mark {c : Char} {t : Token} (h : mark? c = some t) (r : List Char) :
    scan (c :: r) = some (t, r) := by
  simp only [scan, h]

theorem scan_quote (s : String) (r : List Char) :
    scan (quote s ++ r) = some (.string (some s), r) := by
  have hunits := stringUnits_flatMap s.toList r
  have hmark : mark? '"' = none := rfl
  simp [quote, scan, hmark, hunits, ofUnits, characters?_map_toNat]

/-! ## Numbers -/

end Token

/-- A text that no number goes on with. -/
def EndsNumber (rest : List Char) : Prop :=
  ∀ c ∈ rest.head?, c.isDigit = false ∧ c ≠ '.' ∧ c ≠ 'e' ∧ c ≠ 'E'

theorem endsNumber_nil : EndsNumber [] := fun _ h => nomatch h

theorem endsNumber_cons {c : Char}
    (h : c.isDigit = false ∧ c ≠ '.' ∧ c ≠ 'e' ∧ c ≠ 'E') (r : List Char) :
    EndsNumber (c :: r) := by
  intro d hd
  cases hd
  exact h

namespace Token

theorem digits_append {ds r : List Char} (h : ∀ c ∈ ds, c.isDigit = true) (hr : EndsNumber r) :
    digits (ds ++ r) = (ds, r) := by
  have htake : r.takeWhile Char.isDigit = [] := by
    cases r with
    | nil => rfl
    | cons c r => exact List.takeWhile_cons_of_neg (by simp [(hr c rfl).1])
  have hdrop : r.dropWhile Char.isDigit = r := by
    cases r with
    | nil => rfl
    | cons c r => exact List.dropWhile_cons_of_neg (by simp [(hr c rfl).1])
  rw [digits, List.takeWhile_append_of_pos h, List.dropWhile_append_of_pos h, htake, hdrop,
    List.append_nil]

theorem fraction_ends {r : List Char} (h : EndsNumber r) : fraction r = ([], r) := by
  have hdot : r.head? ≠ some '.' := fun hd => (h _ hd).2.1 rfl
  simp [fraction, hdot]

theorem exponent?_ends {r : List Char} (h : EndsNumber r) : exponent? r = none := by
  have he : r.head? ≠ some 'e' := fun hd => (h _ hd).2.2.1 rfl
  have hE : r.head? ≠ some 'E' := fun hd => (h _ hd).2.2.2 rfl
  simp [exponent?, he, hE]

theorem head?_toDigits {n : Nat} (h : n ≠ 0) : (Nat.toDigits 10 n).head? ≠ some '0' := by
  induction n using Nat.strongRecOn with
  | ind n ih =>
    by_cases hn : n < 10
    · simp [Nat.toDigits_of_lt_base hn, h]
    · have hne : Nat.toDigits 10 (n / 10) ≠ [] := Nat.toDigits_ne_nil
      rw [Nat.toDigits_of_base_le (by decide) (Nat.le_of_not_lt hn), List.head?_append,
        Option.or_of_isSome (List.isSome_head?.2 hne)]
      exact ih (n / 10) (by omega) (by omega)

/-- Zero is written as one digit, and no other number begins with one. -/
theorem whole_toDigits (n : Nat) {r : List Char} (hr : EndsNumber r) :
    whole (Nat.toDigits 10 n ++ r) = (Nat.toDigits 10 n, r) := by
  by_cases hn : n = 0
  · subst hn
    rfl
  · have hne : Nat.toDigits 10 n ≠ [] := Nat.toDigits_ne_nil
    have hz : (Nat.toDigits 10 n ++ r).head? ≠ some '0' := by
      rw [List.head?_append, Option.or_of_isSome (List.isSome_head?.2 hne)]
      exact head?_toDigits hn
    rw [whole, if_neg hz]
    exact digits_append (fun c hc => Nat.isDigit_of_mem_toDigits (by decide) (by decide) hc) hr

theorem number?_of_minus {s r : List Char} {negative : Bool} {m : Nat} {n : Int}
    (hs : minus s = (negative, Nat.toDigits 10 m ++ r))
    (hn : n = if negative then -(m : Int) else m) (hz : negative = true → m ≠ 0)
    (hmin : Int64.minValue.toInt ≤ n) (hmax : n < UInt64.size)
    (hr : EndsNumber r) : number? s = some (.int n, r) := by
  have hne : Nat.toDigits 10 m ≠ [] := Nat.toDigits_ne_nil
  have hinteger : (⟨negative, Nat.toDigits 10 m, [], none⟩ : Numeral).integer = n := by
    rw [hn, Numeral.integer, Nat.ofDigitChars_ten_toDigits]
  have hzero : ¬(negative = true ∧ n = 0) := by
    rintro ⟨rfl, rfl⟩
    exact hz rfl (by simpa using hn.symm)
  simp only [number?, hs, whole_toDigits m hr, fraction_ends hr, exponent?_ends hr, hne, if_false]
  -- Without fraction, exponent or a minus before zero, the numeral is an integer.
  rw [Numeral.value, hinteger, if_pos ⟨rfl, rfl, hzero, hmin, hmax⟩]

theorem number?_toString {n : Int} (hmin : Int64.minValue.toInt ≤ n) (hmax : n < UInt64.size)
    {r : List Char} (hr : EndsNumber r) :
    number? ((toString n).toList ++ r) = some (.int n, r) := by
  cases n with
  | ofNat m =>
    have hhead : (Nat.toDigits 10 m ++ r).head? ≠ some '-' := by
      cases hd : Nat.toDigits 10 m with
      | nil => exact absurd hd Nat.toDigits_ne_nil
      | cons c ds =>
        have hc : c.isDigit = true :=
          Nat.isDigit_of_mem_toDigits (by decide) (by decide) (hd ▸ List.mem_cons_self ..)
        rintro h
        cases h
        cases hc
    show number? ((Nat.repr m).toList ++ r) = _
    rw [Nat.toList_repr]
    exact number?_of_minus (if_neg hhead) rfl (fun h => nomatch h) hmin hmax hr
  | negSucc m =>
    have ht : (toString (Int.negSucc m)).toList = '-' :: (Nat.repr (m + 1)).toList := by
      rw [← List.singleton_append, ← String.toList_ofList (l := ['-']), ← String.toList_append]
      rfl
    rw [ht, Nat.toList_repr]
    exact number?_of_minus (if_pos rfl) (Int.negSucc_eq m) (fun _ => Nat.succ_ne_zero m) hmin hmax
      hr

theorem head_of_number? {s rest : List Char} {v : Json} (h : number? s = some (v, rest)) :
    ∃ c r, s = c :: r ∧ (c = '-' ∨ c.isDigit = true) := by
  cases s with
  | nil => cases h
  | cons c r =>
    refine ⟨c, r, rfl, ?_⟩
    by_cases hm : c = '-'
    · exact .inl hm
    · refine .inr (Classical.byContradiction fun hd => ?_)
      have hz : c ≠ '0' := by
        rintro rfl
        exact hd rfl
      have hw : (whole (minus (c :: r)).2).1 = [] := by
        simp [minus, hm, whole, hz, digits, hd]
      simp [number?, hw] at h

theorem scan_number {s rest : List Char} {v : Json} (h : number? s = some (v, rest)) :
    scan s = some (.scalar v, rest) := by
  obtain ⟨c, r, rfl, hc⟩ := head_of_number? h
  have hne : ∀ d : Char, d ≠ '-' → d.isDigit = false → c ≠ d := by
    rintro d hm hd rfl
    rcases hc with rfl | hc
    · exact hm rfl
    · rw [hd] at hc
      cases hc
  have hmark : mark? c = none := by
    simp [mark?, hne '[', hne ']', hne '\x7b', hne '\x7d', hne ',', hne ':']
  have hword : word? (c :: r) = none := by
    simp [word?, words, after?, (hne 'n' (by decide) rfl).symm, (hne 't' (by decide) rfl).symm,
      (hne 'f' (by decide) rfl).symm]
  simp [scan, hmark, hne '"', hword, h]

theorem scan_int {n : Int} (hmin : Int64.minValue.toInt ≤ n) (hmax : n < UInt64.size)
    {r : List Char} (hr : EndsNumber r) :
    scan ((toString n).toList ++ r) = some (.scalar (.int n), r) :=
  scan_number (number?_toString hmin hmax hr)

theorem scan_null (r : List Char) :
    scan ("null".toList ++ r) = some (.scalar .null, r) := rfl

theorem scan_bool (b : Bool) (r : List Char) :
    scan ((if b then "true" else "false").toList ++ r) = some (.scalar (.bool b), r) := by
  cases b <;> rfl

end Token

end AlterCatalog.Json
