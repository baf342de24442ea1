import AlterCatalog.Json.Reader
import AlterCatalog.Proofs.JsonTokens

/-!
# JSON read back

A value is legible when its numbers are integers of 64 bits and all of it has a value. Such a value
is read back from its text, on one line or over several. While the text of a value is read, the
open arrays and objects around it do not matter, and after it the reader stands where the value
has ended: that is what the induction on the value carries.
-/

namespace AlterCatalog.Json

/-- A value that its text stands for. -/
inductive Legible : Json → Prop
  | null : Legible null
  | bool (b : Bool) : Legible (bool b)
  | int {n : Int} (hmin : Int64.minValue.toInt ≤ n) (hmax : n < UInt64.size) : Legible (int n)
  | string (s : String) : Legible (string s)
  | array {items : List Json} (h : ∀ j ∈ items, Legible j) : Legible (array items)
  | object {fields : List (String × Json)} (h : ∀ f ∈ fields, Legible f.2) :
      Legible (object fields)

theorem legible_natCast {n : Nat} (h : n < UInt64.size) : Legible (int n) := by
  refine .int ?_ (Int.ofNat_lt.2 h)
  have hmin : Int64.minValue.toInt ≤ 0 := by decide
  exact Int.le_trans hmin (Int.natCast_nonneg n)

theorem legible_toInt (v : Int64) : Legible (int v.toInt) := by
  have hmax : Int64.maxValue.toInt < UInt64.size := by decide
  exact .int v.minValue_le_toInt (Int.lt_of_le_of_lt v.toInt_le hmax)

theorem legible_ofStrings (texts : List String) : Legible (ofStrings texts) :=
  .array (List.forall_mem_map.2 fun text _ => .string text)

/-! ## Reading on -/

namespace Token

theorem scan_blank {c : Char} (h : isBlank c = true) (r : List Char) : scan (c :: r) = none := by
  simp only [isBlank, Bool.or_eq_true, beq_iff_eq] at h
  rcases h with ((rfl | rfl) | rfl) | rfl <;> rfl

end Token

theorem tokens?_eq (s : List Char) : tokens? s =
    match Token.scan (s.dropWhile Token.isBlank) with
    | some (t, rest) => (tokens? rest).map (t :: ·)
    | none => if s.dropWhile Token.isBlank = [] then some [] else none := by
  rw [tokens?]
  split
  · next h => simp only [h]
  · next h => simp only [h]

/-- Where a reader stands after the rest of a text. -/
def Reader.run (r : Reader) (s : List Char) : Option Reader := (tokens? s).bind (·.foldlM step r)

theorem parse?_eq (s : List Char) :
    parse? (String.ofList s) = (Reader.run {} s).bind Reader.result? := by
  rw [parse?, String.toList_ofList, Reader.run, Option.bind_assoc]
  rfl

namespace Reader

theorem run_nil (r : Reader) : r.run [] = some r := by
  have h : tokens? [] = some [] := by rw [tokens?_eq]; rfl
  rw [run, h]
  rfl

theorem run_blank {s : List Char} (h : ∀ c ∈ s, Token.isBlank c = true) (r : Reader)
    (rest : List Char) : r.run (s ++ rest) = r.run rest := by
  have ht : tokens? (s ++ rest) = tokens? rest := by
    rw [tokens?_eq, tokens?_eq, List.dropWhile_append_of_pos h]
  rw [run, ht, run]

theorem run_token {s rest : List Char} {t : Token} (h : Token.scan s = some (t, rest))
    (r : Reader) : r.run s = (r.step t).bind fun r' => r'.run rest := by
  have hd : s.dropWhile Token.isBlank = s := by
    cases s with
    | nil => rfl
    | cons c s =>
      refine List.dropWhile_cons_of_neg fun hb => ?_
      rw [Token.scan_blank hb] at h
      cases h
  rw [run, tokens?_eq, hd, h]
  simp only [run]
  cases tokens? rest <;> simp

theorem run_mark {c : Char} {t : Token} (h : Token.mark? c = some t) (r : Reader)
    (rest : List Char) : r.run (c :: rest) = (r.step t).bind fun r' => r'.run rest :=
  run_token (Token.scan_mark h rest) r

/-! ## The text of a value -/

theorem isBlank_newline (pretty : Bool) (depth : Nat) :
    ∀ c ∈ newline pretty depth, Token.isBlank c = true := by
  unfold newline
  split
  · intro c hc
    rcases List.mem_cons.1 hc with rfl | hc
    · rfl
    · rw [(List.mem_replicate.1 hc).2]
      rfl
  · exact fun _ h => nomatch h

/-- Where a value may start, it starts alike. -/
theorem step_start {m : Mode} (hm : m = .value ∨ m = .firstItem) {t : Token} (ht : t ≠ .closeArray)
    (stack : List Open) : step ⟨m, stack⟩ t = startValue stack t := by
  rcases hm with rfl | rfl
  · rfl
  · cases t <;> cases stack <;> simp_all [step]

variable (pretty : Bool)

/-- A value whose text is read as it, wherever a value may start. -/
def Reads (j : Json) : Prop :=
  ∀ (depth : Nat) {m : Mode}, m = .value ∨ m = .firstItem →
    ∀ (stack : List Open) {rest : List Char}, EndsNumber rest →
      run ⟨m, stack⟩ (j.characters pretty depth ++ rest) = run ⟨.ended j, stack⟩ rest

theorem reads_of_scan {j : Json} {t : Token}
    (h : ∀ depth rest, EndsNumber rest →
      Token.scan (j.characters pretty depth ++ rest) = some (t, rest))
    (ht : t ≠ .closeArray) (hv : ∀ stack, startValue stack t = some ⟨.ended j, stack⟩) :
    Reads pretty j := by
  intro depth m hm stack rest hr
  rw [run_token (h depth rest hr), step_start hm ht, hv, Option.bind_some]

/-! ### Arrays -/

theorem endsNumber_newline {c : Char} (h : c.isDigit = false ∧ c ≠ '.' ∧ c ≠ 'e' ∧ c ≠ 'E')
    (depth : Nat) (rest : List Char) : EndsNumber (newline pretty depth ++ c :: rest) := by
  unfold newline
  split
  · exact endsNumber_cons (by decide) _
  · exact endsNumber_cons h rest

theorem endsNumber_items (items : List Json) (depth depth' : Nat) (rest : List Char) :
    EndsNumber (itemCharacters pretty depth items ++ (newline pretty depth' ++ ']' :: rest)) := by
  cases items with
  | nil => exact endsNumber_newline pretty (by decide) depth' rest
  | cons j js => exact endsNumber_cons (by decide) _

-- The items that are read stand on the stack in reverse, those still to come in the text.
theorem run_items (depth depth' : Nat) (stack : List Open) (rest : List Char) :
    ∀ {items : List Json}, (∀ j ∈ items, Reads pretty j) → ∀ (done : List Json) (v : Json),
      run ⟨.ended v, .array done :: stack⟩
        (itemCharacters pretty depth items ++ (newline pretty depth' ++ ']' :: rest)) =
      run ⟨.ended (.array (done.reverse ++ v :: items)), stack⟩ rest
  | [], _, done, v => by
    rw [itemCharacters, List.nil_append, run_blank (isBlank_newline pretty depth'), run_mark rfl]
    simp [step, endValue]
  | j :: js, h, done, v => by
    obtain ⟨hj, hjs⟩ := List.forall_mem_cons.1 h
    rw [itemCharacters, List.cons_append, run_mark rfl]
    simp only [step, endValue, Option.bind_some, List.append_assoc]
    rw [run_blank (isBlank_newline pretty depth),
      hj depth (.inl rfl) _ (endsNumber_items pretty js _ _ _),
      run_items depth depth' stack rest hjs]
    simp

theorem reads_array {items : List Json} (h : ∀ j ∈ items, Reads pretty j) :
    Reads pretty (.array items) := by
  intro depth m hm stack rest _
  have hstart := step_start hm (t := .openArray) nofun stack
  cases items with
  | nil =>
    simp only [characters, List.cons_append, List.nil_append]
    rw [run_mark rfl, hstart, startValue, Option.bind_some, run_mark rfl]
    rfl
  | cons j js =>
    obtain ⟨hj, hjs⟩ := List.forall_mem_cons.1 h
    simp only [characters, List.cons_append, List.append_assoc, List.nil_append]
    rw [run_mark rfl, hstart, startValue, Option.bind_some,
      run_blank (isBlank_newline pretty _), hj _ (.inr rfl) _ (endsNumber_items pretty js _ _ _),
      run_items pretty _ _ _ _ hjs]
    rfl

/-! ### Objects -/

/-- The fields of an open object, of which the keys are all known. -/
def keyed (fields : List (String × Json)) : List (Option String × Json) :=
  fields.map fun f => (some f.1, f.2)

theorem closeObject_keyed (fields : List (String × Json)) :
    closeObject (keyed fields) = .object fields.reverse := by
  have h : ∀ fs : List (String × Json),
      ((keyed fs).mapM fun f => f.1.map fun k => (k, f.2)) = some fs := by
    intro fs
    induction fs with
    | nil => rfl
    | cons f fs ih =>
      rw [keyed] at ih
      simp [keyed, List.mapM_cons, ih]
  have hr : (keyed fields).reverse = keyed fields.reverse := List.map_reverse.symm
  rw [closeObject, hr, h]

theorem run_key {m : Mode} (hm : m = .key ∨ m = .firstKey) (key : String)
    (fields : List (Option String × Json)) (stack : List Open) (rest : List Char) :
    run ⟨m, .object fields :: stack⟩ (quote key ++ (colon pretty ++ rest)) =
      run ⟨.value, .field fields (some key) :: stack⟩ rest := by
  have hkey : step ⟨m, .object fields :: stack⟩ (.string (some key)) =
      some ⟨.colon (some key), .object fields :: stack⟩ := by
    rcases hm with rfl | rfl <;> rfl
  rw [run_token (Token.scan_quote _ _), hkey, Option.bind_some]
  cases pretty with
  | false =>
    rw [colon, if_neg (by decide), List.singleton_append, run_mark rfl]
    rfl
  | true =>
    have hb : ∀ c ∈ [' '], Token.isBlank c = true := List.forall_mem_singleton.2 rfl
    rw [colon, if_pos rfl, List.cons_append, run_mark rfl]
    exact run_blank hb _ rest

theorem endsNumber_fields (fields : List (String × Json)) (depth depth' : Nat)
    (rest : List Char) : EndsNumber
      (fieldCharacters pretty depth fields ++ (newline pretty depth' ++ '\x7d' :: rest)) := by
  cases fields with
  | nil => exact endsNumber_newline pretty (by decide) depth' rest
  | cons f fs => exact endsNumber_cons (by decide) _

theorem run_fields (depth depth' : Nat) (stack : List Open) (rest : List Char) :
    ∀ {fields : List (String × Json)}, (∀ f ∈ fields, Reads pretty f.2) →
      ∀ (done : List (String × Json)) (k : String) (v : Json),
        run ⟨.ended v, .field (keyed done) (some k) :: stack⟩
          (fieldCharacters pretty depth fields ++ (newline pretty depth' ++ '\x7d' :: rest)) =
        run ⟨.ended (.object (done.reverse ++ (k, v) :: fields)), stack⟩ rest
  | [], _, done, k, v => by
    have hclose := closeObject_keyed ((k, v) :: done)
    rw [keyed, List.map_cons] at hclose
    rw [fieldCharacters, List.nil_append, run_blank (isBlank_newline pretty depth'), run_mark rfl]
    simp only [step, endValue, Option.bind_some]
    rw [keyed, hclose, List.reverse_cons]
  | (k', j) :: fs, h, done, k, v => by
    obtain ⟨hj, hfs⟩ := List.forall_mem_cons.1 h
    rw [fieldCharacters, List.cons_append, run_mark rfl]
    simp only [step, endValue, Option.bind_some, List.append_assoc]
    rw [run_blank (isBlank_newline pretty depth), run_key pretty (.inl rfl),
      hj depth (.inl rfl) _ (endsNumber_fields pretty fs _ _ _)]
    refine (run_fields depth depth' stack rest hfs ((k, v) :: done) k' j).trans ?_
    simp

theorem reads_object {fields : List (String × Json)} (h : ∀ f ∈ fields, Reads pretty f.2) :
    Reads pretty (.object fields) := by
  intro depth m hm stack rest _
  have hstart := step_start hm (t := .openObject) nofun stack
  cases fields with
  | nil =>
    simp only [characters, List.cons_append, List.nil_append]
    rw [run_mark rfl, hstart, startValue, Option.bind_some, run_mark rfl]
    rfl
  | cons f fs =>
    obtain ⟨hj, hfs⟩ := List.forall_mem_cons.1 h
    simp only [characters, List.cons_append, List.append_assoc, List.nil_append]
    rw [run_mark rfl, hstart, startValue, Option.bind_some,
      run_blank (isBlank_newline pretty _), run_key pretty (.inr rfl),
      hj _ (.inl rfl) _ (endsNumber_fields pretty fs _ _ _)]
    exact run_fields pretty _ _ stack rest hfs [] f.1 f.2

/-- Every legible value is read from its text. -/
theorem reads_of_legible {j : Json} (h : j.Legible) : Reads pretty j := by
  induction h with
  | null => exact reads_of_scan pretty (fun _ rest _ => Token.scan_null rest) nofun fun _ => rfl
  | bool b =>
    cases b with
    | true =>
      exact reads_of_scan pretty (fun _ rest _ => Token.scan_bool true rest) nofun fun _ => rfl
    | false =>
      exact reads_of_scan pretty (fun _ rest _ => Token.scan_bool false rest) nofun fun _ => rfl
  | int hmin hmax =>
    exact reads_of_scan pretty (fun _ _ hr => Token.scan_int hmin hmax hr) nofun fun _ => rfl
  | string s =>
    exact reads_of_scan pretty (fun _ rest _ => Token.scan_quote s rest) nofun fun _ => rfl
  | array _ ih => exact reads_array pretty ih
  | object _ ih => exact reads_object pretty ih

theorem run_legible {j : Json} (h : j.Legible) :
    (run {} (j.characters pretty 0)).bind result? = some j := by
  have hr := reads_of_legible pretty h 0 (.inl rfl) [] endsNumber_nil
  rw [List.append_nil] at hr
  rw [hr, run_nil]
  rfl

end Reader

/-- A legible value reads back from one line. -/
theorem parse?_compact {j : Json} (h : j.Legible) : parse? j.compact = some j := by
  rw [compact, parse?_eq, Reader.run_legible false h]

/-- A legible value reads back from several lines. -/
theorem parse?_pretty {j : Json} (h : j.Legible) : parse? j.pretty = some j := by
  rw [pretty, parse?_eq, Reader.run_legible true h]

end AlterCatalog.Json
