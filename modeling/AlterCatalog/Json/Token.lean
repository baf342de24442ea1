import AlterCatalog.Json.Numeral

/-!
# JSON tokens

White space is the four ASCII characters that the format allows. In a string, a character below
the space has to be escaped. A string is read as code points and escaped 16-bit units; a leading
and a trailing surrogate next to each other make one character.
-/

namespace AlterCatalog.Json

inductive Token where
  | openArray | closeArray | openObject | closeObject | comma | colon
  /-- A scalar other than a string. -/
  | scalar (value : Json)
  /-- A string, where its text stands for one. -/
  | string (value : Option String)

namespace Token

def isBlank (c : Char) : Bool := c == ' ' || c == '\t' || c == '\n' || c == '\r'

def hexDigit? (c : Char) : Option Nat :=
  if c.isDigit then some (c.toNat - '0'.toNat)
  else if 'a' ≤ c ∧ c ≤ 'f' then some (c.toNat - 'a'.toNat + 10)
  else if 'A' ≤ c ∧ c ≤ 'F' then some (c.toNat - 'A'.toNat + 10)
  else none

/-- What one letter after a backslash stands for. -/
def shortEscape? (c : Char) : Option Char :=
  if c = '"' ∨ c = '\\' ∨ c = '/' then some c
  else if c = 'b' then some '\x08'
  else if c = 'f' then some '\x0c'
  else if c = 'n' then some '\n'
  else if c = 'r' then some '\r'
  else if c = 't' then some '\t'
  else none

/-- The value of four hexadecimal digits, and the text after them. -/
def unit? : List Char → Option (Nat × List Char)
  | a :: b :: c :: d :: r =>
    match hexDigit? a, hexDigit? b, hexDigit? c, hexDigit? d with
    | some a, some b, some c, some d => some (((a * 16 + b) * 16 + c) * 16 + d, r)
    | _, _, _, _ => none
  | _ => none

theorem unit?_length_lt {s r : List Char} {n : Nat} (h : unit? s = some (n, r)) :
    r.length < s.length := by
  unfold unit? at h
  split at h
  · split at h <;> cases h
    simp only [List.length_cons]
    omega
  · cases h

/-- The code points and units of a string up to its closing quote, and the text after that. -/
def stringUnits (s : List Char) : Option (List Nat × List Char) :=
  match s with
  | [] => none
  | c :: r =>
    if c = '"' then some ([], r)
    else if c = '\\' then
      match r with
      | [] => none
      | e :: r =>
        if e = 'u' then
          match h : unit? r with
          | some (n, r') =>
            have : r'.length < r.length := unit?_length_lt h
            (stringUnits r').map fun (ns, rest) => (n :: ns, rest)
          | none => none
        else
          match shortEscape? e with
          | some d => (stringUnits r).map fun (ns, rest) => (d.toNat :: ns, rest)
          | none => none
    else if c.toNat < 0x20 then none
    else (stringUnits r).map fun (ns, rest) => (c.toNat :: ns, rest)
termination_by s.length

def isLeading (n : Nat) : Bool := 0xD800 ≤ n && n < 0xDC00

def isTrailing (n : Nat) : Bool := 0xDC00 ≤ n && n < 0xE000

/-- The characters of a string, where its surrogates stand in pairs. -/
def characters? : List Nat → Option (List Char)
  | [] => some []
  | [n] => if isLeading n || isTrailing n then none else some [Char.ofNat n]
  | n :: m :: r =>
    if isLeading n then
      if isTrailing m then
        (characters? r).map (Char.ofNat (0x10000 + (n - 0xD800) * 0x400 + (m - 0xDC00)) :: ·)
      else none
    else if isTrailing n then none
    else (characters? (m :: r)).map (Char.ofNat n :: ·)

/-- Cuts a text after its leading digits. -/
def digits (s : List Char) : List Char × List Char :=
  (s.takeWhile Char.isDigit, s.dropWhile Char.isDigit)

/-- Whether a text starts with a minus sign, and the text after it. -/
def minus (s : List Char) : Bool × List Char :=
  if s.head? = some '-' then (true, s.drop 1) else (false, s)

/-- The digits before the point: a zero stands alone. -/
def whole (s : List Char) : List Char × List Char :=
  if s.head? = some '0' then (['0'], s.drop 1) else digits s

/-- The digits after a point, which are none when no digit follows it. -/
def fraction (s : List Char) : List Char × List Char :=
  if s.head? = some '.' ∧ (digits (s.drop 1)).1 ≠ [] then digits (s.drop 1) else ([], s)

def unsignedExponent (negative : Bool) (s : List Char) : Option (Int × List Char) :=
  if (digits s).1 = [] then none
  else
    let size : Nat := Nat.ofDigitChars 10 (digits s).1 0
    some (if negative then -size else size, (digits s).2)

/-- The exponent at the head of a text. -/
def exponent? (s : List Char) : Option (Int × List Char) :=
  if s.head? = some 'e' ∨ s.head? = some 'E' then
    let r := s.drop 1
    if r.head? = some '-' then unsignedExponent true (r.drop 1)
    else if r.head? = some '+' then unsignedExponent false (r.drop 1)
    else unsignedExponent false r
  else none

/-- The number at the head of a text, and the text after it. -/
def number? (s : List Char) : Option (Json × List Char) :=
  let w := whole (minus s).2
  let f := fraction w.2
  if w.1 = [] then none
  else
    match exponent? f.2 with
    | some (e, rest) =>
      some (Numeral.value ⟨(minus s).1, w.1, f.1, some e⟩ (s.take (s.length - rest.length)), rest)
    | none =>
      some (Numeral.value ⟨(minus s).1, w.1, f.1, none⟩ (s.take (s.length - f.2.length)), f.2)

/-- The text after a word that a text starts with. -/
def after? (word s : List Char) : Option (List Char) :=
  if word.isPrefixOf s then some (s.drop word.length) else none

def mark? (c : Char) : Option Token :=
  if c = '[' then some .openArray
  else if c = ']' then some .closeArray
  else if c = '\x7b' then some .openObject
  else if c = '\x7d' then some .closeObject
  else if c = ',' then some .comma
  else if c = ':' then some .colon
  else none

/-- The scalars that words stand for. -/
def words : List (List Char × Json) :=
  [("null".toList, .null), ("true".toList, .bool true), ("false".toList, .bool false)]

def word? (s : List Char) : Option (Json × List Char) :=
  words.findSome? fun w => (after? w.1 s).map fun rest => (w.2, rest)

def ofUnits (ns : List Nat) : Token := .string ((characters? ns).map String.ofList)

/-- The token at the head of a text that starts with no white space. -/
def scan (s : List Char) : Option (Token × List Char) :=
  match s with
  | [] => none
  | c :: r =>
    match mark? c with
    | some t => some (t, r)
    | none =>
      if c = '"' then (stringUnits r).map fun (ns, rest) => (ofUnits ns, rest)
      else ((word? (c :: r)).or (number? (c :: r))).map fun (v, rest) => (.scalar v, rest)

theorem stringUnits_length_lt {s rest : List Char} {ns : List Nat}
    (h : stringUnits s = some (ns, rest)) : rest.length < s.length := by
  fun_induction stringUnits s generalizing ns rest with
  | case1 => cases h
  | case2 => cases h; simp
  | case3 => cases h
  | case4 r n r' _ _ _ ih =>
    obtain ⟨⟨_, _⟩, hr, he⟩ := Option.map_eq_some_iff.1 h
    cases he
    have := ih hr
    simp only [List.length_cons]
    omega
  | case5 => cases h
  | case6 _ _ _ _ _ _ ih =>
    obtain ⟨⟨_, _⟩, hr, he⟩ := Option.map_eq_some_iff.1 h
    cases he
    have := ih hr
    simp only [List.length_cons]
    omega
  | case7 => cases h
  | case8 => cases h
  | case9 c r _ _ _ ih =>
    obtain ⟨⟨_, _⟩, hr, he⟩ := Option.map_eq_some_iff.1 h
    cases he
    have := ih hr
    simp only [List.length_cons]
    omega

theorem digits_length (s : List Char) : (digits s).1.length + (digits s).2.length = s.length := by
  rw [← List.length_append]
  exact congrArg List.length List.takeWhile_append_dropWhile

theorem minus_length_le (s : List Char) : (minus s).2.length ≤ s.length := by
  unfold minus
  split <;> simp

theorem whole_length_lt {s : List Char} (h : (whole s).1 ≠ []) :
    (whole s).2.length < s.length := by
  unfold whole at h ⊢
  split at h
  · next hz =>
    obtain ⟨r, rfl⟩ := List.head?_eq_some_iff.1 hz
    simp
  · next hz =>
    have := digits_length s
    have := List.length_pos_iff.2 h
    simp only [hz, ↓reduceIte]
    omega

theorem fraction_length_le (s : List Char) : (fraction s).2.length ≤ s.length := by
  unfold fraction
  split
  · have := digits_length (s.drop 1)
    rw [List.length_drop] at this
    omega
  · simp

theorem unsignedExponent_length_le {negative : Bool} {s rest : List Char} {e : Int}
    (h : unsignedExponent negative s = some (e, rest)) : rest.length ≤ s.length := by
  unfold unsignedExponent at h
  split at h <;> cases h
  have := digits_length s
  omega

theorem exponent?_length_le {s rest : List Char} {e : Int}
    (h : exponent? s = some (e, rest)) : rest.length ≤ s.length := by
  unfold exponent? at h
  simp only at h
  split at h
  · split at h
    · have := unsignedExponent_length_le h
      simp only [List.length_drop] at this
      omega
    split at h
    · have := unsignedExponent_length_le h
      simp only [List.length_drop] at this
      omega
    · have := unsignedExponent_length_le h
      simp only [List.length_drop] at this
      omega
  · cases h

theorem number?_length_lt {s rest : List Char} {v : Json} (h : number? s = some (v, rest)) :
    rest.length < s.length := by
  have hm := minus_length_le s
  have hf := fraction_length_le (whole (minus s).2).2
  simp only [number?] at h
  split at h
  · cases h
  next hw =>
  have hw := whole_length_lt hw
  split at h
  · next e rest' he =>
    cases h
    have := exponent?_length_le he
    omega
  · cases h
    omega

theorem word?_length_lt {s rest : List Char} {v : Json} (h : word? s = some (v, rest)) :
    rest.length < s.length := by
  obtain ⟨w, hw, ha⟩ := List.exists_of_findSome?_eq_some h
  obtain ⟨rest', hr, he⟩ := Option.map_eq_some_iff.1 ha
  cases he
  have hp : 0 < w.1.length := (by decide : ∀ n ∈ words.map (·.1.length), 0 < n) _
    (List.mem_map.2 ⟨w, hw, rfl⟩)
  unfold after? at hr
  split at hr <;> cases hr
  next hs =>
  have := (List.isPrefixOf_iff_prefix.1 hs).length_le
  rw [List.length_drop]
  omega

theorem scan_length_lt {s rest : List Char} {t : Token} (h : scan s = some (t, rest)) :
    rest.length < s.length := by
  cases s with
  | nil => cases h
  | cons c r =>
    simp only [scan] at h
    split at h
    · cases h
      exact Nat.lt_succ_self _
    split at h
    · obtain ⟨⟨_, _⟩, hr, he⟩ := Option.map_eq_some_iff.1 h
      cases he
      exact Nat.lt_succ_of_lt (stringUnits_length_lt hr)
    · obtain ⟨⟨_, _⟩, hr, he⟩ := Option.map_eq_some_iff.1 h
      cases he
      rcases Option.or_eq_some_iff.1 hr with hw | ⟨_, hn⟩
      · exact word?_length_lt hw
      · exact number?_length_lt hn

end Token

/-- The tokens of a text. -/
def tokens? (s : List Char) : Option (List Token) :=
  match h : Token.scan (s.dropWhile Token.isBlank) with
  | some (t, rest) =>
    have : rest.length < s.length :=
      Nat.lt_of_lt_of_le (Token.scan_length_lt h) (List.dropWhile_sublist _).length_le
    (tokens? rest).map (t :: ·)
  | none => if s.dropWhile Token.isBlank = [] then some [] else none
termination_by s.length

end AlterCatalog.Json
