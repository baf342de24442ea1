import AlterCatalog.Proofs.Lossless

/-!
# Quoting and scanning

A text in quotes reads as one token that stands for it, and a quoted token was written in the one
way that quoting writes it. The end of a quoted text can also be looked for in the bytes, one or
two at a time, without regard to where characters begin. As the quote is an ASCII character, no
byte of another character is taken for it, so this stops where cutting by characters does.
-/

namespace AlterCatalog.Quoted

/-! ## A loop over bytes -/

/-- One round of the loop: the position it goes on from, none where it ends. -/
def round? (quote : UInt8) (bytes : ByteArray) (pos : Nat) : Option Nat :=
  if h : pos < bytes.size then
    if bytes[pos] = quote then
      if h' : pos + 1 < bytes.size then
        if bytes[pos + 1] = quote then some (pos + 2) else none
      else none
    else some (pos + 1)
  else none

theorem round?_bounds {quote : UInt8} {bytes : ByteArray} {pos next : Nat}
    (h : round? quote bytes pos = some next) : pos < next ∧ next ≤ bytes.size := by
  unfold round? at h
  split at h
  · split at h
    · split at h
      · split at h <;> cases h
        omega
      · cases h
    · cases h
      omega
  · cases h

def byteStop (quote : UInt8) (bytes : ByteArray) (pos : Nat) : Nat :=
  match h : round? quote bytes pos with
  | none => pos
  | some next =>
    have := round?_bounds h
    byteStop quote bytes next
termination_by bytes.size - pos

theorem byteStop_of_none {quote : UInt8} {bytes : ByteArray} {pos : Nat}
    (h : round? quote bytes pos = none) : byteStop quote bytes pos = pos := by
  rw [byteStop]
  split
  · rfl
  · next he =>
    rw [h] at he
    cases he

theorem byteStop_of_some {quote : UInt8} {bytes : ByteArray} {pos next : Nat}
    (h : round? quote bytes pos = some next) :
    byteStop quote bytes pos = byteStop quote bytes next := by
  rw [byteStop]
  split
  · next he =>
    rw [h] at he
    cases he
  · next he =>
    rw [h] at he
    cases he
    rfl

theorem byteStop_reached (quote : UInt8) (bytes : ByteArray) (pos : Nat) :
    Relation.ReflTransGen (fun a b => round? quote bytes a = some b) pos
        (byteStop quote bytes pos) ∧
      round? quote bytes (byteStop quote bytes pos) = none := by
  fun_induction byteStop quote bytes pos with
  | case1 pos h => exact ⟨.refl, h⟩
  | case2 pos next h _ ih => exact ⟨.head h ih.1, ih.2⟩

/-- What a round sees of the bytes from its position on. -/
theorem round?_append (quote : UInt8) (a b : List UInt8) :
    round? quote (a ++ b).toByteArray a.length =
      match b with
      | [] => none
      | c :: r =>
        if c = quote then if r.head? = some quote then some (a.length + 2) else none
        else some (a.length + 1) := by
  unfold round?
  simp only [List.getElem_toByteArray, List.size_toByteArray]
  cases b with
  | nil => simp
  | cons c r => cases r <;> simp [List.getElem_append_right]

theorem byteStop_pass {quote : UInt8} : ∀ {a m : List UInt8} (b : List UInt8),
    (∀ x ∈ m, x ≠ quote) → byteStop quote (a ++ (m ++ b)).toByteArray a.length =
      byteStop quote (a ++ (m ++ b)).toByteArray (a ++ m).length
  | a, [], b, _ => by simp
  | a, c :: m, b, h => by
    obtain ⟨hc, hm⟩ := List.forall_mem_cons.1 h
    have hr := round?_append quote a (c :: (m ++ b))
    simp only [if_neg hc] at hr
    have ih := byteStop_pass (a := a ++ [c]) b hm
    simp only [List.append_assoc, List.singleton_append, List.length_append,
      List.length_singleton] at ih
    rw [List.cons_append, byteStop_of_some hr, ih]
    simp only [List.length_append, List.length_cons]

/-! ## The bytes of a text -/

theorem utf8EncodeChar_of_ascii {c : Char} (h : c.toNat < 128) :
    String.utf8EncodeChar c = [c.toUInt8] := by
  refine String.utf8EncodeChar_eq_singleton (Char.utf8Size_eq_one_iff.2 ?_)
  rw [UInt32.le_iff_toNat_le]
  exact Nat.le_of_lt_succ h

theorem utf8Size_of_ascii {c : Char} (h : c.toNat < 128) : c.utf8Size = 1 := by
  rw [← String.length_utf8EncodeChar, utf8EncodeChar_of_ascii h, List.length_singleton]

/-- No byte of a character is that of another, ASCII character. -/
theorem ne_of_mem_utf8EncodeChar {q c : Char} (hq : q.toNat < 128) (hc : c ≠ q) :
    ∀ x ∈ String.utf8EncodeChar c, x ≠ q.toUInt8 := by
  have hne : c.val.toNat ≠ q.val.toNat := fun h => hc (Char.toNat_inj.1 h)
  have hq : q.val.toNat < 128 := hq
  have other : ∀ n < 256, n ≠ q.val.toNat → UInt8.ofNat n ≠ UInt8.ofNat q.val.toNat := by
    intro n hn hne he
    rw [← UInt8.toNat_inj, UInt8.toNat_ofNat_of_lt' hn,
      UInt8.toNat_ofNat_of_lt' (Nat.lt_trans hq (by decide))] at he
    exact hne he
  -- The bytes of a character beyond ASCII all lie in the upper half.
  have upper : ∀ n < 128, UInt8.ofNat (n + 128) ≠ UInt8.ofNat q.val.toNat :=
    fun n hn => other _ (by omega) (by omega)
  rw [String.utf8EncodeChar.eq_1]
  split
  · exact List.forall_mem_singleton.2 (other _ (by omega) hne)
  split
  · simp only [List.forall_mem_cons, List.not_mem_nil, false_implies, implies_true, and_true]
    exact ⟨upper (c.val.toNat / 64 % 32 + 64) (by omega), upper _ (by omega)⟩
  split
  · simp only [List.forall_mem_cons, List.not_mem_nil, false_implies, implies_true, and_true]
    exact ⟨upper (c.val.toNat / 4096 % 16 + 96) (by omega), upper _ (by omega), upper _ (by omega)⟩
  · simp only [List.forall_mem_cons, List.not_mem_nil, false_implies, implies_true, and_true]
    exact ⟨upper (c.val.toNat / 262144 % 8 + 112) (by omega), upper _ (by omega),
      upper _ (by omega), upper _ (by omega)⟩

def bytes (s : List Char) : List UInt8 := s.flatMap String.utf8EncodeChar

section
variable {q : Char} (hq : q.toNat < 128)
include hq

theorem bytes_cons_quote (s : List Char) : bytes (q :: s) = q.toUInt8 :: bytes s := by
  rw [bytes, List.flatMap_cons, utf8EncodeChar_of_ascii hq, List.singleton_append, ← bytes]

theorem head?_bytes {s : List Char} (h : s.head? ≠ some q) : (bytes s).head? ≠ some q.toUInt8 := by
  cases s with
  | nil => simp [bytes]
  | cons c s =>
    have hc : c ≠ q := by simpa using h
    intro he
    rw [bytes, List.flatMap_cons, List.head?_append, Option.or_of_isSome (by simp)] at he
    exact ne_of_mem_utf8EncodeChar hq hc _ (List.mem_of_mem_head? he) rfl

/-- Where content cannot go on, the loop ends. -/
theorem round?_of_stops (a : List UInt8) {s : List Char} (h : Stops q s) :
    round? q.toUInt8 (a ++ bytes s).toByteArray a.length = none := by
  rw [round?_append]
  match s, h with
  | [], _ => rfl
  | c :: s, h =>
    obtain ⟨rfl, hs⟩ := h
    rw [bytes_cons_quote hq]
    simp [head?_bytes hq hs]

/-- The loop passes text with every quote doubled and ends where no content can follow. -/
theorem byteStop_double {rest : List Char} (hr : Stops q rest) : ∀ (v : List Char) (a : List UInt8),
    byteStop q.toUInt8 (a ++ bytes (double q v ++ rest)).toByteArray a.length =
      a.length + String.utf8Len (double q v)
  | [], a => byteStop_of_none (round?_of_stops hq a hr)
  | c :: v, a => by
    -- A quote is one round over two bytes, any other character one round for each of its bytes.
    by_cases hc : c = q
    · have ih := byteStop_double hr v (a ++ [q.toUInt8, q.toUInt8])
      have hround := round?_append q.toUInt8 a (bytes (double q (c :: v) ++ rest))
      simp only [double, if_pos hc, List.cons_append, bytes_cons_quote hq, List.head?_cons,
        if_true] at hround
      simp only [List.append_assoc, List.cons_append, List.nil_append, List.length_append,
        List.length_cons, List.length_nil] at ih
      simp only [double, if_pos hc, List.cons_append, bytes_cons_quote hq, byteStop_of_some hround,
        ih, String.utf8Len_cons, utf8Size_of_ascii hq]
      omega
    · have ih := byteStop_double hr v (a ++ String.utf8EncodeChar c)
      have hpass := byteStop_pass (a := a) (bytes (double q v ++ rest))
        (ne_of_mem_utf8EncodeChar hq hc)
      simp only [List.append_assoc] at ih
      have hb : bytes (double q (c :: v) ++ rest) =
          String.utf8EncodeChar c ++ bytes (double q v ++ rest) := by
        simp only [double, if_neg hc, List.cons_append, bytes, List.flatMap_cons]
      rw [hb, hpass, ih, double, if_neg hc, List.length_append, String.length_utf8EncodeChar,
        String.utf8Len_cons]
      omega

theorem byteStop_content (s : List Char) :
    byteStop q.toUInt8 (String.ofList s).toByteArray 0 = String.utf8Len (content q s).1 := by
  obtain ⟨⟨v, hv⟩, hr⟩ := content_is_double q s
  have h := byteStop_double hq hr v []
  rw [← hv, content_append, List.nil_append, List.length_nil, Nat.zero_add] at h
  exact h

end

/-- A place in a text where its content ends: it lies between two characters, every quote before
it is one of a pair, and the text is over there or a quote stands there without another. -/
structure EndsAt (q : Char) (input : String) (stop : Nat) : Prop where
  boundary : String.Pos.Raw.IsValid input ⟨stop⟩
  paired : ∃ v, String.Pos.Raw.extract input 0 ⟨stop⟩ = String.ofList (double q v)
  stops : Stops q (String.Pos.Raw.extract input ⟨stop⟩ input.rawEndPos).toList

theorem slices_ofList (a b : List Char) :
    String.Pos.Raw.extract (String.ofList (a ++ b)) 0 ⟨String.utf8Len a⟩ = String.ofList a ∧
      String.Pos.Raw.extract (String.ofList (a ++ b)) ⟨String.utf8Len a⟩
        (String.ofList (a ++ b)).rawEndPos = String.ofList b := by
  have ha := String.extract_of_valid [] a b
  have hb := String.extract_of_valid a b []
  rw [List.nil_append, String.utf8Len_nil, Nat.zero_add] at ha
  rw [List.append_nil, ← String.utf8Len_append] at hb
  rw [String.rawEndPos_ofList]
  exact ⟨ha, hb⟩

theorem isValid_ofList (a b : List Char) :
    String.Pos.Raw.IsValid (String.ofList (a ++ b)) ⟨String.utf8Len a⟩ := by
  have h := (Location.isIn_advance a b).boundary
  rw [Location.offset_advance_origin] at h
  exact h

theorem endsAt_iff {q : Char} {s : List Char} {stop : Nat} :
    EndsAt q (String.ofList s) stop ↔ stop = String.utf8Len (content q s).1 := by
  constructor
  · intro h
    obtain ⟨a, b, hab, ha⟩ := String.Pos.Raw.isValid_iff_exists_append.1 h.boundary
    obtain rfl : s = a.toList ++ b.toList := by
      rw [← String.toList_append, ← hab, String.toList_ofList]
    obtain rfl : stop = String.utf8Len a.toList := by
      rw [String.utf8Len_toList]
      exact congrArg String.Pos.Raw.byteIdx ha
    obtain ⟨v, hv⟩ := h.paired
    have hr := h.stops
    obtain ⟨hs, ht⟩ := slices_ofList a.toList b.toList
    rw [hs, String.ofList_inj] at hv
    rw [ht, String.toList_ofList] at hr
    rw [content_eq_iff.2 ⟨rfl, ⟨v, hv⟩, hr⟩]
  · rintro rfl
    have hs := content_append q s
    obtain ⟨⟨v, hv⟩, hr⟩ := content_is_double q s
    obtain ⟨ha, hb⟩ := slices_ofList (content q s).1 (content q s).2
    have hp := isValid_ofList (content q s).1 (content q s).2
    rw [hs] at ha hb hp
    exact ⟨hp, ⟨v, by rw [ha, hv]⟩, by rw [hb, String.toList_ofList]; exact hr⟩

end AlterCatalog.Quoted

namespace AlterCatalog

/-- A text that is one token from its start to its end. -/
def IsToken (text : String) (token : Token) : Prop :=
  ∃ l, l.offset = text.utf8ByteSize ∧ tokenize text = .ok [⟨token, ⟨.origin, l⟩⟩, endAt l]

theorem isToken_of_lexeme {s : List Char} {token : Token} (h : Lexeme s (some token))
    (he : Piece.EndsBefore ⟨s, some token⟩ []) : IsToken (String.ofList s) token := by
  have hc : Lexer.Cuts [⟨s, some token⟩] [] := ⟨h, he, trivial⟩
  have hp := Lexer.pieces_of_cuts hc
  rw [List.flatMap_singleton] at hp
  have ht := tokenize_ofList hp
  rw [Lexer.place_of_token rfl] at ht
  exact ⟨_, by rw [Location.offset_advance_origin, String.utf8ByteSize_ofList], ht⟩

/-- The slice of a token is the lexeme it was read from. -/
theorem lexeme_of_mem_tokens {input : String} {ts : List Placed} (h : tokenize input = .ok ts)
    {t : Placed} (ht : t ∈ ts) (hne : t.token ≠ .endOfInput) :
    Lexeme (t.span.slice input).toList (some t.token) := by
  obtain ⟨ps, hp, rfl⟩ := tokenize_eq_ok_iff.1 h
  obtain ⟨hi, hc, _⟩ := Lexer.pieces_eq_iff.1 hp
  rcases List.mem_append.1 ht with ht | ht
  · obtain ⟨before, p, after, rfl, hp, hs⟩ := Lexer.mem_place ht
    have hl := Lexer.lexeme_of_mem_cuts hc (p := p) (by simp)
    rw [hp] at hl
    have hsl := slice_advance (before.flatMap Piece.text) p.text (after.flatMap Piece.text)
    rw [hs, ← String.ofList_toList (s := input), hi]
    simp only [List.flatMap_append, List.flatMap_cons, List.append_nil, ← List.append_assoc]
    rw [hsl, String.toList_ofList]
    exact hl
  · rw [List.mem_singleton.1 ht] at hne
    exact absurd rfl hne

theorem enclose_of_lexeme {s : List Char} {token : Token} (h : Lexeme s (some token)) (v : String) :
    (token = .string v → s = Quoted.enclose '\x27' v.toList) ∧
      (token = .quotedIdentifier v → s = Quoted.enclose '\x60' v.toList) := by
  cases h with
  | string w =>
    refine ⟨fun h => ?_, nofun⟩
    rw [← Token.string.inj h, String.toList_ofList]
  | delimited w =>
    refine ⟨nofun, fun h => ?_⟩
    rw [← Token.quotedIdentifier.inj h, String.toList_ofList]
  | word hw =>
    unfold Lexer.wordToken
    split <;> exact ⟨nofun, nofun⟩
  | _ => exact ⟨nofun, nofun⟩

theorem slice_of_quoted {input : String} {ts : List Placed} (h : tokenize input = .ok ts)
    {t : Placed} (ht : t ∈ ts) (s : String) :
    (t.token = .string s → t.span.slice input = Quoted.string s) ∧
      (t.token = .quotedIdentifier s → t.span.slice input = Quoted.identifier s) := by
  constructor
  · intro hs
    have hl := lexeme_of_mem_tokens h ht (by simp [hs])
    rw [Quoted.string, ← (enclose_of_lexeme hl s).1 hs, String.ofList_toList]
  · intro hs
    have hl := lexeme_of_mem_tokens h ht (by simp [hs])
    rw [Quoted.identifier, ← (enclose_of_lexeme hl s).2 hs, String.ofList_toList]

/-- **Quoting and scanning undo each other.** A quoted text is one token for that text, and the
slice of a quoted token is its text quoted. The loop over the bytes ends in every text, at the one
place where content ends (`EndsAt`); cutting by characters cuts there, and no quote of the content
is lost when each pair is read as one. -/
theorem quoting_inverts_scanning :
    (∀ s, IsToken (Quoted.string s) (.string s)) ∧
      (∀ s, IsToken (Quoted.identifier s) (.quotedIdentifier s)) ∧
      (∀ input ts, tokenize input = .ok ts → ∀ t ∈ ts, ∀ s,
        (t.token = .string s → t.span.slice input = Quoted.string s) ∧
          (t.token = .quotedIdentifier s → t.span.slice input = Quoted.identifier s)) ∧
      ∀ q : Char, q.toNat < 128 → ∀ input : String,
        let rounds := fun pos next => Quoted.round? q.toUInt8 input.toByteArray pos = some next
        let stop := Quoted.byteStop q.toUInt8 input.toByteArray 0
        let content := Quoted.content q input.toList
        Relation.ReflTransGen rounds 0 stop ∧
          Quoted.round? q.toUInt8 input.toByteArray stop = none ∧
          (∀ place, Quoted.EndsAt q input place ↔ place = stop) ∧
          String.Pos.Raw.extract input 0 ⟨stop⟩ = String.ofList content.1 ∧
          String.Pos.Raw.extract input ⟨stop⟩ input.rawEndPos = String.ofList content.2 ∧
          Quoted.double q (Quoted.undouble q content.1) = content.1 := by
  refine ⟨fun s => ?_, fun s => ?_, fun input ts h t ht s => slice_of_quoted h ht s, ?_⟩
  · have hl := Lexeme.string s.toList
    rw [String.ofList_toList] at hl
    exact isToken_of_lexeme hl nofun
  · have hl := Lexeme.delimited s.toList
    rw [String.ofList_toList] at hl
    exact isToken_of_lexeme hl nofun
  · intro q hq input rounds stop content
    obtain ⟨hrun, hnone⟩ := Quoted.byteStop_reached q.toUInt8 input.toByteArray 0
    have hstop : stop = String.utf8Len content.1 := by
      have hb := Quoted.byteStop_content hq input.toList
      rw [String.ofList_toList] at hb
      exact hb
    have hs : content.1 ++ content.2 = input.toList := Quoted.content_append q input.toList
    obtain ⟨⟨v, hv⟩, _⟩ := Quoted.content_is_double q input.toList
    obtain ⟨ha, hb⟩ := Quoted.slices_ofList content.1 content.2
    rw [hs, String.ofList_toList, ← hstop] at ha hb
    refine ⟨hrun, hnone, fun place => ?_, ha, hb, ?_⟩
    · rw [hstop, ← Quoted.endsAt_iff, String.ofList_toList]
    · rw [show content.1 = Quoted.double q v from hv, Quoted.undouble_double]

/-- Two quotes at the end of a text make five, and of five the last one stands alone. -/
theorem quoting_inverts_scanning_odd_run :
    IsToken "'é'''''" (.string "é''") ∧
      (∃ ts, tokenize "`a``` ''''" = .ok ts ∧ ∃ t ∈ ts, t.token = .string "'" ∧
        t.span.slice "`a``` ''''" = Quoted.string "'") ∧
      Quoted.byteStop 39 "é'''''x".toByteArray 0 = 6 := by
  obtain ⟨hstring, _, hslice, hloop⟩ := quoting_inverts_scanning
  refine ⟨hstring "é''", ?_, ?_⟩
  · have h : tokenize "`a``` ''''" = .ok
        [⟨.quotedIdentifier "a`", ⟨⟨1, 1, 0⟩, ⟨1, 6, 5⟩⟩⟩,
          ⟨.string "'", ⟨⟨1, 7, 6⟩, ⟨1, 11, 10⟩⟩⟩, endAt ⟨1, 11, 10⟩] := by decide +kernel
    refine ⟨_, h, ⟨.string "'", ⟨⟨1, 7, 6⟩, ⟨1, 11, 10⟩⟩⟩, by simp, rfl, ?_⟩
    exact (hslice _ _ h _ (by simp) _).1 rfl
  · obtain ⟨_, _, hplace, _⟩ := hloop '\x27' (by decide) "é'''''x"
    exact ((hplace 6).1 ((Quoted.endsAt_iff (s := "é'''''x".toList)).2 (by decide))).symm

end AlterCatalog
