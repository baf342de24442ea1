import AlterCatalog.Proofs.Filler
import AlterCatalog.Proofs.Lossless

/-!
# Reading line by line

A line feed is no part of a token, ends a line comment and goes on with white space. So where a
text can be read to its end, what comes after a line feed is read as it would be by itself, further
down. White space is where this does not show in the pieces: a run at the end of the text takes the
line feed and the blanks after it along.
-/

namespace AlterCatalog

/-! ## Places further down -/

/-- The same place so many lines and bytes further down. -/
def Location.shift (lines bytes : Nat) (l : Location) : Location :=
  ⟨l.line + lines, l.column, l.offset + bytes⟩

def Span.shift (lines bytes : Nat) (s : Span) : Span :=
  ⟨s.start.shift lines bytes, s.finish.shift lines bytes⟩

def Placed.shift (lines bytes : Nat) (t : Placed) : Placed := ⟨t.token, t.span.shift lines bytes⟩

def LexError.shift (lines bytes : Nat) (e : LexError) : LexError :=
  ⟨e.fault, e.location.shift lines bytes⟩

section
variable (lines bytes : Nat)

theorem Location.shift_step (l : Location) (c : Char) :
    (l.shift lines bytes).step c = (l.step c).shift lines bytes := by
  unfold step shift
  split <;> simp only [Nat.add_right_comm]

theorem Location.shift_advance : ∀ (s : List Char) (l : Location),
    (l.shift lines bytes).advance s = (l.advance s).shift lines bytes
  | [], _ => rfl
  | c :: s, l => by rw [advance_cons, shift_step, shift_advance s, advance_cons]

theorem Lexer.place_shift : ∀ (ps : List Piece) (l : Location),
    place (l.shift lines bytes) ps = (place l ps).map (Placed.shift lines bytes)
  | [], _ => rfl
  | p :: ps, l => by
    have ih := place_shift ps (l.advance p.text)
    unfold place
    rw [Location.shift_advance, ih]
    cases p.token <;> rfl

/-- The outcome of reading, so many lines and bytes further down. -/
def shiftOutcome : Except LexError (List Placed) → Except LexError (List Placed)
  | .ok ts => .ok (ts.map (Placed.shift lines bytes))
  | .error e => .error (e.shift lines bytes)

theorem tokenizeFrom_shift (l : Location) (s : List Char) :
    tokenizeFrom (l.shift lines bytes) s = shiftOutcome lines bytes (tokenizeFrom l s) := by
  unfold tokenizeFrom
  rw [Location.shift_advance, Lexer.place_shift]
  cases (Lexer.pieces s).2 with
  | nil => simp [shiftOutcome, Placed.shift, Span.shift]
  | cons c r => rfl

end

/-- The first place of the line after a text. -/
theorem Location.advance_lineFeed (s : List Char) :
    origin.advance (s ++ ['\n']) = origin.shift (s.count '\n' + 1) (String.utf8Len s + 1) := by
  have hb : '\n'.utf8Size = 1 := rfl
  rw [advance_snoc, step, if_pos rfl, line_advance_origin, offset_advance_origin, hb]
  simp only [shift, origin, Nat.zero_add, Nat.add_assoc]

/-! ## What a line feed does -/

section
open Lexer

theorem tokenizeFrom_skip {s rest text : List Char} (h : scan s = some (⟨text, none⟩, rest))
    (l : Location) : tokenizeFrom l s = tokenizeFrom (l.advance text) rest := by
  rw [tokenizeFrom_of_scan h]
  cases tokenizeFrom (l.advance text) rest <;> rfl

theorem tokenizeFrom_dropWhile (l : Location) (s : List Char) :
    tokenizeFrom (l.advance (s.takeWhile isBlank)) (s.dropWhile isBlank) = tokenizeFrom l s := by
  cases s with
  | nil => rfl
  | cons c r =>
    by_cases hc : isBlank c = true
    · exact (tokenizeFrom_skip (scan_blank hc r) l).symm
    · rw [List.takeWhile_cons_of_neg hc, List.dropWhile_cons_of_neg hc]
      rfl

theorem tokenizeFrom_blanks : ∀ {s : List Char}, (∀ c ∈ s, isBlank c = true) →
    ∀ (l : Location) (rest : List Char),
      tokenizeFrom l (s ++ rest) = tokenizeFrom (l.advance s) rest
  | [], _, _, _ => rfl
  | c :: s, h, l, rest => by
    obtain ⟨hc, hs⟩ := List.forall_mem_cons.1 h
    rw [List.cons_append, ← tokenizeFrom_dropWhile, List.takeWhile_cons_of_pos hc,
      List.dropWhile_cons_of_pos hc, Location.advance_cons, tokenizeFrom_dropWhile,
      tokenizeFrom_blanks hs, Location.advance_cons]

/-- Of the pieces that can end a text, white space alone goes on after a line feed. -/
theorem endsBefore_lineFeed {text s : List Char} {token : Option Token} (h : Lexeme text token)
    (he : Piece.EndsBefore ⟨text, token⟩ s) (rest : List Char) :
    Piece.EndsBefore ⟨text, token⟩ (s ++ '\n' :: rest) ∨
      token = none ∧ ∀ c ∈ text, isBlank c = true := by
  cases token with
  | some t => exact .inl (he.append_filler (.blank rfl .nil) rest)
  | none =>
    cases h with
    | blank _ hb => exact .inr ⟨rfl, hb⟩
    | blockComment => exact .inl trivial
    | lineComment =>
      left
      cases s with
      | nil => simp [Piece.EndsBefore]
      | cons c s => exact he

theorem tokenizeFrom_lineFeed (rest : List Char) : ∀ {ps : List Piece}, Cuts ps [] →
    ∀ l : Location, tokenizeFrom l (ps.flatMap Piece.text ++ '\n' :: rest) =
      (tokenizeFrom ((l.advance (ps.flatMap Piece.text)).step '\n') rest).map (place l ps ++ ·)
  | [], _, l => by
    have hb := tokenizeFrom_blanks (s := ['\n']) (List.forall_mem_singleton.2 rfl) l rest
    rw [List.flatMap_nil, List.nil_append, ← List.singleton_append, hb]
    exact (congrFun Except.map_id _).symm
  | ⟨text, token⟩ :: ps, h, l => by
    obtain ⟨hl, he, hps⟩ := h
    rw [List.append_nil] at he
    have ih := tokenizeFrom_lineFeed rest hps (l.advance text)
    rw [List.flatMap_cons, List.append_assoc, Location.advance_append]
    rcases endsBefore_lineFeed hl he rest with he | ⟨rfl, hb⟩
    · rw [tokenizeFrom_of_scan (scan_append hl he), ih, place_cons l ⟨text, token⟩ ps]
      cases tokenizeFrom _ rest <;> simp [Except.map]
    · rw [tokenizeFrom_blanks hb, ih]
      rfl

end

/-- **Reading is compositional over lines.** Whatever stands below a text that can be read, its
tokens come after those of the text, and its error is the error, at places further down by the lines
and the bytes above. -/
theorem tokenize_lines {a : String} {ts : List Placed} (h : tokenize a = .ok ts) (b : String) :
    ∃ tokens finish, ts = tokens ++ [endAt finish] ∧ (∀ t ∈ tokens, t.token ≠ .endOfInput) ∧
      tokenize (a ++ "\n" ++ b) =
        (shiftOutcome (a.toList.count '\n' + 1) (a.utf8ByteSize + 1) (tokenize b)).map
          (tokens ++ ·) := by
  obtain ⟨ps, hp, rfl⟩ := tokenize_eq_ok_iff.1 h
  obtain ⟨ha, hc, -⟩ := Lexer.pieces_eq_iff.1 hp
  rw [List.append_nil] at ha
  refine ⟨_, _, rfl, (Lexer.lossless_place hp).endOnce, ?_⟩
  have hb : (a ++ "\n" ++ b).toList = ps.flatMap Piece.text ++ '\n' :: b.toList := by
    simp [ha]
  have hl := Location.advance_lineFeed a.toList
  rw [String.utf8Len_toList, Location.advance_snoc, ha] at hl
  rw [tokenize, hb, tokenizeFrom_lineFeed _ hc, hl, tokenizeFrom_shift, ha]
  rfl

/-- A comment at the end of a line hides nothing of the next one, here an error. -/
theorem tokenize_lines_comment : ∃ ts, tokenize "SET -- (" = .ok ts ∧
    tokenize "SET -- (\n'k', #" = .error ⟨.unexpectedCharacter '#', ⟨2, 6, 14⟩⟩ := by
  have h : tokenize "SET -- (" =
      .ok [⟨.keyword .set, ⟨⟨1, 1, 0⟩, ⟨1, 4, 3⟩⟩⟩, endAt ⟨1, 9, 8⟩] := by decide +kernel
  have hb : tokenize "'k', #" = .error ⟨.unexpectedCharacter '#', ⟨1, 6, 5⟩⟩ := by decide +kernel
  obtain ⟨tokens, finish, -, -, ht⟩ := tokenize_lines h "'k', #"
  rw [hb] at ht
  exact ⟨_, h, ht⟩

end AlterCatalog
