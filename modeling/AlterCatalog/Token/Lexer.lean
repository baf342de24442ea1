import AlterCatalog.Token

/-!
# Reading tokens

A text is cut into pieces from the left: runs of white space, comments, and tokens. The first
character settles which kind of piece can start at a place, so there is at most one. Positions
are laid over the pieces afterwards. Reading stops where no piece starts, and the character there
tells the fault.

Main statements: a piece is a nonempty head of the text it was cut from (`scan_startsWith`), so
cutting ends and loses nothing (`flatMap_pieces`).
-/

namespace AlterCatalog

/-- A stretch of source text; white space and comments carry no token. -/
structure Piece where
  text : List Char
  token : Option Token
deriving DecidableEq

namespace Lexer

/-- The text up to and with the first star that a slash follows, and the text after it. -/
def throughCommentClose : List Char → Option (List Char × List Char)
  | '*' :: '/' :: r => some (['*', '/'], r)
  | c :: r => (throughCommentClose r).map fun (body, rest) => (c :: body, rest)
  | [] => none

/-- An integer token holds 64 bits. -/
def integerToken? (value : Int) : Option Token :=
  if Int64.minValue.toInt ≤ value ∧ value ≤ Int64.maxValue.toInt then
    some (.integer (Int64.ofInt value))
  else none

def wordToken (word : List Char) : Token :=
  match Keyword.ofWord? word with
  | some k => .keyword k
  | none => .identifier (String.ofList word)

/-- A piece cut off by a class of characters. -/
def run (p : Char → Bool) (token : List Char → Option Token) (s : List Char) :
    Piece × List Char :=
  (⟨s.takeWhile p, token (s.takeWhile p)⟩, s.dropWhile p)

/-- A quoted token; `r` is the text after the opening quote. -/
def quoted (q : Char) (token : String → Token) (r : List Char) : Option (Piece × List Char) :=
  match Quoted.content q r with
  | (_, []) => none
  | (raw, close :: rest) =>
    some (⟨q :: (raw ++ [close]), some (token (String.ofList (Quoted.undouble q raw)))⟩, rest)

/-- A number after its sign: digits, and a fraction where a point and a digit follow. An integer
outside the 64-bit range is no piece. -/
def number (sign r : List Char) : Option (Piece × List Char) :=
  let digits := r.takeWhile Char.isDigit
  let rest := r.dropWhile Char.isDigit
  let fraction := (rest.drop 1).takeWhile Char.isDigit
  if digits = [] then none
  else if rest.head? = some '.' ∧ fraction ≠ [] then
    let text := sign ++ digits ++ '.' :: fraction
    some (⟨text, some (.decimal (String.ofList text))⟩, (rest.drop 1).dropWhile Char.isDigit)
  else
    let size : Int := Nat.ofDigitChars 10 digits 0
    match integerToken? (if sign = [] then size else -size) with
    | some t => some (⟨sign ++ digits, some t⟩, rest)
    | none => none

def lineComment (s : List Char) : Piece × List Char := run (· != '\n') (fun _ => none) s

/-- A block comment; `r` is the text after its two opening characters. -/
def blockComment (r : List Char) : Option (Piece × List Char) :=
  (throughCommentClose r).map fun (body, rest) => (⟨'/' :: '*' :: body, none⟩, rest)

/-- The piece at the head of a text, and the text after it. -/
def scan : List Char → Option (Piece × List Char)
  | [] => none
  | c :: r =>
    if isBlank c then some (run isBlank (fun _ => none) (c :: r))
    else if c = '\x27' then quoted '\x27' .string r
    else if c = '\x60' then quoted '\x60' .quotedIdentifier r
    else if c = '/' then
      if r.head? = some '*' then blockComment (r.drop 1) else none
    else if c = '-' then
      if r.head? = some '-' then some (lineComment (c :: r)) else number ['-'] r
    else if c.isDigit then number [] (c :: r)
    else if isWordStart c then some (run isWordPart (fun w => some (wordToken w)) (c :: r))
    else (Symbol.ofChar? c).map fun s => (⟨[c], some (.symbol s)⟩, r)

/-- A text starts with a piece, which is not empty. -/
def StartsWith (s : List Char) (p : Piece) (rest : List Char) : Prop :=
  s = p.text ++ rest ∧ p.text ≠ []

theorem throughCommentClose_append {s body rest : List Char}
    (h : throughCommentClose s = some (body, rest)) : body ++ rest = s := by
  fun_induction throughCommentClose s generalizing body rest with
  | case1 r =>
    cases h
    rfl
  | case2 c r _ ih =>
    obtain ⟨⟨b, r'⟩, hb, he⟩ := Option.map_eq_some_iff.1 h
    cases he
    rw [List.cons_append, ih hb]
  | case3 => cases h

theorem run_startsWith {p : Char → Bool} (token : List Char → Option Token) {c : Char}
    (hc : p c = true) (r : List Char) :
    StartsWith (c :: r) (run p token (c :: r)).1 (run p token (c :: r)).2 :=
  ⟨List.takeWhile_append_dropWhile.symm, by simp [run, hc]⟩

theorem quoted_startsWith {q : Char} {token : String → Token} {r rest : List Char} {p : Piece}
    (h : quoted q token r = some (p, rest)) : StartsWith (q :: r) p rest := by
  have hc := Quoted.content_append q r
  unfold quoted at h
  split at h
  · cases h
  · next raw close rest' he =>
    cases h
    rw [he] at hc
    exact ⟨by simp [← hc], by simp⟩

theorem number_startsWith {sign r rest : List Char} {p : Piece}
    (h : number sign r = some (p, rest)) : StartsWith (sign ++ r) p rest := by
  have hr : r.takeWhile Char.isDigit ++ r.dropWhile Char.isDigit = r :=
    List.takeWhile_append_dropWhile
  unfold number at h
  generalize r.takeWhile Char.isDigit = digits at h hr
  generalize r.dropWhile Char.isDigit = tail at h hr
  subst hr
  simp only at h
  split at h
  · cases h
  next hd =>
  split at h
  · next hf =>
    cases h
    cases tail with
    | nil => simp at hf
    | cons c tail =>
      have hc : c = '.' := by simpa using hf.1
      simp [StartsWith, hc]
  · split at h <;> cases h
    simp [StartsWith, hd]

theorem blockComment_startsWith {r rest : List Char} {p : Piece}
    (h : blockComment r = some (p, rest)) : StartsWith ('/' :: '*' :: r) p rest := by
  obtain ⟨⟨body, rest'⟩, hb, he⟩ := Option.map_eq_some_iff.1 h
  cases he
  exact ⟨by simp [throughCommentClose_append hb], by simp⟩

theorem isWordPart_of_isWordStart {c : Char} (h : isWordStart c = true) : isWordPart c = true := by
  simp only [isWordStart, isWordPart, Char.isAlphanum, Bool.or_eq_true] at h ⊢
  rcases h with h | h
  · exact .inl (.inl (.inl h))
  · exact .inl (.inr h)

theorem scan_startsWith {s rest : List Char} {p : Piece} (h : scan s = some (p, rest)) :
    StartsWith s p rest := by
  cases s with
  | nil => cases h
  | cons c r =>
    simp only [scan] at h
    split at h
    · next hb =>
      cases h
      exact run_startsWith (fun _ => none) hb r
    split at h
    · next hq => exact hq ▸ quoted_startsWith h
    split at h
    · next hq => exact hq ▸ quoted_startsWith h
    split at h
    · next hc =>
      split at h
      · next hs =>
        obtain ⟨r', rfl⟩ := List.head?_eq_some_iff.1 hs
        exact hc ▸ blockComment_startsWith h
      · cases h
    split at h
    · next hc =>
      split at h
      · cases h
        exact run_startsWith (fun _ => none) (by simp [hc]) r
      · exact hc ▸ number_startsWith h
    split at h
    · exact number_startsWith h
    split at h
    · next hw =>
      cases h
      exact run_startsWith (fun w => some (wordToken w)) (isWordPart_of_isWordStart hw) r
    · obtain ⟨sym, _, he⟩ := Option.map_eq_some_iff.1 h
      cases he
      exact ⟨rfl, by simp⟩

theorem scan_length_lt {s rest : List Char} {p : Piece} (h : scan s = some (p, rest)) :
    rest.length < s.length := by
  obtain ⟨hs, hp⟩ := scan_startsWith h
  have := List.length_pos_iff.2 hp
  rw [hs, List.length_append]
  omega

/-- A text cut into pieces, and the text from the first place on where none starts. -/
def pieces (s : List Char) : List Piece × List Char :=
  match h : scan s with
  | none => ([], s)
  | some (p, rest) =>
    have : rest.length < s.length := scan_length_lt h
    (p :: (pieces rest).1, (pieces rest).2)
termination_by s.length

theorem flatMap_pieces (s : List Char) : (pieces s).1.flatMap Piece.text ++ (pieces s).2 = s := by
  fun_induction pieces s with
  | case1 s _ => rfl
  | case2 s p rest h _ ih => simp [ih, (scan_startsWith h).1]

/-- The tokens among pieces that start at a location. -/
def place : Location → List Piece → List Placed
  | _, [] => []
  | l, p :: ps =>
    match p.token with
    | none => place (l.advance p.text) ps
    | some t => ⟨t, ⟨l, l.advance p.text⟩⟩ :: place (l.advance p.text) ps

end Lexer

inductive LexFault where
  | unterminatedString
  | unterminatedIdentifier
  | unterminatedComment
  | unexpectedCharacter (c : Char)
deriving DecidableEq

/-- Why no piece starts where the text `c :: r` stands. -/
def LexFault.of (c : Char) (r : List Char) : LexFault :=
  if c = '\x27' then .unterminatedString
  else if c = '\x60' then .unterminatedIdentifier
  else if c = '/' ∧ r.head? = some '*' then .unterminatedComment
  else .unexpectedCharacter c

structure LexError where
  fault : LexFault
  location : Location
deriving DecidableEq

def LexError.message (e : LexError) : String :=
  match e.fault with
  | .unterminatedString => "Unterminated string literal starting at " ++ e.location.describe
  | .unterminatedIdentifier => "Unterminated quoted identifier starting at " ++ e.location.describe
  | .unterminatedComment => "Unterminated block comment starting at " ++ e.location.describe
  | .unexpectedCharacter c =>
    "Unexpected character '" ++ String.singleton c ++ "' at " ++ e.location.describe

/-- The tokens of a text that starts at a location; the end of the input is the last token. -/
def tokenizeFrom (l : Location) (s : List Char) : Except LexError (List Placed) :=
  let finish := l.advance ((Lexer.pieces s).1.flatMap Piece.text)
  match (Lexer.pieces s).2 with
  | [] => .ok (Lexer.place l (Lexer.pieces s).1 ++ [⟨.endOfInput, ⟨finish, finish⟩⟩])
  | c :: r => .error ⟨.of c r, finish⟩

def tokenize (input : String) : Except LexError (List Placed) :=
  tokenizeFrom .origin input.toList

/-- Whether a name reads as one word. -/
def isRegularName (name : String) : Bool := isWord name.toList

/-- Whether a name spells a keyword. -/
def isKeyword (name : String) : Bool := (Keyword.ofWord? name.toList).isSome

end AlterCatalog
