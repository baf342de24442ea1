import AlterCatalog.Statement
import AlterCatalog.Token.Lexer

/-!
# Reading statements

The grammar, over tokens:

    statement   ::=  ALTER CATALOG name action
    action      ::=  SET ( [setting {, setting}] )  |  RESET ( [literal {, literal}] )
                  |  RENAME TO name  |  COMMENT literal
    setting     ::=  literal = literal
    name        ::=  part {. part}

A part is a bare or a delimited identifier. Reading looks one token ahead and never goes back
over a token that an expectation has accepted. A list ends before the first comma that no whole
item follows, and a name before the first dot that no part follows; the expectation after it then
fails at that comma or dot. So a failure is told by the tokens from the failing one on.

A script is read statement by statement, each followed by a semicolon or by the end of the input.
-/

namespace AlterCatalog

inductive ParseError where
  | lexical (e : LexError)
  | unexpectedToken (found : Token) (location : Location)
  | unexpectedEnd (location : Location)
  | emptyInput
deriving DecidableEq

namespace ParseError

def message : ParseError → String
  | lexical e => "Lexer error: " ++ e.message
  | unexpectedToken found location =>
    "Unexpected token " ++ found.display ++ " at " ++ location.describe
  | unexpectedEnd location => "Unexpected end of input at " ++ location.describe
  | emptyInput => "Empty input: expected an ALTER CATALOG statement"

/-- The failure at the first of the given tokens. -/
def atHead : List Placed → ParseError
  | [] => .unexpectedEnd {}
  | t :: _ =>
    if t.token = .endOfInput then .unexpectedEnd t.span.start
    else .unexpectedToken t.token t.span.start

end ParseError

namespace Parser

/-- What is left to read. -/
abbrev Tokens := List Placed

/-- A list item or name part: read whole, or not at all. -/
structure Item (α : Type) where
  read : Tokens → Option (α × Tokens)
  shorter : ∀ {ts a rest}, read ts = some (a, rest) → rest.length < ts.length

def expect (token : Token) : Tokens → Except Tokens (Span × Tokens)
  | [] => .error []
  | t :: rest => if t.token = token then .ok (t.span, rest) else .error (t :: rest)

/-- The item that one token makes. -/
def Item.ofToken {α : Type} (f : Placed → Option α) : Item α where
  read
    | [] => none
    | t :: rest => (f t).map fun a => (a, rest)
  shorter := by
    intro ts a rest h
    cases ts with
    | nil => cases h
    | cons t ts =>
      obtain ⟨_, _, he⟩ := Option.map_eq_some_iff.1 h
      cases he
      simp

def part : Item (String × Span) := .ofToken fun t =>
  match t.token with
  | .identifier name | .quotedIdentifier name => some (name, t.span)
  | _ => none

def literalOf? (t : Placed) : Option Literal :=
  match t.token with
  | .string value => some ⟨.text value, t.span⟩
  | .integer value => some ⟨.integer value, t.span⟩
  | .decimal digits => some ⟨.decimal digits, t.span⟩
  | .keyword .true => some ⟨.boolean true, t.span⟩
  | .keyword .false => some ⟨.boolean false, t.span⟩
  | .keyword .null => some ⟨.null, t.span⟩
  | _ => none

def literal : Item Literal := .ofToken literalOf?

def setting : Item Setting where
  read
    | k :: e :: v :: rest =>
      match literalOf? k, e.token, literalOf? v with
      | some key, .symbol .equal, some value => some (⟨key, value, key.span.merge value.span⟩, rest)
      | _, _, _ => none
    | _ => none
  shorter := by
    intro ts a rest h
    split at h
    · split at h <;> cases h
      simp only [List.length_cons]
      omega
    · cases h

/-- Items that each follow a separator. A separator without an item after it is left. -/
def following {α : Type} (separator : Symbol) (item : Item α) (ts : Tokens) :
    List α × Tokens :=
  match ts with
  | [] => ([], [])
  | t :: rest =>
    if t.token = .symbol separator then
      match h : item.read rest with
      | some (a, rest') =>
        have : rest'.length < rest.length := item.shorter h
        (a :: (following separator item rest').1, (following separator item rest').2)
      | none => ([], t :: rest)
    else ([], t :: rest)
termination_by ts.length

/-- Items with commas between them, or none at all. -/
def series {α : Type} (item : Item α) (ts : Tokens) : List α × Tokens :=
  match item.read ts with
  | some (a, rest) => (a :: (following .comma item rest).1, (following .comma item rest).2)
  | none => ([], ts)

def name (ts : Tokens) : Except Tokens (Name × Tokens) :=
  match part.read ts with
  | some (p, rest) =>
    let more := following .dot part rest
    .ok (⟨p.1 :: more.1.map Prod.fst, (more.1.map Prod.snd).foldl Span.merge p.2⟩, more.2)
  | none => .error ts

def listing {α : Type} (item : Item α) (ts : Tokens) : Except Tokens (Listing α × Tokens) := do
  let (opening, ts) ← expect (.symbol .leftParen) ts
  let (items, ts) := series item ts
  let (closing, ts) ← expect (.symbol .rightParen) ts
  return (⟨items, opening.merge closing⟩, ts)

/-- An action with the span of its last part. -/
def action : Tokens → Except Tokens ((Action × Span) × Tokens)
  | [] => .error []
  | t :: rest =>
    match t.token with
    | .keyword .set => do
      let (settings, rest) ← listing setting rest
      return ((.set settings, settings.span), rest)
    | .keyword .reset => do
      let (keys, rest) ← listing literal rest
      return ((.reset keys, keys.span), rest)
    | .keyword .rename => do
      let (_, rest) ← expect (.keyword .to_) rest
      let (newName, rest) ← name rest
      return ((.rename newName, newName.span), rest)
    | .keyword .comment =>
      match literal.read rest with
      | some (text, rest) => .ok ((.comment text, text.span), rest)
      | none => .error rest
    | _ => .error (t :: rest)

def statement (ts : Tokens) : Except Tokens (Statement × Tokens) := do
  let (first, ts) ← expect (.keyword .alter) ts
  let (_, ts) ← expect (.keyword .catalog) ts
  let (catalog, ts) ← name ts
  let ((action, last), ts) ← action ts
  return (⟨first.merge last, catalog, action⟩, ts)

def atEnd : Tokens → Bool
  | [] => true
  | t :: _ => t.token = .endOfInput

def isSemicolon (t : Placed) : Bool := t.token = .symbol .semicolon

theorem expect_shorter {token : Token} {ts rest : Tokens} {span : Span}
    (h : expect token ts = .ok (span, rest)) : rest.length < ts.length := by
  cases ts with
  | nil => cases h
  | cons t ts =>
    simp only [expect] at h
    split at h <;> cases h
    simp

theorem following_length_le {α : Type} (separator : Symbol) (item : Item α) (ts : Tokens) :
    (following separator item ts).2.length ≤ ts.length := by
  fun_induction following separator item ts with
  | case1 => simp
  | case2 t rest _ a rest' _ hlt ih =>
    simp only [List.length_cons]
    omega
  | case3 => simp
  | case4 => simp

theorem series_length_le {α : Type} (item : Item α) (ts : Tokens) :
    (series item ts).2.length ≤ ts.length := by
  unfold series
  split
  · next a rest h =>
    have := item.shorter h
    have := following_length_le .comma item rest
    simp only
    omega
  · simp

theorem name_shorter {ts rest : Tokens} {n : Name} (h : name ts = .ok (n, rest)) :
    rest.length < ts.length := by
  unfold name at h
  split at h
  · next p rest' hp =>
    cases h
    have := part.shorter hp
    have := following_length_le .dot part rest'
    omega
  · cases h

theorem listing_shorter {α : Type} {item : Item α} {ts rest : Tokens} {l : Listing α}
    (h : listing item ts = .ok (l, rest)) : rest.length < ts.length := by
  simp only [listing, bind, Except.bind] at h
  split at h
  · cases h
  next opening ho =>
  split at h
  · cases h
  next closing hc =>
  cases h
  have := expect_shorter ho
  have := series_length_le item opening.2
  have := expect_shorter hc
  omega

theorem action_shorter {ts rest : Tokens} {a : Action × Span}
    (h : action ts = .ok (a, rest)) : rest.length < ts.length := by
  cases ts with
  | nil => cases h
  | cons t ts =>
    simp only [action] at h
    split at h
    · simp only [bind, Except.bind] at h
      split at h <;> cases h
      next hl =>
      have := listing_shorter hl
      simp only [List.length_cons]
      omega
    · simp only [bind, Except.bind] at h
      split at h <;> cases h
      next hl =>
      have := listing_shorter hl
      simp only [List.length_cons]
      omega
    · simp only [bind, Except.bind] at h
      split at h
      · cases h
      next he =>
      split at h <;> cases h
      next hn =>
      have := expect_shorter he
      have := name_shorter hn
      simp only [List.length_cons]
      omega
    · split at h <;> cases h
      next hl =>
      have := literal.shorter hl
      simp only [List.length_cons]
      omega
    · cases h

theorem statement_shorter {ts rest : Tokens} {s : Statement}
    (h : statement ts = .ok (s, rest)) : rest.length < ts.length := by
  simp only [statement, bind, Except.bind] at h
  split at h
  · cases h
  next hf =>
  split at h
  · cases h
  next hc =>
  split at h
  · cases h
  next hn =>
  split at h
  · cases h
  next ha =>
  cases h
  have := expect_shorter hf
  have := expect_shorter hc
  have := name_shorter hn
  have := action_shorter ha
  omega

/-- The statements read from the front of a script, and the failure that stopped the reading. -/
def script (ts : Tokens) : List Statement × Option ParseError :=
  if atEnd (ts.dropWhile isSemicolon) then ([], none)
  else
    match h : statement (ts.dropWhile isSemicolon) with
    | .error rest => ([], some (.atHead rest))
    | .ok (s, rest) =>
      have : rest.length < ts.length :=
        Nat.lt_of_lt_of_le (statement_shorter h) (List.dropWhile_sublist _).length_le
      if atEnd rest || rest.head?.any isSemicolon then
        (s :: (script rest).1, (script rest).2)
      else ([], some (.atHead rest))
termination_by ts.length

/-- One statement, with at most one semicolon after it. -/
def single (ts : Tokens) : Except ParseError Statement :=
  if atEnd ts then .error .emptyInput
  else
    match statement ts with
    | .error rest => .error (.atHead rest)
    | .ok (s, rest) =>
      let rest := if rest.head?.any isSemicolon then rest.tail else rest
      if atEnd rest then .ok s else .error (.atHead rest)

end Parser

/-- Reads exactly one statement. -/
def parseStatement (input : String) : Except ParseError Statement :=
  match tokenize input with
  | .error e => .error (.lexical e)
  | .ok ts => Parser.single ts

/-- The statements of a script that were read before its first failure, and that failure. -/
def readScript (input : String) : List Statement × Option ParseError :=
  match tokenize input with
  | .error e => ([], some (.lexical e))
  | .ok ts =>
    match Parser.script ts with
    | ([], none) => ([], some .emptyInput)
    | read => read

/-- Reads a script of at least one statement. -/
def parseScript (input : String) : Except ParseError (List Statement) :=
  match readScript input with
  | (statements, none) => .ok statements
  | (_, some e) => .error e

end AlterCatalog
