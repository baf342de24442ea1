import AlterCatalog.Location

/-!
# Statements

An `ALTER CATALOG` statement names a catalog and one action on it. Keys, values and comments may
be literals of any kind; only an accessor insists on one. Every node carries the span it was read
from. Spans serve diagnostics alone: `bare` forgets them and `same` looks past them, so that two
trees count as the same when they have one bare tree.
-/

namespace AlterCatalog

/-- A dotted name. -/
structure Name where
  parts : List String
  span : Span := {}
deriving DecidableEq

namespace Name

def text (n : Name) : String := ".".intercalate n.parts

/-- The name when it has exactly one part. -/
def simple? (n : Name) : Option String :=
  match n.parts with
  | [part] => some part
  | _ => none

def bare (n : Name) : Name := ⟨n.parts, {}⟩

/-- Whether two names differ at most in spans. -/
def same (a b : Name) : Bool := a.parts = b.parts

theorem same_iff (a b : Name) : a.same b = true ↔ a.bare = b.bare := by
  simp [same, bare]

end Name

inductive LiteralKind where
  | text | integer | decimal | boolean | null
deriving DecidableEq

def LiteralKind.label : LiteralKind → String
  | text => "CHAR"
  | integer => "INTEGER"
  | decimal => "DECIMAL"
  | boolean => "BOOLEAN"
  | null => "NULL"

inductive LiteralValue where
  | text (value : String)
  | integer (value : Int64)
  /-- A decimal number, kept as it was written. -/
  | decimal (digits : String)
  | boolean (value : Bool)
  | null
deriving DecidableEq

def LiteralValue.kind : LiteralValue → LiteralKind
  | text _ => .text
  | integer _ => .integer
  | decimal _ => .decimal
  | boolean _ => .boolean
  | null => .null

/-- What a node refuses: a part it was built without, or a literal of another kind. -/
inductive NodeError where
  | missing (part : String)
  | mismatch (expected actual : LiteralKind)
deriving DecidableEq

def NodeError.message : NodeError → String
  | missing part => part ++ " cannot be null"
  | mismatch expected actual =>
    "Type mismatch: expected " ++ expected.label ++ " literal, found " ++ actual.label ++ " literal"

structure Literal where
  value : LiteralValue
  span : Span := {}
deriving DecidableEq

namespace Literal

def kind (l : Literal) : LiteralKind := l.value.kind

def asText (l : Literal) : Except NodeError String :=
  match l.value with
  | .text value => .ok value
  | _ => .error (.mismatch .text l.kind)

def asInteger (l : Literal) : Except NodeError Int64 :=
  match l.value with
  | .integer value => .ok value
  | _ => .error (.mismatch .integer l.kind)

def asBoolean (l : Literal) : Except NodeError Bool :=
  match l.value with
  | .boolean value => .ok value
  | _ => .error (.mismatch .boolean l.kind)

def bare (l : Literal) : Literal := ⟨l.value, {}⟩

def same (a b : Literal) : Bool := a.value = b.value

theorem same_iff (a b : Literal) : a.same b = true ↔ a.bare = b.bare := by
  simp [same, bare]

end Literal

/-- A list in parentheses; its span takes in both. -/
structure Listing (α : Type) where
  items : List α
  span : Span := {}
deriving DecidableEq

namespace Listing

variable {α : Type}

def bare (forget : α → α) (l : Listing α) : Listing α := ⟨l.items.map forget, {}⟩

/-- Whether two lists have the same items, one by one. -/
def same (sameItem : α → α → Bool) (a b : Listing α) : Bool := a.items.isEqv b.items sameItem

theorem same_iff {sameItem : α → α → Bool} {forget : α → α}
    (h : ∀ x y, sameItem x y = true ↔ forget x = forget y) {a b : Listing α} :
    a.same sameItem b = true ↔ a.bare forget = b.bare forget := by
  have items : ∀ xs ys : List α, xs.isEqv ys sameItem = true ↔ xs.map forget = ys.map forget := by
    intro xs
    induction xs with
    | nil => intro ys; cases ys <;> simp [List.isEqv]
    | cons x xs ih => intro ys; cases ys <;> simp [List.isEqv, h, ih]
  simp [same, bare, items]

end Listing

/-- An entry `key = value` of a SET list. -/
structure Setting where
  key : Literal
  value : Literal
  span : Span := {}
deriving DecidableEq

namespace Setting

def bare (s : Setting) : Setting := ⟨s.key.bare, s.value.bare, {}⟩

def same (a b : Setting) : Bool := a.key.same b.key && a.value.same b.value

theorem same_iff (a b : Setting) : a.same b = true ↔ a.bare = b.bare := by
  simp [same, bare, Literal.same_iff]

end Setting

inductive Kind where
  | set | reset | rename | comment
deriving DecidableEq

def Kind.label : Kind → String
  | set => "SET"
  | reset => "RESET"
  | rename => "RENAME"
  | comment => "COMMENT"

inductive Action where
  | set (settings : Listing Setting)
  | reset (keys : Listing Literal)
  | rename (newName : Name)
  | comment (text : Literal)
deriving DecidableEq

namespace Action

def kind : Action → Kind
  | set _ => .set
  | reset _ => .reset
  | rename _ => .rename
  | comment _ => .comment

def bare : Action → Action
  | set settings => .set (settings.bare Setting.bare)
  | reset keys => .reset (keys.bare Literal.bare)
  | rename newName => .rename newName.bare
  | comment text => .comment text.bare

def same : Action → Action → Bool
  | set a, set b => a.same Setting.same b
  | reset a, reset b => a.same Literal.same b
  | rename a, rename b => a.same b
  | comment a, comment b => a.same b
  | _, _ => false

theorem same_iff {a b : Action} : a.same b = true ↔ a.bare = b.bare := by
  cases a <;> cases b <;>
    simp [same, bare, Listing.same_iff Setting.same_iff, Listing.same_iff Literal.same_iff,
      Name.same_iff, Literal.same_iff]

end Action

structure Statement where
  span : Span := {}
  catalog : Name
  action : Action
deriving DecidableEq

namespace Statement

def kind (s : Statement) : Kind := s.action.kind

/-- The statement without its spans. -/
def bare (s : Statement) : Statement := ⟨{}, s.catalog.bare, s.action.bare⟩

/-- Whether two statements differ at most in spans. -/
def same (a b : Statement) : Bool := a.catalog.same b.catalog && a.action.same b.action

/-- A RESET statement from parts of which some may be absent. -/
def resetOfParts (span : Span) (catalog : Option Name) (keys : Option (Listing Literal)) :
    Except NodeError Statement :=
  match catalog, keys with
  | none, _ => .error (.missing "catalog_name")
  | _, none => .error (.missing "property_key_list")
  | some catalog, some keys => .ok ⟨span, catalog, .reset keys⟩

end Statement

@[simp] theorem Statement.bare_bare (s : Statement) : s.bare.bare = s.bare := by
  have hs : Setting.bare ∘ Setting.bare = Setting.bare := rfl
  have hl : Literal.bare ∘ Literal.bare = Literal.bare := rfl
  obtain ⟨_, _, a⟩ := s
  cases a <;> simp [bare, Action.bare, Listing.bare, Name.bare, Literal.bare, hs, hl]

theorem Statement.same_iff {a b : Statement} : a.same b = true ↔ a.bare = b.bare := by
  simp [same, bare, Name.same_iff, Action.same_iff]

end AlterCatalog
