import AlterCatalog.Statement.Node

/-!
# Validation

The grammar takes any literal for a key, value or comment, and any text for a name part. Validation
finds what cannot be carried out: empty name parts and keys, literals that are no texts, a rename
to the current name. Keys that repeat are legal and only warned of, at every position but their
first.
-/

namespace AlterCatalog

inductive Category where
  | structural | typing | spelling
deriving DecidableEq

def Category.label : Category → String
  | structural => "Structural"
  | typing => "Type"
  | spelling => "Syntax"

/-- What a literal stands for in its statement. -/
inductive Role where
  | key | value | comment
deriving DecidableEq

def Role.label : Role → String
  | key => "Property key"
  | value => "Property value"
  | comment => "Catalog comment"

inductive Fault where
  | emptyPart (name : Name)
  | notText (role : Role) (literal : Literal)
  | emptyKey (key : Literal)
  | renameToSelf (catalog newName : Name)
deriving DecidableEq

namespace Fault

def category : Fault → Category
  | emptyPart _ => .spelling
  | notText _ _ => .typing
  | emptyKey _ => .spelling
  | renameToSelf _ _ => .structural

def message : Fault → String
  | emptyPart name => "Identifier '" ++ name.text ++ "' has an empty name part"
  | notText role literal =>
    role.label ++ " must be a character string literal, found " ++ literal.kind.label
  | emptyKey _ => "Property key must not be empty"
  | renameToSelf catalog _ => "Cannot rename catalog '" ++ catalog.text ++ "' to its current name"

def location : Fault → Location
  | emptyPart name => name.span.start
  | notText _ literal => literal.span.start
  | emptyKey key => key.span.start
  | renameToSelf _ newName => newName.span.start

def describe (f : Fault) : String := f.message ++ " (at " ++ f.location.describe ++ ")"

end Fault

inductive Warning where
  | resetAgain (key : String) (span : Span)
  | setAgain (key : String) (span : Span)
deriving DecidableEq

namespace Warning

def message : Warning → String
  | resetAgain key _ => "Property key '" ++ key ++ "' is listed more than once in RESET"
  | setAgain key _ => "Property key '" ++ key ++ "' is set more than once; the last value wins"

def location : Warning → Location
  | resetAgain _ span => span.start
  | setAgain _ span => span.start

def describe (w : Warning) : String := w.message ++ " (at " ++ w.location.describe ++ ")"

end Warning

namespace Validation

def nameFaults : Node → List Fault
  | .name n => if n.parts = [] ∨ "" ∈ n.parts then [.emptyPart n] else []
  | _ => []

def textFaults (role : Role) (l : Literal) : List Fault :=
  match l.value with
  | .text _ => []
  | _ => [.notText role l]

/-- A text that can serve as a key. -/
def key? (l : Literal) : Option String :=
  match l.value with
  | .text value => if value = "" then none else some value
  | _ => none

def keyFaults (l : Literal) : List Fault :=
  match l.value with
  | .text value => if value = "" then [.emptyKey l] else []
  | _ => [.notText .key l]

def settingFaults (s : Setting) : List Fault := textFaults .value s.value ++ keyFaults s.key

def actionFaults (catalog : Name) : Action → List Fault
  | .set settings => settings.items.flatMap settingFaults
  | .reset keys => keys.items.flatMap keyFaults
  | .rename newName => if catalog.same newName then [.renameToSelf catalog newName] else []
  | .comment text => textFaults .comment text

/-- The items whose key stands among `seen` or at an earlier item, each with that key. -/
def repeated {α : Type} (key? : α → Option String) (seen : List String) :
    List α → List (String × α)
  | [] => []
  | a :: rest =>
    match key? a with
    | none => repeated key? seen rest
    | some k =>
      if k ∈ seen then (k, a) :: repeated key? seen rest else repeated key? (k :: seen) rest

end Validation

namespace Statement

def faults (s : Statement) : List Fault :=
  s.nodes.flatMap Validation.nameFaults ++ Validation.actionFaults s.catalog s.action

def warnings (s : Statement) : List Warning :=
  match s.action with
  | .set settings =>
    (Validation.repeated (fun s => Validation.key? s.key) [] settings.items).map
      fun (key, s) => .setAgain key s.span
  | .reset keys =>
    (Validation.repeated Validation.key? [] keys.items).map fun (key, l) => .resetAgain key l.span
  | .rename _ => []
  | .comment _ => []

/-- The warnings of a statement that has no faults. -/
def validate (s : Statement) : Except (List Fault) (List Warning) :=
  if s.faults = [] then .ok s.warnings else .error s.faults

end Statement

end AlterCatalog
