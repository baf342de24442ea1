import AlterCatalog.Change.Json
import AlterCatalog.Json.Printer
import AlterCatalog.Statement.Json
import AlterCatalog.Statement.Printer
import AlterCatalog.Validation

/-!
# Reports

What is said about the statements of a script. An explanation of a statement holds its text on one
line, its outline, and the change it resolves to or why there is none. As text, each statement is a
block of lines, with an empty line after it; white space at the very end is cut. As JSON, each
statement is an object.

The verdict on a statement is a headline with its place in the script and its text on one line, then
its warnings if it is valid, or its faults if it is not, numbered from one.
-/

namespace AlterCatalog

/-! ## Coloured text

A style opens with its codes and closes with a reset. A reset inside the text would end the style
early, so the style is opened again after it.
-/

inductive Style where
  | green | red | yellow | boldGreen | boldRed
deriving DecidableEq

namespace Style

def codes : Style → String
  | green => "32"
  | red => "31"
  | yellow => "33"
  | boldGreen => "1;32"
  | boldRed => "1;31"

def opening (s : Style) : String := "\x1b[" ++ s.codes ++ "m"

def reset : String := "\x1b[0m"

/-- Adds `again` after every reset. -/
def reopen (again : List Char) : List Char → List Char
  | '\x1b' :: '[' :: '0' :: 'm' :: r => '\x1b' :: '[' :: '0' :: 'm' :: (again ++ reopen again r)
  | c :: r => c :: reopen again r
  | [] => []

/-- The text in a style, or as it is where colours are off. -/
def paint (s : Style) (color : Bool) (text : String) : String :=
  if color then s.opening ++ String.ofList (reopen s.opening.toList text.toList) ++ reset else text

end Style

/-! ## Explanations -/

namespace Statement

def changeLine (color : Bool) (s : Statement) : String :=
  match s.change with
  | .ok change => "Change: " ++ change.describe
  | .error e => Style.red.paint color ("Change: " ++ e.message)

/-- The lines that explain the statement at a place in its script. -/
def explanationLines (color : Bool) (place : Nat) (s : Statement) : List String :=
  Style.boldGreen.paint color ("Statement " ++ toString place ++ ": " ++ s.line) ::
    (s.outline ++ [s.changeLine color]).map ("  " ++ ·)

def changeJson (s : Statement) : Json :=
  match s.change with
  | .ok change => change.toJson
  | .error e => .object [("error", .string e.message)]

def explanationJson (s : Statement) : Json :=
  .object [("ast", s.toJson), ("change", s.changeJson), ("kind", .string s.kind.label),
    ("sql", .string s.line)]

end Statement

/-- Lines with a line feed after each. -/
def endLines (lines : List String) : String := String.join (lines.map (· ++ "\n"))

def explainText (color : Bool) (statements : List Statement) : String :=
  let lines := (statements.zipIdx 1).flatMap fun (s, place) => s.explanationLines color place ++ [""]
  String.ofList (trimEnd isBlank (endLines lines).toList)

def explainJson (statements : List Statement) : String :=
  (Json.array (statements.map Statement.explanationJson)).pretty

/-! ## Verdicts -/

namespace Statement

def headline (style : Style) (color : Bool) (mark : String) (place : Nat) (s : Statement) :
    String :=
  style.paint color (mark ++ " Statement " ++ toString place ++ ":") ++ " " ++ s.line

def warningLine (color : Bool) (w : Warning) (number : Nat) : String :=
  "  " ++ Style.yellow.paint color (toString number ++ ". " ++ w.describe)

def faultLine (color : Bool) (f : Fault) (number : Nat) : String :=
  "  " ++ toString number ++ ". [" ++ f.category.label ++ "] " ++
    Style.red.paint color f.describe

def verdictLines (color : Bool) (place : Nat) (s : Statement) : List String :=
  match s.validate with
  | .ok warnings => s.headline .green color "✅" place ::
      (warnings.zipIdx 1).map fun (w, number) => warningLine color w number
  | .error faults => s.headline .boldRed color "❌" place ::
      (faults.zipIdx 1).map fun (f, number) => faultLine color f number

def verdict (color : Bool) (place : Nat) (s : Statement) : String :=
  endLines (s.verdictLines color place)

end Statement

end AlterCatalog
