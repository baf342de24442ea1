import AlterCatalog.Statement.Node
import AlterCatalog.Statement.Parser
import AlterCatalog.Validation

/-!
# Log records

Reading and validating report what they have done: each statement that was read, with its outline,
and each warning, also those of a statement with faults. A reader of the log sees the records up
to a level; what is read does not depend on it.
-/

namespace AlterCatalog

inductive Level where
  | error | warn | info | debug | trace
deriving DecidableEq

namespace Level

def label : Level → String
  | error => "ERROR"
  | warn => "WARN"
  | info => "INFO"
  | debug => "DEBUG"
  | trace => "TRACE"

/-- The more a level lets through, the higher it is. -/
def rank : Level → Nat
  | error => 1
  | warn => 2
  | info => 3
  | debug => 4
  | trace => 5

/-- The level that a word names in any letter case. -/
def ofWord? (word : String) : Option Level :=
  [error, warn, info, debug, trace].find? fun l =>
    l.label.toList == word.toList.map Char.toUpper

end Level

structure Record where
  level : Level
  origin : String
  message : String
deriving DecidableEq

namespace Record

def parsing (message : String) : Record := ⟨.debug, "ddlite::ast::parser", message⟩

def outlining (message : String) : Record := ⟨.debug, "ddlite::ast::pretty_printer", message⟩

def validating (message : String) : Record := ⟨.warn, "ddlite::ast::validator", message⟩

def handling (message : String) : Record := ⟨.debug, "ddlite::cli::handlers", message⟩

/-- The records that a reader at a level sees. -/
def upTo (level : Level) (records : List Record) : List Record :=
  records.filter fun r => r.level.rank ≤ level.rank

/-- One record as a line; every further line of its message is indented by four spaces. -/
def line (r : Record) : String :=
  let label := r.level.label ++ spaces (5 - r.level.label.length)
  let message := r.message.toList.flatMap fun c =>
    if c = '\n' then ['\n', ' ', ' ', ' ', ' '] else [c]
  "[" ++ label ++ " " ++ r.origin ++ "] " ++ String.ofList message

end Record

namespace Statement

def outlineRecords (s : Statement) : List Record :=
  Record.outlining "Starting AST pretty printing" :: s.outline.map Record.outlining ++
    [Record.outlining "AST pretty printing completed"]

/-- What reading the statement alone reports. -/
def singleRecords (s : Statement) : List Record :=
  Record.parsing ("Successfully parsed ALTER CATALOG " ++ s.kind.label ++ " statement into AST") ::
    s.outlineRecords

/-- What reading the statement at a place in a script reports; places count from one. -/
def scriptRecords (place : Nat) (s : Statement) : List Record :=
  Record.parsing ("Parsed statement " ++ toString place ++ " of script: ALTER CATALOG " ++
    s.kind.label) :: s.outlineRecords

def warningRecords (s : Statement) : List Record :=
  s.warnings.map fun w => Record.validating w.describe

end Statement

/-- What reading a text as one statement reports. -/
def parseStatementRecords (input : String) : List Record :=
  match parseStatement input with
  | .ok s => s.singleRecords
  | .error _ => []

/-- What reading a script reports, up to its first failure. -/
def parseScriptRecords (input : String) : List Record :=
  ((readScript input).1.zipIdx 1).flatMap fun (s, place) => s.scriptRecords place

end AlterCatalog
