import AlterCatalog.CommandLine.Arguments
import AlterCatalog.Layout.Json
import AlterCatalog.Report
import AlterCatalog.Token.Inspect

/-!
# Commands

What a command answers: an exit code and two texts. Its log goes to the error output, and the
failure that ended it follows. A command that fails to read its script writes nothing to the
output. Formatting reads its layout before its script, and writes nothing if one of its texts does
not fit into memory.

Some texts are left out: the reason why a layout file is malformed, the report that a text does not
fit, and what the program says about its usage, asked for or not.
-/

namespace AlterCatalog

def programName : String := "ddlite"

def programVersion : String := "0.0.1"

/-- Why a file cannot be read. -/
inductive FileError where
  | notFound
  | isDirectory
  | notDirectory
  | notText
  | other (message : String)
deriving DecidableEq

def FileError.message : FileError → String
  | notFound => "No such file or directory (os error 2)"
  | isDirectory => "Is a directory (os error 21)"
  | notDirectory => "Not a directory (os error 20)"
  | notText => "stream did not contain valid UTF-8"
  | other message => message

/-- What a command can read. -/
structure Surroundings where
  file : String → Except FileError String
  /-- Standard input, if its bytes are text. -/
  input : Option String
  color : Bool

inductive Failure where
  | parse (e : ParseError)
  | unreadableLayout (path : String) (e : FileError)
  | malformedLayout
  | inputNotText
  | invalid (failed total : Nat)
  /-- A text that does not fit into memory. -/
  | overlong
deriving DecidableEq

def ParseError.inspect : ParseError → String
  | lexical e => "LexerError(" ++ e.inspect ++ ")"
  | unexpectedToken found location =>
    "UnexpectedToken \x7b found: " ++ found.inspect ++ ", location: " ++ location.inspect ++ " \x7d"
  | unexpectedEnd location => "UnexpectedEof(" ++ location.inspect ++ ")"
  | emptyInput => "EmptyInput"

/-- What a failure is reported as. Of a malformed layout only its kind is, without the reason, and
a text that does not fit is not reported. -/
def Failure.report : Failure → List String
  | parse e => ["Error: " ++ e.inspect]
  | unreadableLayout path e => ["Error: IoError(" ++ Inspect.text (path ++ ": " ++ e.message) ++ ")"]
  | malformedLayout => ["Error: ParseError"]
  | inputNotText =>
    ["Error: Error \x7b kind: InvalidData, message: " ++ Inspect.text FileError.notText.message ++
      " \x7d"]
  | invalid failed total =>
    let message := toString failed ++ " of " ++ toString total ++ " statements failed validation"
    ["Error: " ++ Inspect.text message]
  | overlong => []

def Failure.exit : Failure → Nat
  | overlong => 101
  | _ => 1

/-- What a command has written, logged and failed with. -/
structure Transcript where
  output : String := ""
  log : List Record := []
  failure : Option Failure := none
deriving DecidableEq

/-- What the program answers. -/
structure Outcome where
  exit : Nat
  output : String := ""
  errors : String := ""
deriving DecidableEq

namespace Transcript

def outcome (level : Level) (t : Transcript) : Outcome :=
  let log := endLines ((Record.upTo level t.log).map Record.line)
  match t.failure with
  | none => ⟨0, t.output, log⟩
  | some failure => ⟨failure.exit, t.output, log ++ endLines failure.report⟩

/-- Runs what follows on the statements of a script. -/
def onScript (s : Surroundings) (sql : Option String) (log : List Record)
    (onStatements : List Statement → Transcript) : Transcript :=
  match sql.or s.input with
  | none => { log, failure := some .inputNotText }
  | some text =>
    let log := log ++ parseScriptRecords text
    match parseScript text with
    | .error e => { log, failure := some (.parse e) }
    | .ok statements =>
      { onStatements statements with log := log ++ (onStatements statements).log }

def version (color : Bool) : Transcript where
  output := endLines [Style.boldGreen.paint color "DDLite" ++ " " ++ programVersion,
    "Catalog DDL formatter and validator"]

/-- The statements in a layout, each with a semicolon, and an empty line between them. They are put
together before the line is ended. -/
def formatted (layout : Layout) (statements : List Statement) : Option String := do
  let texts ← statements.mapM fun s => s.sql layout
  let text := "\n\n".intercalate (texts.map (· ++ ";"))
  if text.utf8ByteSize ≤ Page.limit then some (endLines [text]) else none

end Transcript

/-- The layout with the flags of the command line over it. -/
def FormatOptions.override (o : FormatOptions) (l : Layout) : Layout where
  pretty := l.pretty && !o.compact
  indentWidth := l.indentWidth
  keywordCase := if o.lowercaseKeywords then .lower else l.keywordCase
  quoteAll := l.quoteAll || o.quoteIdentifiers

/-- The layout of a format command, from its file or the defaults. -/
def FormatOptions.layout (o : FormatOptions) (s : Surroundings) : Except Failure Layout :=
  match o.config with
  | none => .ok (o.override {})
  | some path =>
    match s.file path with
    | .error e => .error (.unreadableLayout path e)
    | .ok text =>
      match Layout.parse? text with
      | none => .error .malformedLayout
      | some l => .ok (o.override l)

namespace Transcript

def layoutRecords (o : FormatOptions) : List Record :=
  o.config.toList.map fun path => Record.handling ("Loading unparse config from " ++ path)

def format (s : Surroundings) (sql : Option String) (o : FormatOptions) : Transcript :=
  match o.layout s with
  | .error failure => { log := layoutRecords o, failure := some failure }
  | .ok layout => onScript s sql (layoutRecords o) fun statements =>
      match formatted layout statements with
      | some text => { output := text }
      | none => { failure := some .overlong }

def explain (s : Surroundings) (sql : Option String) (format : ExplainFormat) : Transcript :=
  onScript s sql [] fun statements =>
    { output := endLines [match format with
        | .text => explainText s.color statements
        | .json => explainJson statements] }

/-- The verdicts on the statements, and a summary where all are valid. -/
def verdicts (color : Bool) (statements : List Statement) : Transcript :=
  let blocks := String.join ((statements.zipIdx 1).map fun (s, place) => s.verdict color place)
  let failed := statements.countP fun s => s.faults ≠ []
  let log := statements.flatMap Statement.warningRecords
  if failed = 0 then
    let summary := "All " ++ toString statements.length ++ " statements are valid"
    { output := blocks ++ endLines [Style.green.paint color summary], log }
  else { output := blocks, log, failure := some (.invalid failed statements.length) }

def validate (s : Surroundings) (sql : Option String) : Transcript :=
  onScript s sql [] (verdicts s.color)

end Transcript

def Command.transcript (s : Surroundings) : Command → Transcript
  | .version => .version s.color
  | .format sql options => .format s sql options
  | .explain sql form => .explain s sql form
  | .validate sql => .validate s sql

def Invocation.outcome (s : Surroundings) (i : Invocation) : Outcome :=
  (i.command.transcript s).outcome i.level

/-- What the program answers to a command line; its help and its notes on usage are left out. -/
def Asked.outcome (s : Surroundings) : Asked → Outcome
  | run invocation => invocation.outcome s
  | programVersion => ⟨0, endLines [programName ++ " " ++ AlterCatalog.programVersion], ""⟩
  | help => ⟨0, "", ""⟩
  | misuse => ⟨2, "", ""⟩

end AlterCatalog
