import AlterCatalog.Log

/-!
# Command line arguments

Arguments are taken from the left. Options for all commands may stand before the command and after
it; the value after it counts. An option's value follows an equals sign or is the next argument,
which then may not look like an option. After two dashes no option is recognised any more. An
option may be given once on each side of the command, and there is at most one plain argument, the
SQL text. Whoever asks for help gets it, unless the arguments before are wrong.
-/

namespace AlterCatalog

inductive ExplainFormat where
  | text | json
deriving DecidableEq

structure FormatOptions where
  compact : Bool := false
  config : Option String := none
  lowercaseKeywords : Bool := false
  quoteIdentifiers : Bool := false
deriving DecidableEq

/-- A command; without an SQL text it reads standard input. -/
inductive Command where
  | version
  | format (sql : Option String) (options : FormatOptions)
  | explain (sql : Option String) (format : ExplainFormat)
  | validate (sql : Option String)
deriving DecidableEq

structure Invocation where
  level : Level
  command : Command
deriving DecidableEq

/-- What a command line asks for. -/
inductive Asked where
  | run (invocation : Invocation)
  | programVersion
  | help
  | misuse
deriving DecidableEq

namespace Arguments

inductive Flag where
  | verbose | logLevel | compact | config | lowercaseKeywords | quoteIdentifiers | format
deriving DecidableEq

def Flag.text : Flag → String
  | verbose => "verbose"
  | logLevel => "log-level"
  | compact => "compact"
  | config => "config"
  | lowercaseKeywords => "lowercase-keywords"
  | quoteIdentifiers => "quote-identifiers"
  | format => "format"

def Flag.takesValue : Flag → Bool
  | logLevel => true
  | config => true
  | format => true
  | _ => false

inductive Verb where
  | version | format | explain | validate
deriving DecidableEq

def Verb.ofWord? (word : String) : Option Verb :=
  if word = "version" then some .version
  else if word = "format" ∨ word = "fmt" then some .format
  else if word = "explain" then some .explain
  else if word = "validate" then some .validate
  else none

/-- The options that may stand after a command; before it, only those for all commands may. -/
def flagsOf : Option Verb → List Flag
  | some .format => [.verbose, .logLevel, .compact, .config, .lowercaseKeywords, .quoteIdentifiers]
  | some .explain => [.verbose, .logLevel, .format]
  | _ => [.verbose, .logLevel]

/-- How many plain arguments a command takes. -/
def plainLimit : Verb → Nat
  | .version => 0
  | _ => 1

/-- What was given on one side of the command. -/
structure Given where
  flags : List (Flag × String) := []
  plain : List String := []
deriving DecidableEq

def Given.value? (g : Given) (f : Flag) : Option String :=
  (g.flags.find? fun e => e.1 == f).map Prod.snd

def Given.has (g : Given) (f : Flag) : Bool := (g.value? f).isSome

def validValue (f : Flag) (value : String) : Bool :=
  match f with
  | .logLevel => (Level.ofWord? value).isSome
  | .config => value != ""
  | .format => value == "text" || value == "json"
  | _ => true

/-- Notes an option, unless it was given before or its value is wrong. -/
def Given.note? (g : Given) (f : Flag) (value : String) : Option Given :=
  if g.has f || !validValue f value then none
  else some { g with flags := g.flags ++ [(f, value)] }

/-- How an argument reads while options are recognised. -/
inductive Shape where
  | endOfOptions
  | long (name : String) (value : Option String)
  | short (letters : List Char)
  | plain
deriving DecidableEq

def shape (argument : String) : Shape :=
  match argument.toList with
  | '-' :: '-' :: [] => .endOfOptions
  | '-' :: '-' :: r =>
    let name := String.ofList (r.takeWhile (· != '='))
    match r.dropWhile (· != '=') with
    | [] => .long name none
    | _ :: value => .long name (some (String.ofList value))
  | '-' :: c :: r => .short (c :: r)
  | _ => .plain

/-- What one argument, with the one after it, does to what was given. -/
inductive Step where
  | next (g : Given)
  /-- The next argument was taken as a value. -/
  | skipOne (g : Given)
  | endOfOptions
  | plain
  | stop (asked : Asked)

/-- Letters after one dash; an h asks for help, and before the command a V asks for the version of
the program. -/
def shortFlags (verb : Option Verb) (g : Given) : List Char → Step
  | [] => .next g
  | c :: r =>
    if c = 'v' then
      match g.note? .verbose "" with
      | some g => shortFlags verb g r
      | none => .stop .misuse
    else if c = 'h' then .stop .help
    else .stop (if c = 'V' ∧ verb = none then .programVersion else .misuse)

def longFlag (verb : Option Verb) (g : Given) (name : String) (value following : Option String) :
    Step :=
  match (flagsOf verb).find? fun f => f.text == name with
  | none =>
    if name = "help" ∧ value = none then .stop .help
    else .stop (if name = "version" ∧ value = none ∧ verb = none then .programVersion else .misuse)
  | some f =>
    if f.takesValue then
      match value, following with
      | some value, _ =>
        match g.note? f value with
        | some g => .next g
        | none => .stop .misuse
      | none, some value =>
        if shape value = .plain then
          match g.note? f value with
          | some g => .skipOne g
          | none => .stop .misuse
        else .stop .misuse
      | none, none => .stop .misuse
    else
      match value, g.note? f "" with
      | none, some g => .next g
      | _, _ => .stop .misuse

def step (verb : Option Verb) (g : Given) (argument : String) (following : Option String) : Step :=
  match shape argument with
  | .endOfOptions => .endOfOptions
  | .long name value => longFlag verb g name value following
  | .short letters => shortFlags verb g letters
  | .plain => .plain

def formatOptions (g : Given) : FormatOptions where
  compact := g.has .compact
  config := g.value? .config
  lowercaseKeywords := g.has .lowercaseKeywords
  quoteIdentifiers := g.has .quoteIdentifiers

def command (verb : Verb) (g : Given) : Command :=
  match verb with
  | .version => .version
  | .format => .format g.plain.head? (formatOptions g)
  | .explain => .explain g.plain.head? (if g.value? .format = some "json" then .json else .text)
  | .validate => .validate g.plain.head?

/-- Warnings are logged unless another level is asked for, before the command or, more strongly,
after it. -/
def level (outer inner : Given) : Level :=
  if outer.has .verbose || inner.has .verbose then .debug
  else (((inner.value? .logLevel).or (outer.value? .logLevel)).bind Level.ofWord?).getD .warn

def finish (outer : Given) (verb : Verb) (g : Given) : Asked :=
  if g.plain.length ≤ plainLimit verb then .run ⟨level outer g, command verb g⟩ else .misuse

/-- The arguments after the command. -/
def afterVerb (outer : Given) (verb : Verb) (g : Given) : List String → Asked
  | [] => finish outer verb g
  | a :: rest =>
    match step (some verb) g a rest.head? with
    | .next g => afterVerb outer verb g rest
    | .skipOne g =>
      match rest with
      | [] => .misuse
      | _ :: rest => afterVerb outer verb g rest
    | .endOfOptions => finish outer verb { g with plain := g.plain ++ rest }
    | .plain =>
      if g.plain.length < plainLimit verb then
        afterVerb outer verb { g with plain := g.plain ++ [a] } rest
      else .misuse
    | .stop asked => asked

/-- The arguments after the word help, which name at most one command, help itself included. -/
def afterHelp : List String → Asked
  | [] => .help
  | [word] => if word = "help" ∨ (Verb.ofWord? word).isSome then .help else .misuse
  | _ => .misuse

/-- The arguments up to the command and after it. -/
def read (g : Given) : List String → Asked
  | [] => .misuse
  | a :: rest =>
    match step none g a rest.head? with
    | .next g => read g rest
    | .skipOne g =>
      match rest with
      | [] => .misuse
      | _ :: rest => read g rest
    | .endOfOptions => .misuse
    | .plain =>
      match Verb.ofWord? a with
      | some verb => afterVerb g verb {} rest
      | none => if a = "help" then afterHelp rest else .misuse
    | .stop asked => asked

end Arguments

/-- What the arguments of the program ask for. -/
def Asked.ofArguments (arguments : List String) : Asked := Arguments.read {} arguments

end AlterCatalog
