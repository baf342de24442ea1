import AlterCatalog.Layout.Writer
import AlterCatalog.Statement.Node

/-!
# Writing statements

A statement writes itself to any sink: `ALTER CATALOG`, its name, and its action. The items of a
list each stand after a separator and a line break, and one more line break ends the list.
-/

namespace AlterCatalog

variable {σ : Type} [Sink σ]

def Name.write (n : Name) (w : σ) : σ := Sink.name n.parts w

def Literal.write (l : Literal) (w : σ) : σ :=
  match l.value with
  | .text value => Sink.literal (Quoted.string value) w
  | .integer value => Sink.literal (toString value.toInt) w
  | .decimal digits => Sink.literal digits w
  | .boolean true => Sink.keyword "TRUE" w
  | .boolean false => Sink.keyword "FALSE" w
  | .null => Sink.keyword "NULL" w

def Setting.write (s : Setting) (w : σ) : σ :=
  s.value.write (Sink.keyword "=" (s.key.write w))

def Listing.write {α : Type} (item : α → σ → σ) (l : Listing α) (w : σ) : σ :=
  Sink.withList "(" ")"
    (fun w => Sink.lineBreak (l.items.foldl (fun w a => item a (Sink.itemBreak w)) w)) w

def Action.write (a : Action) (w : σ) : σ :=
  match a with
  | .set settings => settings.write Setting.write (Sink.keyword "SET" w)
  | .reset keys => keys.write Literal.write (Sink.keyword "RESET" w)
  | .rename newName => newName.write (Sink.keyword "TO" (Sink.keyword "RENAME" w))
  | .comment text => text.write (Sink.keyword "COMMENT" w)

def Statement.write (s : Statement) (w : σ) : σ :=
  s.action.write (s.catalog.write (Sink.keyword "CATALOG" (Sink.keyword "ALTER" w)))

/-- The text that a writing leaves on a new page, if all of it fits there. -/
def Layout.render (l : Layout) (write : Page → Page) : Option String :=
  (write { writer := { layout := l } }).text?

/-- The text that a writing leaves in a new writer, however long. -/
def Layout.text (l : Layout) (write : Writer → Writer) : String := (write { layout := l }).text

namespace Statement

def sql (s : Statement) (l : Layout) : Option String := l.render s.write

/-- The statement on one line. It holds no indentation, so memory is taken to be large enough. -/
def line (s : Statement) : String := Layout.compact.text s.write

/-- The calls that the statement makes on a sink. -/
def calls (s : Statement) : List Call :=
  (s.write (σ := Recorded Writer) ⟨{ layout := .compact }, []⟩).calls

end Statement

/-- The source text of a node, if it fits; a list has none of its own. -/
def Node.sql? (n : Node) (l : Layout) : Option (Option String) :=
  match n with
  | statement s => some (s.sql l)
  | name n => some (l.render n.write)
  | literal v => some (l.render v.write)
  | setting s => some (l.render s.write)
  | keys _ => none
  | settings _ => none

end AlterCatalog
