import AlterCatalog.Layout
import AlterCatalog.Layout.Sink
import AlterCatalog.Token.Lexer

/-!
# The writer

The sink that lays out text. Between two tokens stands one space, unless a line break or the
opening of a list came in between. A separator at the head of a list is dropped. Where a list ends
on a line of its own, that line is indented like the one the list began on.

A text has to fit into memory, and an indentation may be too wide for that. A page is a writer that
fails there: it takes no step to a text of more than `Page.limit` bytes. Memory that ends earlier is
not accounted for.
-/

namespace AlterCatalog

/-- A list that is open in the text. -/
structure OpenList where
  closing : String
  hasItems : Bool := false
deriving DecidableEq

structure Writer where
  layout : Layout
  text : String := ""
  /-- The lists that are open, innermost first. -/
  lists : List OpenList := []
  /-- Whether a space comes before the next token. -/
  spacePending : Bool := false

/-- A part of a name as it is written: bare where it reads back as itself. -/
def Layout.namePart (l : Layout) (part : String) : String :=
  if l.quoteAll || !isRegularName part || isKeyword part then Quoted.identifier part else part

namespace Writer

def indentation (w : Writer) (depth : Nat) : String := spaces (w.layout.indent depth)

def markItem : List OpenList → List OpenList
  | [] => []
  | list :: lists => { list with hasItems := true } :: lists

/-- Adds the space before a token, which is an item of the innermost list. -/
def beginToken (w : Writer) : Writer :=
  { w with
    text := if w.spacePending then w.text ++ " " else w.text
    lists := markItem w.lists }

def token (text : String) (w : Writer) : Writer :=
  { w.beginToken with text := w.beginToken.text ++ text, spacePending := true }

def separator (text : String) (w : Writer) : Writer :=
  match w.lists with
  | ⟨_, false⟩ :: _ => w
  | _ => { w with text := w.text ++ text, spacePending := true }

def lineBreak (w : Writer) : Writer :=
  if w.layout.pretty then
    { w with text := w.text ++ "\n" ++ w.indentation w.lists.length, spacePending := false }
  else w

def openList (opening closing : String) (w : Writer) : Frame × Writer :=
  (⟨w.lists.length + 1, opening, closing⟩,
    { w.beginToken with
      text := w.beginToken.text ++ opening
      lists := ⟨closing, false⟩ :: w.beginToken.lists
      spacePending := false })

/-- The text up to its last line, where that holds only spaces. -/
def beforeIndentation? (w : Writer) : Option String :=
  let kept := trimEnd (· == ' ') w.text.toList
  if kept.getLast? = some '\n' then some (String.ofList kept) else none

/-- The text with a line at its end that holds only spaces indented anew. -/
def realign (w : Writer) (depth : Nat) : String :=
  match w.beforeIndentation? with
  | some kept => kept ++ w.indentation depth
  | none => w.text

/-- Closes the innermost list, if any is open. -/
def closeList (w : Writer) : Writer :=
  match w.lists with
  | [] => w
  | list :: lists =>
    { w with text := w.realign lists.length ++ list.closing, lists, spacePending := true }

/-- Whether a frame is the receipt for the innermost list; where no list is open its depth is zero. -/
def accepts (frame : Frame) (w : Writer) : Bool :=
  frame.depth == w.lists.length && w.lists.head?.all fun list => list.closing == frame.closing

/-- The text as a whole, once no list is open. -/
def finished? (w : Writer) : Option String := if w.lists.isEmpty then some w.text else none

instance : Sink Writer where
  keyword text w := w.token (w.layout.keywordCase.apply text)
  name parts w := w.token (".".intercalate (parts.map w.layout.namePart))
  literal := token
  separator := separator
  lineBreak := lineBreak
  openList := openList
  closeList _ := closeList

end Writer

/-- A writer whose text has to fit into memory. -/
structure Page where
  writer : Writer
  /-- Whether a width that needs more than 64 bits is a failure. -/
  checked : Bool := false
  /-- Whether something did not fit. Nothing is written any more then. -/
  full : Bool := false

namespace Page

/-- The most bytes that a text has: the greatest signed number of 64 bits. -/
def limit : Nat := 9223372036854775807

/-- Takes a step of the writer to a text of a size; there is none where it cannot be computed. -/
def step (size : Option Nat) (f : Writer → Writer) (p : Page) : Page :=
  if p.full then p
  else if size.any (· ≤ limit) then { p with writer := f p.writer }
  else { p with full := true }

/-- Takes a step that indents nothing. -/
def add (f : Writer → Writer) (p : Page) : Page := p.step (some (f p.writer).text.utf8ByteSize) f

def indentedSize (p : Page) (text : String) (depth : Nat) : Option Nat :=
  if p.checked && UInt64.size ≤ depth * p.writer.layout.indentWidth.toNat then none
  else some (text.utf8ByteSize + p.writer.layout.indent depth)

def lineBreak (p : Page) : Page :=
  if p.writer.layout.pretty then
    p.step (p.indentedSize (p.writer.text ++ "\n") p.writer.lists.length) Writer.lineBreak
  else p

def closeList (p : Page) : Page :=
  match p.writer.lists with
  | [] => p
  | list :: lists =>
    let size := match p.writer.beforeIndentation? with
      | some kept => p.indentedSize kept lists.length
      | none => some p.writer.text.utf8ByteSize
    p.step (size.map (· + list.closing.utf8ByteSize)) Writer.closeList

/-- The text, if all of it did fit. -/
def text? (p : Page) : Option String := if p.full then none else some p.writer.text

instance : Sink Page where
  keyword text := add (Sink.keyword text)
  name parts := add (Sink.name parts)
  literal text := add (Sink.literal text)
  separator text := add (Sink.separator text)
  lineBreak := lineBreak
  openList opening closing p :=
    ((Sink.openList opening closing p.writer).1,
      p.add fun w => (Sink.openList opening closing w).2)
  closeList _ := closeList

end Page

end AlterCatalog
