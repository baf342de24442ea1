import AlterCatalog.Text.Inspect
import AlterCatalog.Token.Lexer

/-!
# Tokens and places shown for inspection

A token shows its class, and its value where it has one.
-/

namespace AlterCatalog

def Location.inspect (l : Location) : String :=
  "Location \x7b line: " ++ toString l.line ++ ", column: " ++ toString l.column ++ ", offset: " ++
    toString l.offset ++ " \x7d"

def Keyword.tag : Keyword → String
  | alter => "Alter"
  | catalog => "Catalog"
  | set => "Set"
  | reset => "Reset"
  | rename => "Rename"
  | to_ => "To"
  | comment => "Comment"
  | .true => "True"
  | .false => "False"
  | null => "Null"

def Symbol.tag : Symbol → String
  | leftParen => "LeftParen"
  | rightParen => "RightParen"
  | comma => "Comma"
  | equal => "Equal"
  | dot => "Dot"
  | semicolon => "Semicolon"

namespace Token

/-- The class of a token. -/
def tag : Token → String
  | keyword k => k.tag
  | symbol s => s.tag
  | string _ => "String"
  | integer _ => "Integer"
  | decimal _ => "Decimal"
  | identifier _ => "Identifier"
  | quotedIdentifier _ => "QuotedIdentifier"
  | endOfInput => "EOF"

def inspect (t : Token) : String :=
  match t with
  | string value => t.tag ++ "(" ++ Inspect.text value ++ ")"
  | integer value => t.tag ++ "(" ++ toString value.toInt ++ ")"
  | decimal text => t.tag ++ "(" ++ Inspect.text text ++ ")"
  | identifier name => t.tag ++ "(" ++ Inspect.text name ++ ")"
  | quotedIdentifier name => t.tag ++ "(" ++ Inspect.text name ++ ")"
  | _ => t.tag

end Token

namespace LexError

def tag (e : LexError) : String :=
  match e.fault with
  | .unterminatedString => "UnterminatedString"
  | .unterminatedIdentifier => "UnterminatedIdentifier"
  | .unterminatedComment => "UnterminatedComment"
  | .unexpectedCharacter _ => "UnexpectedCharacter"

def inspect (e : LexError) : String :=
  match e.fault with
  | .unexpectedCharacter c =>
    e.tag ++ " \x7b ch: " ++ Inspect.char c ++ ", location: " ++ e.location.inspect ++ " \x7d"
  | _ => e.tag ++ "(" ++ e.location.inspect ++ ")"

end LexError

end AlterCatalog
