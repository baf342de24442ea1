import AlterCatalog.Location
import AlterCatalog.Text

/-!
# Tokens

A word that spells a keyword in any letter case is that keyword; every other word is an
identifier. Each token shows itself as source text that reads as that token, apart from the end
of the input, which has none.
-/

namespace AlterCatalog

inductive Keyword where
  | alter | catalog | set | reset | rename | to_ | comment | true | false | null
deriving DecidableEq

namespace Keyword

def all : List Keyword := [alter, catalog, set, reset, rename, to_, comment, .true, .false, null]

def text : Keyword → String
  | alter => "ALTER"
  | catalog => "CATALOG"
  | set => "SET"
  | reset => "RESET"
  | rename => "RENAME"
  | to_ => "TO"
  | comment => "COMMENT"
  | .true => "TRUE"
  | .false => "FALSE"
  | null => "NULL"

/-- The keyword that a word spells; letter case does not count. -/
def ofWord? (word : List Char) : Option Keyword :=
  all.find? fun k => k.text.toList == word.map Char.toUpper

end Keyword

inductive Symbol where
  | leftParen | rightParen | comma | equal | dot | semicolon
deriving DecidableEq

namespace Symbol

def char : Symbol → Char
  | leftParen => '('
  | rightParen => ')'
  | comma => ','
  | equal => '='
  | dot => '.'
  | semicolon => ';'

def ofChar? (c : Char) : Option Symbol :=
  [leftParen, rightParen, comma, equal, dot, semicolon].find? fun s => s.char == c

end Symbol

inductive Token where
  | keyword (k : Keyword)
  | symbol (s : Symbol)
  | string (value : String)
  | integer (value : Int64)
  /-- A decimal number, kept as it was written. -/
  | decimal (text : String)
  | identifier (name : String)
  | quotedIdentifier (name : String)
  | endOfInput
deriving DecidableEq

namespace Token

def display : Token → String
  | keyword k => k.text
  | symbol s => String.singleton s.char
  | string value => Quoted.string value
  | integer value => toString value.toInt
  | decimal text => text
  | identifier name => name
  | quotedIdentifier name => Quoted.identifier name
  | endOfInput => "end of input"

end Token

/-- A token with the stretch of source it was read from. -/
structure Placed where
  token : Token
  span : Span
deriving DecidableEq

end AlterCatalog
