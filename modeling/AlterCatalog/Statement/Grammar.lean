import AlterCatalog.Statement
import AlterCatalog.Token

/-!
# The grammar of statements

Which token sequences stand for which trees, said without a reader. Trees stand here without
spans. A name is its parts with dots between them; a listing is its items with commas between them,
in parentheses, and may be empty. A sentence is a statement up to the end of the input.
-/

namespace AlterCatalog.Grammar

inductive Part : Token → String → Prop
  | bare (name : String) : Part (.identifier name) name
  | delimited (name : String) : Part (.quotedIdentifier name) name

inductive Value : Token → LiteralValue → Prop
  | text (value : String) : Value (.string value) (.text value)
  | integer (value : Int64) : Value (.integer value) (.integer value)
  | decimal (digits : String) : Value (.decimal digits) (.decimal digits)
  | yes : Value (.keyword .true) (.boolean true)
  | no : Value (.keyword .false) (.boolean false)
  | null : Value (.keyword .null) .null

/-- One or more items with a separator between any two. -/
inductive Separated {α : Type} (separator : Symbol) (item : List Token → α → Prop) :
    List Token → List α → Prop
  | one {ts : List Token} {a : α} : item ts a → Separated separator item ts [a]
  | more {ts rest : List Token} {a : α} {as : List α} : item ts a →
      Separated separator item rest as →
      Separated separator item (ts ++ .symbol separator :: rest) (a :: as)

/-- Items in parentheses with commas between them, or none. -/
inductive Listed {α : Type} (item : List Token → α → Prop) : List Token → Listing α → Prop
  | none : Listed item [.symbol .leftParen, .symbol .rightParen] ⟨[], {}⟩
  | some {ts : List Token} {as : List α} : Separated .comma item ts as →
      Listed item (.symbol .leftParen :: (ts ++ [.symbol .rightParen])) ⟨as, {}⟩

inductive NameOf : List Token → Name → Prop
  | intro {ts : List Token} {parts : List String} :
      Separated .dot (fun ts part => ∃ t, ts = [t] ∧ Part t part) ts parts → NameOf ts ⟨parts, {}⟩

inductive LiteralOf : List Token → Literal → Prop
  | intro {t : Token} {v : LiteralValue} : Value t v → LiteralOf [t] ⟨v, {}⟩

inductive SettingOf : List Token → Setting → Prop
  | intro {k v : List Token} {key value : Literal} : LiteralOf k key → LiteralOf v value →
      SettingOf (k ++ .symbol .equal :: v) ⟨key, value, {}⟩

inductive ActionOf : List Token → Action → Prop
  | set {ts : List Token} {l : Listing Setting} : Listed SettingOf ts l →
      ActionOf (.keyword .set :: ts) (.set l)
  | reset {ts : List Token} {l : Listing Literal} : Listed LiteralOf ts l →
      ActionOf (.keyword .reset :: ts) (.reset l)
  | rename {ts : List Token} {n : Name} : NameOf ts n →
      ActionOf (.keyword .rename :: .keyword .to_ :: ts) (.rename n)
  | comment {ts : List Token} {l : Literal} : LiteralOf ts l →
      ActionOf (.keyword .comment :: ts) (.comment l)

/-- The tokens of a statement. -/
inductive StatementOf : List Token → Statement → Prop
  | intro {ts us : List Token} {n : Name} {a : Action} : NameOf ts n → ActionOf us a →
      StatementOf (.keyword .alter :: .keyword .catalog :: (ts ++ us)) ⟨{}, n, a⟩

/-- A statement with at most one semicolon after it. -/
inductive Sentence : List Token → Statement → Prop
  | plain {ts : List Token} {s : Statement} : StatementOf ts s → Sentence (ts ++ [.endOfInput]) s
  | closed {ts : List Token} {s : Statement} : StatementOf ts s →
      Sentence (ts ++ [.symbol .semicolon, .endOfInput]) s

end AlterCatalog.Grammar
