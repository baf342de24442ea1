import AlterCatalog.Layout.Writer
import AlterCatalog.Proofs.Legible

/-!
# How a statement is spelled

The pieces that stand for a statement in a layout, at a depth of open lists. The grammar derives
the statement from their tokens (`statementOf_statement`), whatever the layout.
-/

namespace AlterCatalog

/-! ## Pieces of a layout -/

namespace Spelling

def space : Piece := ⟨[' '], none⟩

def symbol (s : Symbol) : Piece := ⟨[s.char], some (.symbol s)⟩

section
variable (l : Layout)

def lineStart (depth : Nat) : Piece := ⟨'\n' :: List.replicate (l.indent depth) ' ', none⟩

def keyword (k : Keyword) : Piece := ⟨(l.keywordCase.apply k.text).toList, some (.keyword k)⟩

def part (name : String) : Piece :=
  if l.quoteAll || !isRegularName name || isKeyword name then
    ⟨Quoted.enclose '\x60' name.toList, some (.quotedIdentifier name)⟩
  else ⟨name.toList, some (.identifier name)⟩

def name : List String → List Piece
  | [] => []
  | [p] => [part l p]
  | p :: ps => part l p :: symbol .dot :: name ps

def literal : LiteralValue → Piece
  | .text value => ⟨Quoted.enclose '\x27' value.toList, some (.string value)⟩
  | .integer value => ⟨(toString value.toInt).toList, some (.integer value)⟩
  | .decimal digits => ⟨digits.toList, some (.decimal digits)⟩
  | .boolean true => keyword l .true
  | .boolean false => keyword l .false
  | .null => keyword l .null

def key (k : Literal) : List Piece := [literal l k.value]

def setting (s : Setting) : List Piece :=
  [literal l s.key.value, space, symbol .equal, space, literal l s.value.value]

/-- What stands before the first item of a list. -/
def opening (depth : Nat) : List Piece := if l.pretty then [lineStart l (depth + 1)] else []

/-- What stands between two items. -/
def between (depth : Nat) : List Piece :=
  [symbol .comma, if l.pretty then lineStart l (depth + 1) else space]

/-- What stands before the end of a list, whether it has items or not. -/
def closing (depth : Nat) : List Piece := if l.pretty then [lineStart l depth] else []

def items (depth : Nat) : List (List Piece) → List Piece
  | [] => []
  | i :: is => opening l depth ++ (i ++ is.flatMap fun j => between l depth ++ j)

def listing (depth : Nat) (is : List (List Piece)) : List Piece :=
  symbol .leftParen :: (items l depth is ++ closing l depth ++ [symbol .rightParen])

def action (depth : Nat) : Action → List Piece
  | .set settings =>
    [keyword l .set, space] ++ listing l depth (settings.items.map (setting l))
  | .reset keys =>
    [keyword l .reset, space] ++ listing l depth (keys.items.map (key l))
  | .rename newName => [keyword l .rename, space, keyword l .to_, space] ++ name l newName.parts
  | .comment text => [keyword l .comment, space, literal l text.value]

def statement (depth : Nat) (s : Statement) : List Piece :=
  [keyword l .alter, space, keyword l .catalog, space] ++
    (name l s.catalog.parts ++ space :: action l depth s.action)

end

/-! ## Tokens of a phrase -/

section
open Grammar

theorem value_literal (l : Layout) (v : LiteralValue) :
    ∃ t, (literal l v).token = some t ∧ Value t v := by
  cases v with
  | text value => exact ⟨_, rfl, .text value⟩
  | integer value => exact ⟨_, rfl, .integer value⟩
  | decimal digits => exact ⟨_, rfl, .decimal digits⟩
  | boolean value =>
    cases value with
    | true => exact ⟨_, rfl, .yes⟩
    | false => exact ⟨_, rfl, .no⟩
  | null => exact ⟨_, rfl, .null⟩

theorem literalOf_key (l : Layout) (k : Literal) :
    LiteralOf ((key l k).filterMap Piece.token) k.bare := by
  obtain ⟨t, ht, hv⟩ := value_literal l k.value
  rw [key, List.filterMap_cons_some ht]
  exact .intro hv

theorem settingOf_setting (l : Layout) (s : Setting) :
    SettingOf ((setting l s).filterMap Piece.token) s.bare := by
  have h := SettingOf.intro (literalOf_key l s.key) (literalOf_key l s.value)
  rw [← List.filterMap_cons_some (f := Piece.token) (a := symbol .equal) rfl,
    ← List.filterMap_append] at h
  exact h

theorem part_token (l : Layout) (n : String) : ∃ t, (part l n).token = some t ∧ Part t n := by
  unfold part
  split
  · exact ⟨_, rfl, .delimited n⟩
  · exact ⟨_, rfl, .bare n⟩

theorem separated_name (l : Layout) : ∀ (parts : List String), parts ≠ [] →
    Separated .dot (fun ts part => ∃ t, ts = [t] ∧ Part t part)
      ((name l parts).filterMap Piece.token) parts
  | [p], _ => by
    obtain ⟨t, ht, hp⟩ := part_token l p
    rw [name, List.filterMap_cons_some ht]
    exact .one ⟨t, rfl, hp⟩
  | p :: q :: ps, _ => by
    obtain ⟨t, ht, hp⟩ := part_token l p
    have h := Separated.more ⟨t, rfl, hp⟩ (separated_name l (q :: ps) (by simp))
    simpa [name, ht, symbol] using h

theorem filterMap_between (l : Layout) (depth : Nat) :
    (between l depth).filterMap Piece.token = [.symbol .comma] := by
  unfold between
  split <;> rfl

theorem filterMap_opening (l : Layout) (depth : Nat) :
    (opening l depth).filterMap Piece.token = [] := by
  unfold opening
  split <;> rfl

theorem filterMap_closing (l : Layout) (depth : Nat) :
    (closing l depth).filterMap Piece.token = [] := by
  unfold closing
  split <;> rfl

section
variable {α : Type} {pieces : α → List Piece} {bare : α → α} {phrase : List Token → α → Prop}
  (h : ∀ a, phrase ((pieces a).filterMap Piece.token) (bare a))
include h

theorem separated_joined (l : Layout) (depth : Nat) : ∀ (a : α) (as : List α),
    Separated .comma phrase
      ((pieces a ++ (as.map pieces).flatMap fun j => between l depth ++ j).filterMap Piece.token)
      (bare a :: as.map bare)
  | a, [] => by simpa using Separated.one (h a)
  | a, b :: bs => by
    have hs := Separated.more (h a) (separated_joined l depth b bs)
    simpa [filterMap_between] using hs

theorem listed_listing (l : Layout) (depth : Nat) (as : Listing α) :
    Listed phrase ((listing l depth (as.items.map pieces)).filterMap Piece.token) (as.bare bare) := by
  obtain ⟨items, span⟩ := as
  cases items with
  | nil => simpa [listing, Spelling.items, filterMap_closing, symbol, Listing.bare] using Listed.none
  | cons a as =>
    have hs := Listed.some (separated_joined h l depth a as)
    simpa [listing, Spelling.items, filterMap_opening, filterMap_closing, symbol, Listing.bare] using hs

end

theorem actionOf_action (l : Layout) (depth : Nat) {a : Action}
    (hn : ∀ n, a = .rename n → n.parts ≠ []) :
    ActionOf ((action l depth a).filterMap Piece.token) a.bare := by
  cases a with
  | set settings => exact .set (listed_listing (settingOf_setting l) l depth settings)
  | reset keys => exact .reset (listed_listing (literalOf_key l) l depth keys)
  | rename newName => exact .rename (.intro (separated_name l _ (hn newName rfl)))
  | comment text => exact .comment (literalOf_key l text)

theorem statementOf_statement (l : Layout) (depth : Nat) {s : Statement} (h : s.Legible) :
    StatementOf ((statement l depth s).filterMap Piece.token) s.bare := by
  obtain ⟨hc, hn, -⟩ := Statement.legible_iff.1 h
  have hs := StatementOf.intro (.intro (separated_name l _ hc)) (actionOf_action l depth hn)
  simpa [statement, keyword, space, Statement.bare, Name.bare] using hs

end

end Spelling

end AlterCatalog
