import AlterCatalog.Json.Record
import AlterCatalog.Statement

/-!
# Statements as JSON

A statement is a variant named for its kind, around a record of its span, its catalog and its
operand. Every node stands with its span, so reading what was written gives the tree back whole.
Objects are written with their keys in alphabetical order.
-/

namespace AlterCatalog

namespace Location

def toJson (l : Location) : Json :=
  .object [("column", .int l.column), ("line", .int l.line), ("offset", .int l.offset)]

def ofJson? (j : Json) : Option Location :=
  match j.record ["line", "column", "offset"] with
  | some [line, column, offset] => do
    return ⟨← line.asCount?, ← column.asCount?, ← offset.asCount?⟩
  | _ => none

end Location

namespace Span

def toJson (s : Span) : Json := .object [("end", s.finish.toJson), ("start", s.start.toJson)]

def ofJson? (j : Json) : Option Span :=
  match j.record ["start", "end"] with
  | some [start, finish] => do return ⟨← Location.ofJson? start, ← Location.ofJson? finish⟩
  | _ => none

end Span

namespace Name

def toJson (n : Name) : Json := .object [("names", .ofStrings n.parts), ("span", n.span.toJson)]

def ofJson? (j : Json) : Option Name :=
  match j.record ["names", "span"] with
  | some [parts, span] => do return ⟨← parts.asList? Json.asString?, ← Span.ofJson? span⟩
  | _ => none

end Name

namespace LiteralValue

def toJson : LiteralValue → Json
  | text value => .object [("String", .string value)]
  | integer value => .object [("Integer", .int value.toInt)]
  | decimal digits => .object [("Decimal", .string digits)]
  | boolean value => .object [("Boolean", .bool value)]
  | null => .string "Null"

def ofJson? (j : Json) : Option LiteralValue :=
  match j.variant with
  | some ("String", some content) => content.asString?.map text
  | some ("Integer", some content) => content.asInt64?.map integer
  | some ("Decimal", some content) => content.asString?.map decimal
  | some ("Boolean", some content) => content.asBool?.map boolean
  | some ("Null", none) => some null
  | some ("Null", some .null) => some null
  | _ => none

end LiteralValue

namespace Literal

def toJson (l : Literal) : Json := .object [("span", l.span.toJson), ("value", l.value.toJson)]

def ofJson? (j : Json) : Option Literal :=
  match j.record ["value", "span"] with
  | some [value, span] => do return ⟨← LiteralValue.ofJson? value, ← Span.ofJson? span⟩
  | _ => none

end Literal

namespace Listing

def toJson {α : Type} (item : α → Json) (l : Listing α) : Json :=
  .object [("items", .array (l.items.map item)), ("span", l.span.toJson)]

def ofJson? {α : Type} (item? : Json → Option α) (j : Json) : Option (Listing α) :=
  match j.record ["items", "span"] with
  | some [items, span] => do return ⟨← items.asList? item?, ← Span.ofJson? span⟩
  | _ => none

end Listing

namespace Setting

def toJson (s : Setting) : Json :=
  .object [("key", s.key.toJson), ("span", s.span.toJson), ("value", s.value.toJson)]

def ofJson? (j : Json) : Option Setting :=
  match j.record ["key", "value", "span"] with
  | some [key, value, span] => do
    return ⟨← Literal.ofJson? key, ← Literal.ofJson? value, ← Span.ofJson? span⟩
  | _ => none

end Setting

namespace Statement

def toJson (s : Statement) : Json :=
  match s.action with
  | .set settings => .object [("Set", .object [("catalog_name", s.catalog.toJson),
      ("property_list", settings.toJson Setting.toJson), ("span", s.span.toJson)])]
  | .reset keys => .object [("Reset", .object [("catalog_name", s.catalog.toJson),
      ("property_key_list", keys.toJson Literal.toJson), ("span", s.span.toJson)])]
  | .rename newName => .object [("Rename", .object [("catalog_name", s.catalog.toJson),
      ("new_name", newName.toJson), ("span", s.span.toJson)])]
  | .comment text => .object [("Comment", .object [("catalog_name", s.catalog.toJson),
      ("comment", text.toJson), ("span", s.span.toJson)])]

/-- A statement's record, in which the operand stands under its own key. -/
def ofRecord? (key : String) (action? : Json → Option Action) (j : Json) : Option Statement :=
  match j.record ["span", "catalog_name", key] with
  | some [span, catalog, operand] => do
    return ⟨← Span.ofJson? span, ← Name.ofJson? catalog, ← action? operand⟩
  | _ => none

def ofJson? (j : Json) : Option Statement :=
  match j.variant with
  | some ("Set", some content) =>
    ofRecord? "property_list" (fun j => (Listing.ofJson? Setting.ofJson? j).map .set) content
  | some ("Reset", some content) =>
    ofRecord? "property_key_list" (fun j => (Listing.ofJson? Literal.ofJson? j).map .reset) content
  | some ("Rename", some content) =>
    ofRecord? "new_name" (fun j => (Name.ofJson? j).map .rename) content
  | some ("Comment", some content) =>
    ofRecord? "comment" (fun j => (Literal.ofJson? j).map .comment) content
  | _ => none

end Statement

end AlterCatalog
