import AlterCatalog.Json.Reader
import AlterCatalog.Json.Record
import AlterCatalog.Layout

/-!
# Layouts as JSON

A record whose fields may all be missing; a missing one takes its default.
-/

namespace AlterCatalog

namespace KeywordCase

def toJson : KeywordCase → Json
  | upper => .string "upper"
  | lower => .string "lower"

def ofJson? (j : Json) : Option KeywordCase :=
  match j.variant with
  | some ("upper", none) | some ("upper", some .null) => some upper
  | some ("lower", none) | some ("lower", some .null) => some lower
  | _ => none

end KeywordCase

namespace Layout

def toJson (l : Layout) : Json :=
  .object [("indent_width", .int l.indentWidth.toNat), ("keyword_case", l.keywordCase.toJson),
    ("pretty", .bool l.pretty), ("quote_all_identifiers", .bool l.quoteAll)]

/-- The value of a field, or the default where the field is missing. -/
def fieldOr {α : Type} (default : α) (read : Json → Option α) : Option Json → Option α
  | none => some default
  | some j => read j

def ofJson? (j : Json) : Option Layout :=
  match j.partialRecord ["pretty", "indent_width", "keyword_case", "quote_all_identifiers"] with
  | some [pretty, indentWidth, keywordCase, quoteAll] => do
    let default : Layout := {}
    return {
      pretty := ← fieldOr default.pretty Json.asBool? pretty
      indentWidth := ← fieldOr default.indentWidth Json.asUInt64? indentWidth
      keywordCase := ← fieldOr default.keywordCase KeywordCase.ofJson? keywordCase
      quoteAll := ← fieldOr default.quoteAll Json.asBool? quoteAll }
  | _ => none

/-- Reads a layout from JSON text. -/
def parse? (text : String) : Option Layout := (Json.parse? text).bind ofJson?

end Layout

end AlterCatalog
