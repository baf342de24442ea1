import AlterCatalog.Statement
import AlterCatalog.Text
import AlterCatalog.Text.Inspect

/-!
# Nodes of a statement

Any part of a statement seen as one type of node, with its children in the order of the source.
The walk meets every node before its children, together with its depth. The outline has one line for
each node of the walk, indented by two spaces for each level.
-/

namespace AlterCatalog

inductive Node where
  | statement (s : Statement)
  | name (n : Name)
  | literal (l : Literal)
  | keys (l : Listing Literal)
  | settings (l : Listing Setting)
  | setting (s : Setting)
deriving DecidableEq

def Action.operand : Action → Node
  | set settings => .settings settings
  | reset keys => .keys keys
  | rename newName => .name newName
  | comment text => .literal text

namespace Node

def children : Node → List Node
  | statement s => [.name s.catalog, s.action.operand]
  | name _ => []
  | literal _ => []
  | keys l => l.items.map .literal
  | settings l => l.items.map .setting
  | setting s => [.literal s.key, .literal s.value]

def span : Node → Span
  | statement s => s.span
  | name n => n.span
  | literal l => l.span
  | keys l => l.span
  | settings l => l.span
  | setting s => s.span

def label : Node → String
  | statement _ => "AlterCatalogStatement"
  | name _ => "Identifier"
  | literal _ => "Literal"
  | keys _ => "NodeList"
  | settings _ => "NodeList"
  | setting _ => "PropertyOption"

/-- How many levels a node can have below it. -/
def height : Node → Nat
  | statement _ => 3
  | settings _ => 2
  | keys _ => 1
  | setting _ => 1
  | name _ => 0
  | literal _ => 0

theorem height_lt_of_mem_children {n c : Node} (h : c ∈ n.children) : c.height < n.height := by
  cases n with
  | statement s =>
    obtain ⟨_, _, a⟩ := s
    cases a <;> simp only [children, Action.operand, List.mem_cons, List.not_mem_nil, or_false] at h
      <;> rcases h with rfl | rfl <;> simp [height]
  | name => cases h
  | literal => cases h
  | keys l =>
    obtain ⟨_, _, rfl⟩ := List.mem_map.1 h
    simp [height]
  | settings l =>
    obtain ⟨_, _, rfl⟩ := List.mem_map.1 h
    simp [height]
  | setting s =>
    simp only [children, List.mem_cons, List.not_mem_nil, or_false] at h
    rcases h with rfl | rfl <;> simp [height]

/-- The nodes from this one down, each before its children, with their depths. -/
def walkFrom (depth : Nat) (n : Node) : List (Node × Nat) :=
  (n, depth) :: n.children.attach.flatMap fun ⟨c, h⟩ =>
    have : c.height < n.height := height_lt_of_mem_children h
    c.walkFrom (depth + 1)
termination_by n.height

def walk (n : Node) : List (Node × Nat) := n.walkFrom 0

theorem walkFrom_eq (depth : Nat) (n : Node) :
    n.walkFrom depth = (n, depth) :: n.children.flatMap fun c => c.walkFrom (depth + 1) := by
  rw [walkFrom]
  simp [List.flatMap_subtype]

end Node

namespace Statement

def walk (s : Statement) : List (Node × Nat) := (Node.statement s).walk

/-- Every node of a statement, the statement itself first. -/
def nodes (s : Statement) : List Node := s.walk.map Prod.fst

end Statement

/-! ## The outline -/

def LiteralValue.inspect : LiteralValue → String
  | text value => "String(" ++ Inspect.text value ++ ")"
  | integer value => "Integer(" ++ toString value.toInt ++ ")"
  | decimal digits => "Decimal(" ++ Inspect.text digits ++ ")"
  | boolean true => "Boolean(true)"
  | boolean false => "Boolean(false)"
  | null => "Null"

def Node.describe : Node → String
  | statement s => "Alter Catalog " ++ s.kind.label ++ " Statement"
  | name n => "Identifier: " ++ n.text
  | literal l => "Literal (" ++ l.kind.label ++ "): " ++ l.value.inspect
  | keys l => "Literal List: " ++ toString l.items.length ++ " items"
  | settings l => "Option List: " ++ toString l.items.length ++ " items"
  | setting _ => "Property Option"

def Statement.outline (s : Statement) : List String :=
  s.walk.map fun (n, depth) => spaces (2 * depth) ++ n.describe

end AlterCatalog
