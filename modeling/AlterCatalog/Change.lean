import AlterCatalog.Change.Dictionary
import AlterCatalog.Statement

/-!
# Catalog changes

What a statement asks an executor to do, with literals resolved to texts and with keys in order:
two statements of one effect resolve to one change. A key that is not a text, like such a value or
comment, resolves to nothing.
-/

namespace AlterCatalog

inductive Effect where
  | resetProperties (keys : KeySet)
  | setProperties (properties : Dictionary String)
  | rename (newName : List String)
  | setComment (comment : String)
deriving DecidableEq

structure Change where
  catalog : List String
  effect : Effect
deriving DecidableEq

namespace Change

def operation (c : Change) : String :=
  match c.effect with
  | .resetProperties _ => "reset_properties"
  | .setProperties _ => "set_properties"
  | .rename _ => "rename"
  | .setComment _ => "set_comment"

def describe (c : Change) : String :=
  let catalog := ".".intercalate c.catalog
  match c.effect with
  | .resetProperties keys =>
    "reset [" ++ ", ".intercalate keys.keys ++ "] on catalog " ++ catalog
  | .setProperties properties =>
    "set [" ++ ", ".intercalate (properties.entries.map fun e => e.1 ++ "=" ++ e.2) ++
      "] on catalog " ++ catalog
  | .rename newName => "rename catalog " ++ catalog ++ " to " ++ ".".intercalate newName
  | .setComment comment => "comment on catalog " ++ catalog ++ ": " ++ comment

end Change

/-- The keys that a RESET list clears. -/
def resetKeys (keys : Listing Literal) : Except NodeError KeySet :=
  (keys.items.mapM Literal.asText).map KeySet.ofKeys

def Setting.entry (s : Setting) : Except NodeError (String × String) := do
  return (← s.key.asText, ← s.value.asText)

/-- The properties that a SET list sets; the last value of a key counts. -/
def setProperties (settings : Listing Setting) : Except NodeError (Dictionary String) :=
  (settings.items.mapM Setting.entry).map Dictionary.ofList

def Action.effect : Action → Except NodeError Effect
  | set settings => (setProperties settings).map .setProperties
  | reset keys => (resetKeys keys).map .resetProperties
  | rename newName => .ok (.rename newName.parts)
  | comment text => text.asText.map .setComment

def Statement.change (s : Statement) : Except NodeError Change :=
  s.action.effect.map fun effect => ⟨s.catalog.parts, effect⟩

end AlterCatalog
