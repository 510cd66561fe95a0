import ScopeGrammar.Decimal.Shortest
import ScopeGrammar.Settings.KeyPath
import ScopeGrammar.Table

set_option autoImplicit false

namespace ScopeGrammar.Settings

inductive Value where
  | nil
  | bool (b : Bool)
  | int (n : Int)
  | float (x : Binary64)
  | text (s : String)
  | list (items : List Value)
  | table (entries : List (String × Value))

namespace Value

instance : Inhabited Value := ⟨.nil⟩

abbrev Entries := List (String × Value)

def entries : Option Value → Entries
  | some (.table entries) => entries
  | _ => []

def items : Option Value → List Value
  | some (.list items) => items
  | _ => []

mutual

/-- A value on top of what stands at its place. The entries of a table are put on top of those that
are there; any other value takes the place. A table without entries changes nothing. -/
def onto : Value → Option Value → Value
  | .table new, old =>
    if new.isEmpty then old.getD (.table []) else .table (ontoEntries new (entries old))
  | value, _ => value

def ontoEntries : Entries → Entries → Entries
  | [], old => old
  | (key, value) :: rest, old =>
    let name := foldKey key
    ontoEntries rest (Table.insertEntry name (value.onto (old.lookup name)) old)

end

/-- The place of a position in a list of a length; positions before the start are the start. -/
def place (length : Nat) (position : Int) : Nat :=
  if position < 0 then length - position.natAbs else position.natAbs

/-- The list with an item replaced at a place, and missing places in front of it filled. -/
def replaceItem (items : List Value) (i : Nat) (value : Value) : List Value :=
  (items ++ List.replicate (i + 1 - items.length) Value.nil).set i value

/-- A value put at the end of a path down from a place. What is not a table or not a list on the way
becomes one. An item of a list is replaced. -/
def put (value : Value) : List Step → Option Value → Value
  | [], old => value.onto old
  | .field name :: rest, old =>
    let there := entries old
    .table (Table.insertEntry name (value.put rest (there.lookup name)) there)
  | [.item position], old =>
    let there := items old
    .list (replaceItem there (place there.length position) value)
  | .item position :: rest, old =>
    let there := items old
    let i := place there.length position
    .list (replaceItem there i (value.put rest there[i]?))

def putAt (value : Value) (p : KeyPath) (there : Entries) : Entries :=
  Table.insertEntry p.root (value.put p.steps (there.lookup p.root)) there

end Value

end ScopeGrammar.Settings
