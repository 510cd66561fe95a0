import ScopeGrammar.Repository.Builder

/-!
The record that a highlighting host reads: a grammar with its rules under the host's field names. A
rule becomes an item with the fields it has, a reference an item with the name behind a `#`.
-/

set_option autoImplicit false

namespace ScopeGrammar

namespace Artifact

/-- The fields of an item apart from its children; those of a rule that has no such part are absent. -/
structure Fields where
  reference : Option String := none
  name : Option String := none
  contentName : Option String := none
  pattern : Option String := none
  captures : Option Captures := none
  opening : Option String := none
  openingCaptures : Option Captures := none
  closing : Option String := none
  closingCaptures : Option Captures := none
  deriving DecidableEq, Inhabited

inductive Item where
  | leaf (fields : Fields)
  /-- With a list of children, which may be empty. -/
  | nest (fields : Fields) (children : List Item)
  deriving Inhabited

namespace Item

def fields : Item → Fields
  | .leaf fields | .nest fields _ => fields

def children? : Item → Option (List Item)
  | .leaf _ => none
  | .nest _ children => some children

def ofParts (fields : Fields) : Option (List Item) → Item
  | none => .leaf fields
  | some children => .nest fields children

@[simp] theorem ofParts_fields_children? (item : Item) :
    ofParts item.fields item.children? = item := by
  cases item <;> rfl

end Item

end Artifact

structure Artifact where
  name : String
  scopeName : String
  fileTypes : List String
  patterns : List Artifact.Item
  repository : Table String Artifact.Item

inductive Format where
  | json
  | yaml
  deriving DecidableEq, Repr, Inhabited

/-- What replaces the metadata of a grammar. -/
structure Overrides where
  name : Option String
  scopeName : Option String
  fileTypes : Option (List String)
  deriving DecidableEq, Repr, Inhabited

structure Settings where
  format : Format
  pretty : Bool
  overrides : Overrides
  deriving DecidableEq, Repr, Inhabited

namespace Artifact

def tags (captures : Captures) : Option Captures :=
  if captures.isEmpty then none else some captures

mutual

/-- The item of a rule. A region without children has no list of them, a choice always has one. -/
def Item.ofRule : Rule → Item
  | .single rule =>
    .leaf { name := rule.scope, pattern := rule.pattern.toString, captures := tags rule.captures }
  | .region region children =>
    let fields : Fields :=
      { name := region.scope
        contentName := region.contentScope
        opening := region.opening.toString
        openingCaptures := tags region.openingCaptures
        closing := region.closing.toString
        closingCaptures := tags region.closingCaptures }
    match children with
    | [] => .leaf fields
    | child :: rest => .nest fields (Item.ofPattern child :: Item.ofPatterns rest)
  | .anyOf children => .nest {} (Item.ofPatterns children)

def Item.ofPattern : Pattern → Item
  | .reference name => .leaf { reference := "#" ++ name }
  | .inline rule => Item.ofRule rule

def Item.ofPatterns : List Pattern → List Item
  | [] => []
  | pattern :: rest => Item.ofPattern pattern :: Item.ofPatterns rest

end

end Artifact

end ScopeGrammar
