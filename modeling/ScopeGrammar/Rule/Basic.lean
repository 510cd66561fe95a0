import ScopeGrammar.Table
import ScopeGrammar.Fragment.Basic

/-!
Rules of a grammar. A rule tags one match, or a region between two delimiters, or is a choice
between other rules. Children are given in place or by the name of a registered rule, so that a
region can stand among its own descendants.
-/

set_option autoImplicit false

namespace ScopeGrammar

/-- Scopes by the number of the group they tag; group 0 is the whole match. -/
abbrev Captures := Table Nat String

/-- Tags one contiguous match. -/
structure MatchRule where
  pattern : Fragment
  scope : Option String
  captures : Captures
  deriving DecidableEq, Inhabited

/-- The delimiters of a region and the scopes it gives. -/
structure Region where
  opening : Fragment
  closing : Fragment
  /-- Covers the delimiters too. -/
  scope : Option String
  /-- Covers what is between the delimiters. -/
  contentScope : Option String
  openingCaptures : Captures
  closingCaptures : Captures
  deriving DecidableEq, Inhabited

mutual

inductive Rule where
  | single (rule : MatchRule)
  | region (region : Region) (children : List Pattern)
  /-- The first alternative that applies. -/
  | anyOf (children : List Pattern)

inductive Pattern where
  | reference (name : String)
  | inline (rule : Rule)

end

/-- A construct that is named and not described yet; it matches nowhere. -/
def Rule.placeholder : Rule := .anyOf []

instance : Inhabited Rule := ⟨.placeholder⟩
instance : Inhabited Pattern := ⟨.inline .placeholder⟩

def Rule.isPlaceholder : Rule → Bool
  | .anyOf [] => true
  | _ => false

/-- The children in the order of their priority. -/
def Rule.children : Rule → List Pattern
  | .single _ => []
  | .region _ children | .anyOf children => children

def Pattern.reference? : Pattern → Option String
  | .reference name => some name
  | .inline _ => none

mutual

/-- The names that a rule refers to, at any depth of rules given in place. -/
def Rule.references : Rule → List String
  | .single _ => []
  | .region _ children => referencesOf children
  | .anyOf children => referencesOf children

def Pattern.references : Pattern → List String
  | .reference name => [name]
  | .inline rule => rule.references

def referencesOf : List Pattern → List String
  | [] => []
  | pattern :: rest => pattern.references ++ referencesOf rest

end

mutual

/-- The fragments that a rule searches for, at any depth of rules given in place. -/
def Rule.fragments : Rule → List Fragment
  | .single rule => [rule.pattern]
  | .region region children => region.opening :: region.closing :: fragmentsOf children
  | .anyOf children => fragmentsOf children

def Pattern.fragments : Pattern → List Fragment
  | .reference _ => []
  | .inline rule => rule.fragments

def fragmentsOf : List Pattern → List Fragment
  | [] => []
  | pattern :: rest => pattern.fragments ++ fragmentsOf rest

end

end ScopeGrammar
