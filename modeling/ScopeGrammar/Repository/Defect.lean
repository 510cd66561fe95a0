import ScopeGrammar.Text.Quoted

set_option autoImplicit false

namespace ScopeGrammar

/-- What a place in a grammar belongs to. -/
inductive Owner where
  | metadata
  | entry
  | rule (name : String)
  /-- The scope name that the settings put in the place of the grammar's own. -/
  | setting
  /-- A search in a text, which does not know what it searches for. -/
  | search
  deriving DecidableEq, Repr

/-- A rule or reference of a grammar: from its owner down, the index of a child at each level. -/
structure Site where
  owner : Owner
  path : List Nat
  deriving DecidableEq, Repr

def Owner.text : Owner → String
  | .metadata => "metadata"
  | .entry => "patterns"
  | .rule name => name
  | .setting => "metadata.scope_name"
  | .search => "scanner"

namespace Site

def top (owner : Owner) : Site := ⟨owner, []⟩

def child (s : Site) (i : Nat) : Site := { s with path := s.path ++ [i] }

def text (s : Site) : String :=
  s.path.foldl (fun text i => text ++ " > patterns[" ++ toString i ++ "]") s.owner.text

end Site

inductive Field where
  | whole
  | opening
  | closing
  deriving DecidableEq, Repr

def Field.patternText : Field → String
  | .whole => "match"
  | .opening => "begin"
  | .closing => "end"

def Field.capturesText : Field → String
  | .whole => "captures"
  | .opening => "beginCaptures"
  | .closing => "endCaptures"

inductive Defect where
  | repeatedRule (name : String)
  | badRuleName (name : String)
  | unresolved (site : Site) (name : String)
  | captureOutOfRange (site : Site) (field : Field) (index groups : Nat)
  | emptyPattern (site : Site) (field : Field)
  | badPattern (site : Site) (field : Field)
  | badScope (site : Site) (scope : String)
  | emptyEntry
  deriving DecidableEq, Repr

def Defect.message : Defect → String
  | .repeatedRule name => "rule registered twice: " ++ name
  | .badRuleName name => "invalid rule name: " ++ Text.quote name
  | .unresolved site name => site.text ++ ": reference to unknown rule #" ++ name
  | .captureOutOfRange site field index groups =>
    site.text ++ ": " ++ field.capturesText ++ " tags group " ++ toString index ++
      " but the pattern has " ++ toString groups ++ " capture group(s)"
  | .emptyPattern site field =>
    site.text ++ ": invalid " ++ field.patternText ++ " pattern: empty pattern"
  | .badPattern site field => site.text ++ ": invalid " ++ field.patternText ++ " pattern"
  | .badScope site scope => site.text ++ ": invalid scope name " ++ Text.quote scope
  | .emptyEntry => "grammar has no entry patterns"

end ScopeGrammar
