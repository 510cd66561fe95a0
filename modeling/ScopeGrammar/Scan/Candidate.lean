import ScopeGrammar.Repository.Builder

/-!
The rules that can apply at a place: a list of children with every choice replaced by its
alternatives and every reference by the rule it names. A reference that is already being followed
gives nothing, which ends every cycle of choices.
-/

set_option autoImplicit false

namespace ScopeGrammar.Scan

inductive Leaf where
  | single (rule : MatchRule)
  /-- A region, known by its site: regions at two sites are two, however alike. -/
  | region (site : Site) (region : Region) (children : List Pattern)

/-- A rule that can apply, and the names of the rules followed to get to it. -/
structure Candidate where
  leaf : Leaf
  names : List String

def Leaf.pattern : Leaf → Fragment
  | .single rule => rule.pattern
  | .region _ delimiters _ => delimiters.opening

mutual

/-- What a rule at a site stands for, having been reached through the `names`. -/
def expandRule (follow : List String → String → List Candidate) (names : List String)
    (site : Site) : Rule → List Candidate
  | .single rule => [⟨.single rule, names⟩]
  | .region region children => [⟨.region site region children, names⟩]
  | .anyOf children => expandPatterns follow names site 0 children

def expandPattern (follow : List String → String → List Candidate) (names : List String)
    (site : Site) : Pattern → List Candidate
  | .reference name => follow names name
  | .inline rule => expandRule follow names site rule

def expandPatterns (follow : List String → String → List Candidate) (names : List String)
    (site : Site) (i : Nat) : List Pattern → List Candidate
  | [] => []
  | pattern :: rest =>
    expandPattern follow names (site.child i) pattern ++
      expandPatterns follow names site (i + 1) rest

end

/-- What a reference stands for. The names being followed are different registered ones, so that
the number of rules bounds their number. -/
def followReference (rules : Rules) : (room : Nat) → List String → String → List Candidate
  | 0, _, _ => []
  | room + 1, names, name =>
    if names.contains name then []
    else
      match rules.get? name with
      | none => []
      | some rule =>
        expandRule (followReference rules room) (names ++ [name]) (.top (.rule name)) rule

def candidates (rules : Rules) (site : Site) (children : List Pattern) : List Candidate :=
  expandPatterns (followReference rules rules.size) [] site 0 children

end ScopeGrammar.Scan
