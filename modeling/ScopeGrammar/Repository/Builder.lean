import ScopeGrammar.Regex.Matching
import ScopeGrammar.Repository.Defect
import ScopeGrammar.Rule.Basic
import ScopeGrammar.Text.Basic

/-!
Registering rules by name and checking them as a whole. The checks go through the entry patterns
and then the rules in the order of their names, and stop at the first defect. A scope is one or more
scope names with one blank between each two.
-/

set_option autoImplicit false

namespace ScopeGrammar

def isScopeLetter (c : Char) : Bool :=
  c.isAlphanum || c == '_' || c == '+' || c == '-'

def isScopeName (cs : List Char) : Bool :=
  (Text.splitAt '.' cs).all fun part => part ≠ [] && part.all isScopeLetter

def isScope (s : String) : Bool := (Text.splitAt ' ' (Text.characters s)).all isScopeName

def isRuleName (s : String) : Bool :=
  match s.toList with
  | [] => false
  | c :: rest => (c.isAlpha || c == '_') && rest.all fun c => c.isAlphanum || c == '_'

structure Metadata where
  name : String
  /-- The scope of everything the grammar is applied to. -/
  scopeName : String
  /-- The ends of the names of files that the grammar is for. -/
  fileTypes : List String
  deriving DecidableEq, Repr, Inhabited

abbrev Rules := Table String Rule

/-- Rules that have been registered and not yet checked. -/
structure Builder where
  metadata : Metadata
  rules : Rules

/-- Rules that have been checked, and the patterns that a scan starts with. -/
structure Repository where
  metadata : Metadata
  entry : List Pattern
  rules : Rules

namespace Builder

def new (metadata : Metadata) : Builder := ⟨metadata, .empty⟩

def contains (b : Builder) (name : String) : Bool := b.rules.contains name

/-- Register a rule: the builder that the call leaves behind, and what it fails with. -/
def tryRegister (b : Builder) (name : String) (rule : Rule) : Builder × Option Defect :=
  if !isRuleName name then (b, some (.badRuleName name))
  else if b.contains name then (b, some (.repeatedRule name))
  else ({ b with rules := b.rules.insert name rule }, none)

def register (b : Builder) (name : String) (rule : Rule) : Except Defect Builder :=
  match b.tryRegister name rule with
  | (after, none) => .ok after
  | (_, some defect) => .error defect

/-- Register one rule after the other, up to the first that cannot be registered. -/
def registerAll (b : Builder) : List (String × Rule) → Builder × Option Defect
  | [] => (b, none)
  | (name, rule) :: rest =>
    match b.tryRegister name rule with
    | (after, none) => after.registerAll rest
    | (after, some defect) => (after, some defect)

end Builder

def checkScope (site : Site) : Option String → Except Defect Unit
  | none => .ok ()
  | some scope => if isScope scope then .ok () else .error (.badScope site scope)

/-- The number of groups of a pattern, which must not be empty and must be readable. -/
def checkPattern (site : Site) (field : Field) (f : Fragment) : Except Defect Nat :=
  if f.isEmpty then .error (.emptyPattern site field)
  else
    match Regex.read f.source with
    | .ok regex => .ok regex.groups
    | .error _ => .error (.badPattern site field)

/-- Every capture must tag a group that there is with a well-formed scope. -/
def checkCaptures (site : Site) (field : Field) (groups : Nat) :
    List (Nat × String) → Except Defect Unit
  | [] => .ok ()
  | (index, scope) :: rest =>
    if groups < index then .error (.captureOutOfRange site field index groups)
    else do
      checkScope site (some scope)
      checkCaptures site field groups rest

mutual

/-- Check the rule at a site; `known` tells the names of the registered rules. -/
def Rule.check (known : String → Bool) (site : Site) : Rule → Except Defect Unit
  | .single rule => do
    let groups ← checkPattern site .whole rule.pattern
    checkCaptures site .whole groups rule.captures.entries
    checkScope site rule.scope
  | .region region children => do
    let openingGroups ← checkPattern site .opening region.opening
    let closingGroups ← checkPattern site .closing region.closing
    checkCaptures site .opening openingGroups region.openingCaptures.entries
    checkCaptures site .closing closingGroups region.closingCaptures.entries
    checkScope site region.scope
    checkScope site region.contentScope
    checkPatterns known site 0 children
  | .anyOf children => checkPatterns known site 0 children

def Pattern.check (known : String → Bool) (site : Site) : Pattern → Except Defect Unit
  | .reference name => if known name then .ok () else .error (.unresolved site name)
  | .inline rule => rule.check known site

def checkPatterns (known : String → Bool) (site : Site) (i : Nat) :
    List Pattern → Except Defect Unit
  | [] => .ok ()
  | pattern :: rest => do
    pattern.check known (site.child i)
    checkPatterns known site (i + 1) rest

end

def checkRules (known : String → Bool) : List (String × Rule) → Except Defect Unit
  | [] => .ok ()
  | (name, rule) :: rest => do
    rule.check known (.top (.rule name))
    checkRules known rest

/-- Check everything and freeze it, with `entry` as the patterns a scan starts with. -/
def Builder.build (b : Builder) (entry : List Pattern) : Except Defect Repository :=
  if entry.isEmpty then .error .emptyEntry
  else do
    checkScope (.top .metadata) (some b.metadata.scopeName)
    checkPatterns b.contains (.top .entry) 0 entry
    checkRules b.contains b.rules.entries
    return ⟨b.metadata, entry, b.rules⟩

namespace Repository

def get? (r : Repository) (name : String) : Option Rule := r.rules.get? name

def names (r : Repository) : List String := r.rules.keys

def size (r : Repository) : Nat := r.rules.size

def placeholders (r : Repository) : List String :=
  (r.rules.entries.filter fun entry => entry.2.isPlaceholder).map (·.1)

def fragments (r : Repository) : List Fragment :=
  fragmentsOf r.entry ++ r.rules.entries.flatMap fun entry => entry.2.fragments

end Repository

end ScopeGrammar
