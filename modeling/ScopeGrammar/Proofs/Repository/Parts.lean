import ScopeGrammar.Proofs.Table
import ScopeGrammar.Repository.Builder

set_option autoImplicit false

namespace ScopeGrammar

/-- A rule or reference of a grammar, and where it stands. -/
structure Part where
  site : Site
  pattern : Pattern

mutual

/-- A child, and all that is inside it. -/
def patternParts (site : Site) : Pattern → List Part
  | .reference name => [⟨site, .reference name⟩]
  | .inline rule => ⟨site, .inline rule⟩ :: insideParts site rule

def insideParts (site : Site) : Rule → List Part
  | .single _ => []
  | .region _ children => childParts site 0 children
  | .anyOf children => childParts site 0 children

def childParts (site : Site) (i : Nat) : List Pattern → List Part
  | [] => []
  | pattern :: rest => patternParts (site.child i) pattern ++ childParts site (i + 1) rest

end

/-- The entry patterns and the registered rules, each before what is inside it. -/
def parts (entry : List Pattern) (rules : Rules) : List Part :=
  childParts (.top .entry) 0 entry ++
    rules.entries.flatMap fun rule => patternParts (.top (.rule rule.1)) (.inline rule.2)

def Pattern.children : Pattern → List Pattern
  | .reference _ => []
  | .inline rule => rule.children

/-- What stands below a pattern, going down to a child at each level. -/
def Pattern.under (pattern : Pattern) : List Nat → Option Pattern
  | [] => some pattern
  | i :: path => pattern.children[i]?.bind fun child => child.under path

def patternAt? (entry : List Pattern) (rules : Rules) (site : Site) : Option Pattern :=
  match site.owner with
  | .entry => (Pattern.inline (.anyOf entry)).under site.path
  | .rule name => (rules.get? name).bind fun rule => (Pattern.inline rule).under site.path
  | .metadata | .setting | .search => none

/-- The part stands some way down from a site, at what the way leads to. -/
def Part.IsBelow (part : Part) (site : Site) (pattern : Pattern) : Prop :=
  ∃ path, part.site = ⟨site.owner, site.path ++ path⟩ ∧ pattern.under path = some part.pattern

theorem isBelow_child {part : Part} {site : Site} {pattern child : Pattern} {i : Nat}
    (is : pattern.children[i]? = some child) (below : part.IsBelow (site.child i) child) :
    part.IsBelow site pattern := by
  obtain ⟨path, same, leads⟩ := below
  refine ⟨i :: path, by simp [same, Site.child], ?_⟩
  rw [Pattern.under, is]
  exact leads

mutual

theorem patternParts_below (site : Site) (pattern : Pattern) :
    ∀ part ∈ patternParts site pattern, part.IsBelow site pattern :=
  match pattern with
  | .reference name => by
    intro part member
    rw [patternParts, List.mem_singleton] at member
    exact ⟨[], by simp [member], by simp [member, Pattern.under]⟩
  | .inline rule => by
    intro part member
    rw [patternParts, List.mem_cons] at member
    rcases member with rfl | inside
    · exact ⟨[], by simp, rfl⟩
    · exact insideParts_below site rule part inside

theorem insideParts_below (site : Site) (rule : Rule) :
    ∀ part ∈ insideParts site rule, part.IsBelow site (.inline rule) :=
  match rule with
  | .single rule => by simp [insideParts]
  | .region region children => by
    intro part member
    rw [insideParts] at member
    obtain ⟨i, child, is, below⟩ := childParts_below site 0 children part member
    rw [Nat.zero_add] at below
    exact isBelow_child is below
  | .anyOf children => by
    intro part member
    rw [insideParts] at member
    obtain ⟨i, child, is, below⟩ := childParts_below site 0 children part member
    rw [Nat.zero_add] at below
    exact isBelow_child is below

theorem childParts_below (site : Site) (start : Nat) (patterns : List Pattern) :
    ∀ part ∈ childParts site start patterns,
      ∃ i child, patterns[i]? = some child ∧ part.IsBelow (site.child (start + i)) child :=
  match patterns with
  | [] => by simp [childParts]
  | pattern :: rest => by
    intro part member
    rw [childParts, List.mem_append] at member
    rcases member with here | later
    · exact ⟨0, pattern, rfl, patternParts_below (site.child start) pattern part here⟩
    · obtain ⟨i, child, is, below⟩ := childParts_below site (start + 1) rest part later
      refine ⟨i + 1, child, by simpa using is, ?_⟩
      rwa [Nat.add_right_comm, Nat.add_assoc] at below

end

theorem patternAt?_of_mem_parts {entry : List Pattern} {rules : Rules} {part : Part}
    (member : part ∈ parts entry rules) :
    patternAt? entry rules part.site = some part.pattern := by
  rcases List.mem_append.1 member with inEntry | registered
  · obtain ⟨i, child, is, below⟩ := childParts_below _ 0 entry part inEntry
    rw [Nat.zero_add] at below
    have whole : part.IsBelow (.top .entry) (.inline (.anyOf entry)) := isBelow_child is below
    obtain ⟨path, same, leads⟩ := whole
    simpa [patternAt?, same, Site.top] using leads
  · obtain ⟨⟨name, rule⟩, there, inside⟩ := List.mem_flatMap.1 registered
    obtain ⟨path, same, leads⟩ := patternParts_below _ _ part inside
    have found : rules.get? name = some rule := Table.get?_eq_some_iff.2 there
    simpa [patternAt?, same, Site.top, found] using leads

theorem foldl_path (text : String) (path : List Nat) :
    path.foldl (fun text i => text ++ " > patterns[" ++ toString i ++ "]") text =
      " > ".intercalate (text :: path.map fun i => "patterns[" ++ toString i ++ "]") := by
  induction path generalizing text with
  | nil => simp
  | cons i path ih =>
    have cut : " > patterns[" = " > " ++ "patterns[" := rfl
    rw [List.foldl_cons, ih, List.map_cons, String.intercalate_cons_cons, cut]
    simp only [String.append_assoc, String.intercalate_cons_append]

theorem Site.text_eq_intercalate (site : Site) :
    site.text =
      " > ".intercalate (site.owner.text :: site.path.map fun i => "patterns[" ++ toString i ++ "]") :=
  foldl_path site.owner.text site.path

end ScopeGrammar
