import ScopeGrammar.Proofs.Repository.Parts
import ScopeGrammar.Scan.Line

set_option autoImplicit false

namespace ScopeGrammar.Scan

def leafOf? (part : Part) : Option Leaf :=
  match part.pattern with
  | .inline (.single rule) => some (.single rule)
  | .inline (.region region children) => some (.region part.site region children)
  | .inline (.anyOf _) | .reference _ => none

/-- The leaves of what stands at a site. -/
def patternLeaves (site : Site) (pattern : Pattern) : List Leaf :=
  (patternParts site pattern).filterMap leafOf?

/-- The leaves of the children of a site, from the `i`th child on. -/
def childLeaves (site : Site) (i : Nat) (children : List Pattern) : List Leaf :=
  (childParts site i children).filterMap leafOf?

/-- The leaves of the entry patterns and of the registered rules. -/
def leaves (r : Repository) : List Leaf := (parts r.entry r.rules).filterMap leafOf?

@[simp] theorem patternLeaves_reference (site : Site) (name : String) :
    patternLeaves site (.reference name) = [] := rfl

@[simp] theorem patternLeaves_single (site : Site) (rule : MatchRule) :
    patternLeaves site (.inline (.single rule)) = [.single rule] := rfl

@[simp] theorem patternLeaves_region (site : Site) (region : Region) (children : List Pattern) :
    patternLeaves site (.inline (.region region children)) =
      .region site region children :: childLeaves site 0 children := rfl

@[simp] theorem patternLeaves_anyOf (site : Site) (children : List Pattern) :
    patternLeaves site (.inline (.anyOf children)) = childLeaves site 0 children := rfl

@[simp] theorem childLeaves_nil (site : Site) (i : Nat) : childLeaves site i [] = [] := rfl

@[simp] theorem childLeaves_cons (site : Site) (i : Nat) (pattern : Pattern)
    (rest : List Pattern) :
    childLeaves site i (pattern :: rest) =
      patternLeaves (site.child i) pattern ++ childLeaves site (i + 1) rest := by
  simp [childLeaves, patternLeaves, childParts]

theorem leaves_eq (r : Repository) :
    leaves r = childLeaves (.top .entry) 0 r.entry ++
      r.rules.entries.flatMap fun entry => patternLeaves (.top (.rule entry.1)) (.inline entry.2) := by
  simp [leaves, parts, childLeaves, patternLeaves, List.filterMap_append, List.filterMap_flatMap]

def Leaf.fragments : Leaf → List Fragment
  | .single rule => [rule.pattern]
  | .region _ delimiters _ => [delimiters.opening, delimiters.closing]

theorem Leaf.pattern_mem_fragments (leaf : Leaf) : leaf.pattern ∈ leaf.fragments := by
  cases leaf <;> simp [Leaf.pattern, Leaf.fragments]

def Frame.leaf (frame : Frame) : Leaf := .region frame.site frame.region frame.children

variable {r : Repository}

theorem patternLeaves_subset {name : String} {rule : Rule}
    (registered : r.rules.get? name = some rule) :
    patternLeaves (.top (.rule name)) (.inline rule) ⊆ leaves r := by
  intro leaf member
  rw [leaves_eq]
  exact List.mem_append_right _
    (List.mem_flatMap.2 ⟨(name, rule), Table.mem_entries_of_get? registered, member⟩)

/-- Following references leads to the given leaves alone. -/
def LeadsTo (all : List Leaf) (follow : List String → String → List Candidate) : Prop :=
  ∀ names name, ∀ c ∈ follow names name, c.leaf ∈ all

section

variable {follow : List String → String → List Candidate} {all : List Leaf}

mutual

theorem expandRule_leaf (known : LeadsTo all follow) (names : List String) (site : Site)
    (rule : Rule) (inside : patternLeaves site (.inline rule) ⊆ all) :
    ∀ c ∈ expandRule follow names site rule, c.leaf ∈ all :=
  match rule with
  | .single rule => by
    intro c member
    rw [expandRule, List.mem_singleton] at member
    exact member ▸ inside (by simp)
  | .region region children => by
    intro c member
    rw [expandRule, List.mem_singleton] at member
    exact member ▸ inside (by simp)
  | .anyOf children => by
    intro c member
    rw [expandRule] at member
    exact expandPatterns_leaf known names site 0 children inside c member

theorem expandPattern_leaf (known : LeadsTo all follow) (names : List String) (site : Site)
    (pattern : Pattern) (inside : patternLeaves site pattern ⊆ all) :
    ∀ c ∈ expandPattern follow names site pattern, c.leaf ∈ all :=
  match pattern with
  | .reference name => by
    intro c member
    rw [expandPattern] at member
    exact known names name c member
  | .inline rule => by
    intro c member
    rw [expandPattern] at member
    exact expandRule_leaf known names site rule inside c member

theorem expandPatterns_leaf (known : LeadsTo all follow) (names : List String) (site : Site)
    (i : Nat) (children : List Pattern) (inside : childLeaves site i children ⊆ all) :
    ∀ c ∈ expandPatterns follow names site i children, c.leaf ∈ all :=
  match children with
  | [] => by simp [expandPatterns]
  | pattern :: rest => by
    intro c member
    rw [childLeaves_cons, List.append_subset] at inside
    rw [expandPatterns, List.mem_append] at member
    rcases member with here | later
    · exact expandPattern_leaf known names (site.child i) pattern inside.1 c here
    · exact expandPatterns_leaf known names site (i + 1) rest inside.2 c later

end

end

theorem mem_followReference {rules : Rules} {room : Nat} {names : List String} {name : String}
    {c : Candidate} :
    c ∈ followReference rules (room + 1) names name ↔
      name ∉ names ∧ ∃ rule, rules.get? name = some rule ∧
        c ∈ expandRule (followReference rules room) (names ++ [name]) (.top (.rule name)) rule := by
  rw [followReference]
  by_cases followed : name ∈ names
  · simp [followed]
  · cases rules.get? name <;> simp [followed]

theorem followReference_leaf (room : Nat) :
    LeadsTo (leaves r) (followReference r.rules room) := by
  induction room with
  | zero => simp [LeadsTo, followReference]
  | succ room ih =>
    intro names name c member
    obtain ⟨-, rule, registered, inside⟩ := mem_followReference.1 member
    exact expandRule_leaf ih _ _ rule (patternLeaves_subset registered) c inside

theorem candidates_leaf {site : Site} {children : List Pattern}
    (inside : childLeaves site 0 children ⊆ leaves r) :
    ∀ c ∈ candidates r.rules site children, c.leaf ∈ leaves r :=
  expandPatterns_leaf (followReference_leaf _) [] site 0 children inside

mutual

theorem patternLeaves_children {site at' : Site} {region : Region} {children : List Pattern}
    (pattern : Pattern) (member : .region at' region children ∈ patternLeaves site pattern) :
    childLeaves at' 0 children ⊆ patternLeaves site pattern :=
  match pattern with
  | .reference _ => by simp at member
  | .inline (.single _) => by simp at member
  | .inline (.region region' children') => by
    rw [patternLeaves_region, List.mem_cons] at member
    rw [patternLeaves_region]
    rcases member with same | deeper
    · cases same
      exact List.subset_cons_self _ _
    · exact List.Subset.trans (childLeaves_children 0 children' deeper) (List.subset_cons_self _ _)
  | .inline (.anyOf children') => by
    rw [patternLeaves_anyOf] at member ⊢
    exact childLeaves_children 0 children' member

theorem childLeaves_children {site at' : Site} {region : Region} {children : List Pattern}
    (i : Nat) (patterns : List Pattern)
    (member : .region at' region children ∈ childLeaves site i patterns) :
    childLeaves at' 0 children ⊆ childLeaves site i patterns :=
  match patterns with
  | [] => by simp at member
  | pattern :: rest => by
    rw [childLeaves_cons, List.mem_append] at member
    rw [childLeaves_cons]
    rcases member with here | later
    · exact List.subset_append_of_subset_left _ (patternLeaves_children pattern here)
    · exact List.subset_append_of_subset_right _ (childLeaves_children (i + 1) rest later)

end

theorem childLeaves_subset {site : Site} {region : Region} {children : List Pattern}
    (member : .region site region children ∈ leaves r) : childLeaves site 0 children ⊆ leaves r := by
  rw [leaves_eq] at member ⊢
  rcases List.mem_append.1 member with entry | registered
  · exact List.subset_append_of_subset_left _ (childLeaves_children 0 _ entry)
  · obtain ⟨⟨name, rule⟩, there, deeper⟩ := List.mem_flatMap.1 registered
    intro leaf below
    refine List.mem_append_right _ (List.mem_flatMap.2 ⟨(name, rule), there, ?_⟩)
    exact patternLeaves_children (.inline rule) deeper below

/-- Regions are told apart by their sites. -/
theorem region_unique {site : Site} {region region' : Region} {children children' : List Pattern}
    (member : .region site region children ∈ leaves r)
    (member' : .region site region' children' ∈ leaves r) :
    region = region' ∧ children = children' := by
  have stands {region : Region} {children : List Pattern}
      (member : .region site region children ∈ leaves r) :
      patternAt? r.entry r.rules site = some (.inline (.region region children)) := by
    obtain ⟨⟨site', pattern⟩, there, is⟩ := List.mem_filterMap.1 member
    have found := patternAt?_of_mem_parts there
    unfold leafOf? at is
    split at is
    · simp at is
    · rename_i same
      simp only [Option.some.injEq, Leaf.region.injEq] at is same
      obtain ⟨rfl, rfl, rfl⟩ := is
      rw [found, same]
    · simp at is
    · simp at is
  have same := (stands member).symm.trans (stands member')
  simpa using same

theorem context_candidate {stack : List Frame} (inside : ∀ frame ∈ stack, frame.leaf ∈ leaves r) :
    ∀ c ∈ candidates r.rules (context r stack).site (context r stack).children,
      c.leaf ∈ leaves r := by
  cases stack with
  | nil =>
    refine candidates_leaf ?_
    rw [leaves_eq]
    exact List.subset_append_left _ _
  | cons frame outer => exact candidates_leaf (childLeaves_subset (inside frame (by simp)))

end ScopeGrammar.Scan
