import ScopeGrammar.Proofs.Repository.Reachable
import ScopeGrammar.Proofs.Text.Bytes

/-!
Which rules are reached, told without a traversal: those that a chain of references from the entry
ends in. The traversal takes one pattern at a time and looks at its children last; each of its steps
takes a pattern off those that are left in the whole repository, so it comes to an end, and then it
has met the ends of all chains and nothing else.
-/

set_option autoImplicit false

namespace ScopeGrammar

/-- The name is among the patterns, or among the children of a rule given in place there. -/
inductive Includes (name : String) : List Pattern → Prop where
  | here {patterns : List Pattern} (among : .reference name ∈ patterns) : Includes name patterns
  | inside {patterns : List Pattern} {rule : Rule} (among : .inline rule ∈ patterns)
      (deeper : Includes name rule.children) : Includes name patterns

/-- Names of which each is included by the children of the rule before it, the first one by the
patterns. -/
inductive IncludeChain (rules : Rules) : List Pattern → List String → Prop where
  | single {patterns : List Pattern} {name : String} (first : Includes name patterns) :
    IncludeChain rules patterns [name]
  | cons {patterns : List Pattern} {name : String} {rule : Rule} {chain : List String}
      (first : Includes name patterns) (registered : rules.get? name = some rule)
      (rest : IncludeChain rules rule.children chain) : IncludeChain rules patterns (name :: chain)

section Includes

variable {name : String} {patterns : List Pattern}

theorem Rule.references_eq (rule : Rule) : rule.references = referencesOf rule.children := by
  cases rule <;> simp [Rule.references, Rule.children, referencesOf]

theorem mem_referencesOf :
    name ∈ referencesOf patterns ↔ ∃ pattern ∈ patterns, name ∈ pattern.references := by
  induction patterns with
  | nil => simp [referencesOf]
  | cons pattern rest ih => simp [referencesOf, ih]

theorem referencesOf_append (patterns others : List Pattern) :
    referencesOf (patterns ++ others) = referencesOf patterns ++ referencesOf others := by
  induction patterns with
  | nil => simp [referencesOf]
  | cons pattern rest ih => simp [referencesOf, ih]

theorem Includes.mono {others : List Pattern} (included : Includes name patterns)
    (among : patterns ⊆ others) : Includes name others := by
  cases included with
  | here there => exact .here (among there)
  | inside there deeper => exact .inside (among there) deeper

theorem Includes.references (included : Includes name patterns) : name ∈ referencesOf patterns := by
  induction included with
  | here among => exact mem_referencesOf.2 ⟨_, among, by simp [Pattern.references]⟩
  | @inside patterns rule among deeper ih =>
    refine mem_referencesOf.2 ⟨_, among, ?_⟩
    rwa [Pattern.references, Rule.references_eq]

mutual

theorem Rule.includes_of_references (rule : Rule) (member : name ∈ rule.references) :
    Includes name rule.children :=
  match rule with
  | .single rule => by simp [Rule.references] at member
  | .region region children => includes_of_referencesOf children member
  | .anyOf children => includes_of_referencesOf children member

theorem Pattern.includes_of_references (pattern : Pattern) (member : name ∈ pattern.references) :
    Includes name [pattern] :=
  match pattern with
  | .reference other => by
    rw [Pattern.references, List.mem_singleton] at member
    exact .here (by simp [member])
  | .inline rule => .inside (List.mem_singleton_self _) (rule.includes_of_references member)

theorem includes_of_referencesOf (patterns : List Pattern) (member : name ∈ referencesOf patterns) :
    Includes name patterns :=
  match patterns with
  | [] => by simp [referencesOf] at member
  | pattern :: rest => by
    rw [referencesOf, List.mem_append] at member
    rcases member with here | later
    · exact (pattern.includes_of_references here).mono (by simp)
    · exact (includes_of_referencesOf rest later).mono (List.subset_cons_self _ _)

end

theorem includes_iff : Includes name patterns ↔ name ∈ referencesOf patterns :=
  ⟨Includes.references, includes_of_referencesOf patterns⟩

end Includes

section Chains

variable {rules : Rules} {patterns : List Pattern} {chain : List String} {name : String}

theorem IncludeChain.snoc {rule : Rule} {next : String} (is : IncludeChain rules patterns chain)
    (last : chain.getLast? = some name) (registered : rules.get? name = some rule)
    (included : Includes next rule.children) : IncludeChain rules patterns (chain ++ [next]) := by
  induction is with
  | single first =>
    cases last
    exact .cons first registered (.single included)
  | cons first under rest ih =>
    refine .cons first under (ih ?_)
    cases rest <;> simpa using last

theorem IncludeChain.last_holds {live : String → Prop} (is : IncludeChain rules patterns chain)
    (last : chain.getLast? = some name) (start : ∀ name ∈ referencesOf patterns, live name)
    (rules : ∀ name, live name → ∀ rule, rules.get? name = some rule →
      ∀ other ∈ rule.references, live other) : live name := by
  induction is with
  | single first =>
    cases last
    exact start _ first.references
  | @cons patterns first rule chain included registered rest ih =>
    refine ih (by cases rest <;> simpa using last) fun other member => ?_
    exact rules _ (start _ included.references) rule registered other
      (by rwa [Rule.references_eq])

end Chains

namespace Repository

/-- Some chain of references from the entry ends in the name. -/
def EndsChain (r : Repository) (name : String) : Prop :=
  ∃ chain, IncludeChain r.rules r.entry chain ∧ chain.getLast? = some name

theorem EndsChain.step {r : Repository} {name other : String} {rule : Rule}
    (ends : r.EndsChain name) (registered : r.rules.get? name = some rule)
    (refers : other ∈ rule.references) : r.EndsChain other := by
  obtain ⟨chain, is, last⟩ := ends
  rw [Rule.references_eq] at refers
  exact ⟨chain ++ [other], is.snoc last registered (includes_iff.2 refers), by simp⟩

theorem endsChain_of_entry {r : Repository} {name : String} (refers : name ∈ referencesOf r.entry) :
    r.EndsChain name :=
  ⟨[name], .single (includes_iff.2 refers), rfl⟩

/-- The ends of chains are the least that has the names of the entry and all further ones. -/
theorem EndsChain.least {r : Repository} {name : String} {live : String → Prop}
    (ends : r.EndsChain name) (closed : r.Closed live) : live name := by
  obtain ⟨chain, is, last⟩ := ends
  refine is.last_holds last closed.entry fun name holds rule registered other refers => ?_
  obtain ⟨rule', registered', rest⟩ := closed.rules name holds
  rw [registered] at registered'
  cases registered'
  exact rest other refers

end Repository

end ScopeGrammar
