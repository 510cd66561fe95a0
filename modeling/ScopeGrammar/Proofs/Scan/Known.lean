import ScopeGrammar.Proofs.Scan.Leaf
import ScopeGrammar.Proofs.Scan.Step
import ScopeGrammar.Proofs.Scan.Tokens

set_option autoImplicit false

namespace ScopeGrammar.Scan

open Regex (Found)

def Known (r : Repository) (stack : List Frame) : Prop := ∀ frame ∈ stack, frame.leaf ∈ leaves r

variable {search : Search} {r : Repository} {l : Line} {pos : Nat} {stack : List Frame}
  {choice : Choice} {found : Found}

/-- What is offered inside such frames is a pattern of a leaf of the repository. -/
theorem leaf_of_offer (known : Known r stack) {o : Offer}
    (offered : o ∈ offers r.rules (context r stack)) :
    ∃ leaf ∈ leaves r, o.pattern ∈ leaf.fragments := by
  rcases offers_cases offered with ⟨-, closing⟩ | ⟨candidate, member, -, pattern⟩
  · cases stack with
    | nil => simp [context] at closing
    | cons frame outer =>
      refine ⟨frame.leaf, known frame (List.mem_cons_self ..), ?_⟩
      rw [← Option.some.inj closing]
      simp [Frame.leaf, Leaf.fragments]
  · exact ⟨candidate.leaf, context_candidate known candidate member,
      pattern ▸ candidate.leaf.pattern_mem_fragments⟩

theorem known_nil : Known r [] := by simp [Known]

theorem known_of_choose {candidate : Candidate} (known : Known r stack)
    (chosen : choose search r.rules (context r stack) pos = .ok (some (.apply candidate, found))) :
    candidate.leaf ∈ leaves r :=
  context_candidate known _ (candidate_of_choose chosen).1

theorem take_known (known : Known r stack)
    (chosen : choose search r.rules (context r stack) pos = .ok (some (choice, found))) :
    Known r (choice.take l pos (context r stack) stack found).2 := by
  cases choice with
  | close =>
    cases stack with
    | nil => exact known
    | cons frame outer => exact fun other inside => known other (List.mem_cons_of_mem _ inside)
  | apply candidate =>
    have inside := known_of_choose known chosen
    obtain ⟨leaf, names⟩ := candidate
    cases leaf with
    | single rule => exact known
    | region site region children =>
      intro frame member
      rcases List.mem_cons.1 member with rfl | outer
      · exact inside
      · exact known frame outer

theorem step_known (known : Known r stack) {tokens : List Token} {pos' : Nat} {stack' : List Frame}
    (stepped : step search r l pos stack = .ok (tokens, .moved pos' stack')) : Known r stack' := by
  obtain ⟨choice, found, chosen, -, -, rfl⟩ := step_moved stepped
  exact take_known known chosen

section Marks

variable {name : String}

def Leaf.tags : Leaf → List String
  | .single rule => rule.scope.toList ++ rule.captures.entries.map (·.2)
  | .region _ delimiters _ =>
    delimiters.scope.toList ++ delimiters.contentScope.toList ++
      delimiters.openingCaptures.entries.map (·.2) ++ delimiters.closingCaptures.entries.map (·.2)

/-- No frame has the name in its scopes. -/
def Bare (name : String) (stack : List Frame) : Prop :=
  ∀ frame ∈ stack, Unmarked name frame.scopes ∧ Unmarked name frame.contentScopes ∧
    Unmarked name frame.leaf.tags

theorem bare_nil : Bare name [] := by simp [Bare]

theorem Bare.context (bare : Bare name stack) (root : lacksName name r.metadata.scopeName = true) :
    Unmarked name (context r stack).scopes := by
  cases stack with
  | nil =>
    intro scope member
    rw [Scan.context, List.mem_singleton] at member
    rw [member, root]
  | cons frame outer => exact (bare frame (by simp)).2.1

theorem take_unmarked (choice : Choice) (bare : Bare name stack)
    (root : lacksName name r.metadata.scopeName = true)
    (tags : ∀ candidate, choice = .apply candidate → Unmarked name candidate.leaf.tags)
    (pos : Nat) (found : Found) :
    (∀ t ∈ (choice.take l pos (context r stack) stack found).1, Unmarked name t.scopes) ∧
      Bare name (choice.take l pos (context r stack) stack found).2 := by
  have scopes := bare.context root
  cases choice with
  | close =>
    cases stack with
    | nil => simp [Choice.take, Bare]
    | cons frame outer =>
      obtain ⟨own, -, given⟩ := bare frame (by simp)
      refine ⟨captured_unmarked own fun scope member => ?_, fun other inside => ?_⟩
      · exact given scope (List.mem_append_right _ member)
      · exact bare other (List.mem_cons_of_mem _ inside)
  | apply candidate =>
    have given := tags candidate rfl
    obtain ⟨leaf, names⟩ := candidate
    cases leaf with
    | single rule =>
      have own : Unmarked name (within (context r stack).scopes rule.scope) :=
        unmarked_append scopes fun scope member => given scope (List.mem_append_left _ member)
      refine ⟨captured_unmarked own fun scope member => ?_, bare⟩
      exact given scope (List.mem_append_right _ member)
    | region site region children =>
      simp only [Leaf.tags] at given
      have own : Unmarked name (within (context r stack).scopes region.scope) :=
        unmarked_append scopes fun scope member => given scope (by simp [member])
      refine ⟨captured_unmarked own fun scope member => given scope ?_, ?_⟩
      · simp only [List.mem_append]
        exact .inl (.inr member)
      · intro frame member
        rcases List.mem_cons.1 member with rfl | outer
        · refine ⟨own, unmarked_append own fun scope member => given scope ?_, given⟩
          simp only [List.mem_append]
          exact .inl (.inl (.inr member))
        · exact bare frame outer

theorem clipped_unmarked {p q : Nat} {rules : List String} (bare : Bare name stack)
    (root : lacksName name r.metadata.scopeName = true) :
    ∀ t ∈ l.clipped p q (context r stack).scopes rules, Unmarked name t.scopes := by
  intro t member
  rw [clipped_scopes member]
  exact bare.context root

end Marks

end ScopeGrammar.Scan
