import ScopeGrammar.Repository.Builder

set_option autoImplicit false

namespace ScopeGrammar.Repository

def unseen (rules : Rules) (seen : List String) : List String :=
  rules.keys.filter (· ∉ seen)

theorem length_unseen_lt {rules : Rules} {seen : List String} {name : String} {rule : Rule}
    (registered : rules.get? name = some rule) (new : name ∉ seen) :
    (unseen rules (name :: seen)).length < (unseen rules seen).length := by
  have member : name ∈ rules.keys := Table.mem_keys_of_get? registered
  have step : unseen rules (name :: seen) = (unseen rules seen).filter (· ≠ name) := by
    simp only [unseen, List.filter_filter]
    congr 1
    funext other
    by_cases h : other = name <;> simp [h]
  rw [step]
  refine List.length_filter_lt_length_iff_exists.2 ⟨name, ?_, by simp⟩
  simpa [unseen, new] using member

set_option linter.unusedVariables false in
/-- Go through the names still to be followed, and note each registered one and what its rule
refers to. -/
def follow (rules : Rules) (seen : List String) : List String → List String
  | [] => seen
  | name :: queue =>
    if known : name ∈ seen then follow rules seen queue
    else
      match registered : rules.get? name with
      | none => follow rules seen queue
      | some rule => follow rules (name :: seen) (queue ++ rule.references)
termination_by queue => ((unseen rules seen).length, queue.length)
decreasing_by
  · exact Prod.Lex.right _ (by simp)
  · exact Prod.Lex.right _ (by simp)
  · exact Prod.Lex.left _ _ (length_unseen_lt registered known)

def reachable (r : Repository) : List String := follow r.rules [] (referencesOf r.entry)

def unreachable (r : Repository) : List String :=
  let reached := r.reachable
  r.names.filter (· ∉ reached)

end ScopeGrammar.Repository
