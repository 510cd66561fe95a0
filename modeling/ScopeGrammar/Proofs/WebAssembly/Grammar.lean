import ScopeGrammar.Proofs.Repository.Registering
import ScopeGrammar.WebAssembly.Grammar

set_option autoImplicit false

namespace ScopeGrammar

theorem ok_of_isSome {ε α : Type} {x : Except ε α} (some : x.toOption.isSome = true) :
    ∃ a, x = .ok a := by
  cases x with
  | error e => simp [Except.toOption] at some
  | ok a => exact ⟨a, rfl⟩

theorem Builder.eq_of_build_ok {b : Builder} {entry : List Pattern} {r : Repository}
    (built : b.build entry = .ok r) : r = ⟨b.metadata, entry, b.rules⟩ := by
  unfold build at built
  split at built
  · simp at built
  · simp only [bind, Except.bind, pure, Except.pure] at built
    repeat' split at built
    all_goals first | exact (Except.ok.inj built).symm | cases built

namespace WebAssembly

/-- The longest line, in encoded bytes, is below this. -/
def lineBound : Nat := 9000

def table : Rules := .ofList rules

def grammar : Repository := ⟨metadata, entry, table⟩

theorem repository_isSome : repository.toOption.isSome = true := by decide +kernel

theorem repository_eq : repository = .ok grammar := by
  obtain ⟨r, built⟩ := ok_of_isSome repository_isSome
  have frozen := built
  unfold repository register at frozen
  split at frozen
  · rename_i b registered
    have all : ((Builder.new metadata).registerAll rules).2 = none := by rw [registered]
    have same := Builder.registerAll_of_none all
    rw [registered] at same
    simp only at same
    rw [built, Builder.eq_of_build_ok frozen, same]
    simp only [grammar, table, Table.ofList, Builder.new]
  · simp at frozen

end WebAssembly

end ScopeGrammar
