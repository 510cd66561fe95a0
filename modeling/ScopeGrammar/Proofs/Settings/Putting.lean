import ScopeGrammar.Proofs.Settings.Paths
import ScopeGrammar.Proofs.Table
import ScopeGrammar.Settings.Value

set_option autoImplicit false

namespace ScopeGrammar.Settings.Value

variable {v w : Value} {names others : List String}

theorem put_comm (forward : ¬ names <+: others) (backward : ¬ others <+: names)
    (old : Option Value) :
    v.put (names.map .field) (some (w.put (others.map .field) old)) =
      w.put (others.map .field) (some (v.put (names.map .field) old)) := by
  induction names generalizing others old with
  | nil => exact absurd List.nil_prefix forward
  | cons name names ih =>
    cases others with
    | nil => exact absurd List.nil_prefix backward
    | cons other others =>
      by_cases same : name = other
      · subst same
        rw [List.cons_prefix_cons, not_and] at forward backward
        simp [put, entries, Table.lookup_insertEntry, Table.insertEntry_insertEntry,
          ih (forward rfl) (backward rfl)]
      · simp [put, entries, Table.lookup_insertEntry, same, Ne.symm same,
          Table.insertEntry_comm same]

/-- Two values at paths neither of which begins the other may be put in either order. -/
theorem putAt_comm (forward : ¬ names <+: others) (backward : ¬ others <+: names)
    (there : Entries) :
    v.putAt (pathOf names) (w.putAt (pathOf others) there) =
      w.putAt (pathOf others) (v.putAt (pathOf names) there) := by
  cases names with
  | nil => exact absurd List.nil_prefix forward
  | cons root names =>
    cases others with
    | nil => exact absurd List.nil_prefix backward
    | cons other others =>
      have whole := put_comm (v := v) (w := w) forward backward (some (.table there))
      simpa [put, putAt, pathOf, entries] using whole

theorem lookup_putAt (v : Value) (root name : String) (there : Entries) :
    ∃ inner old, (v.putAt (pathOf [root, name]) there).lookup root = some (.table inner) ∧
      inner.lookup name = some (v.onto old) :=
  ⟨_, _, by simp [putAt, pathOf, put, Table.lookup_insertEntry]; rfl,
    by simp [Table.lookup_insertEntry]; rfl⟩

end ScopeGrammar.Settings.Value
