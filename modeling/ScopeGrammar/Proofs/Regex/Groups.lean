import Mathlib.Logic.Relation
import ScopeGrammar.Proofs.Regex.Ways

set_option autoImplicit false

namespace ScopeGrammar.Regex

section Rounds

variable {text : List Char} {round : Nat → Saved → List Way} {p : Nat} {s : Saved} {w : Way}

abbrev GoesOn (round : Nat → Saved → List Way) : Way → Way → Prop := fun v w => w ∈ round v.1 v.2

theorem chain_of_exactlyWays {n : Nat} (member : w ∈ exactlyWays round n p s) :
    Relation.ReflTransGen (GoesOn round) (p, s) w := by
  induction n generalizing p s with
  | zero =>
    rw [exactlyWays, List.mem_singleton] at member
    exact member ▸ .refl
  | succ n ih =>
    obtain ⟨v, first, rest⟩ := List.mem_flatMap.1 member
    exact .head (b := v) first (ih rest)

theorem chain_of_upToWays {greedy : Bool} {n : Nat} (member : w ∈ upToWays greedy round n p s) :
    Relation.ReflTransGen (GoesOn round) (p, s) w := by
  induction n generalizing p s with
  | zero =>
    rw [upToWays, List.mem_singleton] at member
    exact member ▸ .refl
  | succ n ih =>
    rcases mem_inOrder.1 member with more | none
    · obtain ⟨v, first, rest⟩ := List.mem_flatMap.1 more
      exact .head (b := v) first (ih rest)
    · exact List.mem_singleton.1 none ▸ .refl

theorem chain_of_anyWays {greedy : Bool} {room : Nat} (member : w ∈ anyWays greedy round room p s) :
    Relation.ReflTransGen (GoesOn round) (p, s) w := by
  induction room generalizing p s with
  | zero =>
    rw [anyWays, List.mem_singleton] at member
    exact member ▸ .refl
  | succ room ih =>
    rcases mem_inOrder.1 member with more | none
    · obtain ⟨v, first, rest⟩ := List.mem_flatMap.1 more
      split at rest
      · simp at rest
      · exact .head (b := v) first (ih rest)
    · exact List.mem_singleton.1 none ▸ .refl

/-- The ways through a repetition are chains of ways through its body. -/
theorem chain_of_many {least : Nat} {most : Option Nat} {greedy : Bool} {a : Node} {opened : Nat}
    (member : w ∈ (Node.many least most greedy a).ways text opened p s) :
    Relation.ReflTransGen (GoesOn (a.ways text opened)) (p, s) w := by
  obtain ⟨v, first, rest⟩ := List.mem_flatMap.1 member
  refine (chain_of_exactlyWays first).trans ?_
  split at rest
  · exact chain_of_upToWays rest
  · exact chain_of_anyWays rest

end Rounds

namespace Node

variable {text : List Char} {p : Nat} {s : Saved} {w : Way}

theorem saved_of_no_groups {node : Node} (none : node.groups = 0) {opened : Nat}
    (member : w ∈ node.ways text opened p s) : w.2 = s := by
  induction node generalizing opened p s w with
  | never => simp [ways] at member
  | empty => exact (List.mem_singleton.1 member) ▸ rfl
  | set chars =>
    obtain ⟨c, -, -, rfl⟩ := mem_ways_set.1 member
    rfl
  | anchor edge => exact congrArg Prod.snd (mem_ways_anchor.1 member).2
  | notAhead a => exact congrArg Prod.snd (mem_ways_notAhead.1 member).2
  | notBehind a => exact congrArg Prod.snd (mem_ways_notBehind.1 member).2
  | seq a b iha ihb =>
    obtain ⟨v, first, rest⟩ := List.mem_flatMap.1 member
    simp only [groups, Nat.add_eq_zero_iff] at none
    exact (ihb none.2 rest).trans (iha none.1 first)
  | alt a b iha ihb =>
    simp only [groups, Nat.add_eq_zero_iff] at none
    exact (List.mem_append.1 member).elim (iha none.1) (ihb none.2)
  | group a => simp [groups] at none
  | many least most greedy a ih =>
    have chain := chain_of_many member
    clear member
    induction chain with
    | refl => rfl
    | tail _ last before => exact (ih none last).trans before
  | atomic a ih => exact ih none (List.mem_of_mem_take member)
  | ahead a ih =>
    obtain ⟨v, first, rfl⟩ := List.mem_map.1 member
    have same : v.2 = s := ih none (List.mem_of_mem_take first)
    exact same
  | behind a ih =>
    obtain ⟨n, -, -, v, first, rfl⟩ := mem_ways_behind.1 member
    have same : v.2 = s := ih none (List.mem_of_mem_take first)
    exact same
  | back group =>
    obtain ⟨span, front, -, -, -, rfl⟩ := mem_ways_back.1 member
    rfl

def groupsRead : Node → Bool
  | .seq a b | .alt a b => a.groupsRead && b.groupsRead
  | .group a | .many _ _ _ a | .atomic a => a.groupsRead
  | .ahead a | .notAhead a | .behind a | .notBehind a => a.groups = 0
  | .empty | .never | .set _ | .anchor _ | .back _ => true

/-- What has been saved on a way since its start lies between the two ends of the way. -/
def Encloses (p : Nat) (s : Saved) (w : Way) : Prop :=
  p ≤ w.1 ∧ ∀ e ∈ w.2, e ∈ s ∨ p ≤ e.2.start ∧ e.2.start ≤ e.2.stop ∧ e.2.stop ≤ w.1

theorem Encloses.trans {v : Way} (first : Encloses p s v) (rest : Encloses v.1 v.2 w) :
    Encloses p s w := by
  refine ⟨Nat.le_trans first.1 rest.1, fun e member => ?_⟩
  rcases rest.2 e member with earlier | ⟨start, forward, stop⟩
  · rcases first.2 e earlier with before | ⟨start, forward, stop⟩
    · exact .inl before
    · exact .inr ⟨start, forward, Nat.le_trans stop rest.1⟩
  · exact .inr ⟨Nat.le_trans first.1 start, forward, stop⟩

theorem encloses_of_saved (forward : p ≤ w.1) (same : w.2 = s) : Encloses p s w :=
  ⟨forward, fun _ member => .inl (same ▸ member)⟩

theorem ways_enclose {node : Node} (read : node.groupsRead = true) {opened : Nat}
    (inside : p ≤ text.length) (member : w ∈ node.ways text opened p s) : Encloses p s w := by
  have forward := (node.ways_forward text opened p s inside w member).1
  induction node generalizing opened p s w with
  | seq a b iha ihb =>
    obtain ⟨v, first, rest⟩ := List.mem_flatMap.1 member
    have hv := a.ways_forward text opened p s inside v first
    have hw := b.ways_forward text _ v.1 v.2 hv.2 w rest
    simp only [groupsRead, Bool.and_eq_true] at read
    exact (iha read.1 inside first hv.1).trans (ihb read.2 hv.2 rest hw.1)
  | alt a b iha ihb =>
    simp only [groupsRead, Bool.and_eq_true] at read
    rcases List.mem_append.1 member with first | second
    · exact iha read.1 inside first forward
    · exact ihb read.2 inside second forward
  | group a ih =>
    obtain ⟨v, first, rfl⟩ := List.mem_map.1 member
    have hv := ih read inside first forward
    refine ⟨hv.1, List.forall_mem_cons.2 ⟨.inr ⟨Nat.le_refl _, hv.1, Nat.le_refl _⟩, hv.2⟩⟩
  | many least most greedy a ih =>
    have chain := chain_of_many member
    clear member forward
    suffices both : w.1 ≤ text.length ∧ Encloses p s w from both.2
    induction chain with
    | refl => exact ⟨inside, encloses_of_saved (Nat.le_refl p) rfl⟩
    | @tail v w _ last before =>
      have hw := a.ways_forward text opened v.1 v.2 before.1 w last
      exact ⟨hw.2, before.2.trans (ih read before.1 last hw.1)⟩
  | atomic a ih => exact ih read inside (List.mem_of_mem_take member) forward
  | ahead a | notAhead a | behind a | notBehind a =>
    exact encloses_of_saved forward (saved_of_no_groups (by simpa [groupsRead, groups] using read) member)
  | empty | never | set | anchor | back =>
    exact encloses_of_saved forward (saved_of_no_groups (by simp [groups]) member)

end Node

end ScopeGrammar.Regex
