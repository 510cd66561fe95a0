import ScopeGrammar.Proofs.Regex.Ways
import ScopeGrammar.Regex.Engine

set_option autoImplicit false

namespace ScopeGrammar.Regex

namespace Attempt

/-- The attempt is given up, or refused with the engine having gone back at least `n` times. -/
def Spends (a : Attempt) (n : Nat) (c : Cursor) (s : Saved) : Prop :=
  ∀ left, a left c s = .givenUp ∨ ∃ left', a left c s = .refused left' ∧ left' + n ≤ left

variable {a b : Attempt} {m n : Nat} {c : Cursor} {s : Saved}

theorem Spends.mono (spends : a.Spends n c s) (le : m ≤ n) : a.Spends m c s := by
  intro left
  rcases spends left with up | ⟨left', refused, paid⟩
  · exact .inl up
  · exact .inr ⟨left', refused, by omega⟩

theorem Spends.orElse (first : a.Spends m c s) (second : b.Spends n c s) :
    (a.orElse b).Spends (m + 1 + n) c s := by
  intro left
  rcases first left with up | ⟨left', refused, paid⟩
  · exact .inl (by rw [Attempt.orElse, up])
  · cases left' with
    | zero => exact .inl (by rw [Attempt.orElse, refused])
    | succ left' =>
      rw [Attempt.orElse, refused]
      rcases second left' with up | ⟨left'', refused', paid'⟩
      · exact .inl up
      · exact .inr ⟨left'', refused', by omega⟩

/-- What the engine may still go back is no more behind the attempt than before it. -/
def Bounded (a : Attempt) (c : Cursor) (s : Saved) : Prop :=
  ∀ left, a left c s = .givenUp ∨ ∃ left' ≤ left, a left c s = .refused left' ∨
    ∃ d t, a left c s = .taken d t left'

theorem deny_spends (bounded : a.Bounded c s) (spends : b.Spends 0 c s) :
    (a.deny b).Spends 0 c s := by
  intro left
  rcases bounded left with up | ⟨left', le, refused | ⟨d, t, taken⟩⟩
  · exact .inl (by rw [deny, up])
  · cases left' with
    | zero => exact .inl (by rw [deny, refused])
    | succ left' =>
      rw [deny, refused]
      rcases spends left' with up | ⟨left'', refused', le'⟩
      · exact .inl up
      · exact .inr ⟨left'', refused', by omega⟩
  · exact .inr ⟨left', by rw [deny, taken], le⟩

theorem back_bounded {width : Option Nat} (bounded : ∀ d, a.Bounded d s) :
    (a.back width).Bounded c s := by
  intro left
  cases behind : width.bind (c.back? ·) with
  | none => exact .inr ⟨left, Nat.le_refl left, .inl (by simp only [back, behind])⟩
  | some d => simpa only [back, behind] using bounded d left

def moveOn (p : Nat) (a : Attempt) : Attempt := fun left c s =>
  if c.index = p then .refused left else a left c s

theorem moveOn_spends {text : List Char} {p q : Nat} (moves : q ≠ p)
    (spends : a.Spends n (.place text q) s) : (moveOn p a).Spends n (.place text q) s := by
  intro left
  have there : (Cursor.place text q).index = q := rfl
  rw [moveOn, there, if_neg moves]
  exact spends left

theorem anyNumber_spends {greedy : Bool} {round : Attempt → Attempt} {room p : Nat}
    {text : List Char}
    (more : (round (moveOn p (anyNumber greedy round room a))).Spends m (.place text p) s)
    (done : a.Spends n (.place text p) s) :
    (anyNumber greedy round (room + 1) a).Spends (m + 1 + n) (.place text p) s := by
  cases greedy with
  | true => exact more.orElse done
  | false => exact (done.orElse more).mono (by omega)

end Attempt

namespace Node

variable {text : List Char} {node : Node} {opened p : Nat} {s : Saved} {k : Attempt} {n : Nat}

theorem handOver_place (node : Node) (opened : Nat) (k : Attempt) (left : Nat) (s : Saved)
    (inside : p ≤ text.length) :
    node.handOver opened k left (.place text p) s =
      match (node.ways text opened p s).head? with
      | some w => k left (.place text w.1) w.2
      | none => .refused left := by
  rw [handOver, run_follows text node opened _ p s inside, findSome?_some]
  cases (node.ways text opened p s).head? <;> rfl

theorem handOver_spends (inside : p ≤ text.length) {w : Way}
    (first : (node.ways text opened p s).head? = some w) (spends : k.Spends n (.place text w.1) w.2) :
    (node.handOver opened k).Spends n (.place text p) s := by
  intro left
  rw [handOver_place node opened k left s inside, first]
  exact spends left

theorem handOver_refuses (inside : p ≤ text.length) (none : node.ways text opened p s = []) :
    (node.handOver opened k).Spends 0 (.place text p) s := by
  intro left
  rw [handOver_place node opened k left s inside, none]
  exact .inr ⟨left, rfl, Nat.le_refl left⟩

theorem attempt_set (chars : CharSet) (inner front : Bool) (opened : Nat) (k : Attempt) :
    (set chars).attempt inner front opened k = fun left c s =>
      match c.next? with
      | some (x, d) => if chars.mem x then k left d s else .refused left
      | none => .refused left :=
  rfl

theorem attempt_seq (a b : Node) (inner front : Bool) (opened : Nat) (k : Attempt) :
    (seq a b).attempt inner front opened k =
      if inner && (seq a b).regular then (seq a b).handOver opened k
      else
        let rest (front : Bool) : Attempt :=
          if b.isSequence then b.attempt inner front (opened + a.groups) k
          else if b.fixed || inner && b.regular then b.handOver (opened + a.groups) k
          else b.attempt false true (opened + a.groups) k
        if front && a.fixed || (seq a b).fixed then a.handOver opened (rest front)
        else a.attempt false true opened (rest false) :=
  rfl

theorem attempt_group (a : Node) (inner front : Bool) (opened : Nat) (k : Attempt) :
    (group a).attempt inner front opened k =
      if inner && a.regular then (group a).handOver opened k
      else fun left c s =>
        a.attempt inner true (opened + 1)
          (fun left d t => k left d ((opened + 1, ⟨c.index, d.index⟩) :: t)) left c s :=
  rfl

theorem set_spends {chars : CharSet} {x : Char} (here : text[p]? = some x)
    (among : chars.mem x = true) {inner front : Bool} (spends : k.Spends n (.place text (p + 1)) s) :
    ((set chars).attempt inner front opened k).Spends n (.place text p) s := by
  intro left
  simp only [attempt_set, Cursor.next?_place, here, Option.map_some, among, if_true]
  exact spends left

theorem set_refuses {chars : CharSet} (none : ∀ x ∈ text[p]?, chars.mem x = false)
    {inner front : Bool} :
    ((set chars).attempt inner front opened k).Spends 0 (.place text p) s := by
  intro left
  refine .inr ⟨left, ?_, Nat.le_refl left⟩
  simp only [attempt_set, Cursor.next?_place]
  cases here : text[p]? with
  | none => rfl
  | some x => simp [none x here]

theorem set_bounded (chars : CharSet) (inner front : Bool) (c : Cursor) :
    ((set chars).attempt inner front opened .accept).Bounded c s := by
  intro left
  refine .inr ⟨left, Nat.le_refl left, ?_⟩
  simp only [attempt_set]
  split
  · split
    · exact .inr ⟨_, _, rfl⟩
    · exact .inl rfl
  · exact .inl rfl

theorem attempt_seq_fixed {a b : Node} (fixed : a.fixed = true) (more : b.isSequence = true) :
    (seq a b).attempt false true opened k =
      a.handOver opened (b.attempt false true (opened + a.groups) k) := by
  simp [attempt_seq, fixed, more]

theorem attempt_seq_loose {a b : Node} {front : Bool} (loose : (front && a.fixed) = false)
    (irregular : b.regular = false) :
    (seq a b).attempt false front opened k =
      a.attempt false true opened (b.attempt false (!b.isSequence) (opened + a.groups) k) := by
  have whole : (seq a b).fixed = false := by simp [fixed, regular, irregular]
  have rest : b.fixed = false := by simp [fixed, irregular]
  cases more : b.isSequence <;> simp [attempt_seq, loose, whole, rest, more]

theorem group_spends {a : Node} {front : Bool} {c : Cursor}
    (spends : (a.attempt false true (opened + 1) fun left d t =>
      k left d ((opened + 1, ⟨c.index, d.index⟩) :: t)).Spends n c s) :
    ((group a).attempt false front opened k).Spends n c s := by
  intro left
  simpa [attempt_group] using spends left

theorem seq_set_refuses {chars : CharSet} {b : Node} (inside : p ≤ text.length)
    (none : ∀ x ∈ text[p]?, chars.mem x = false) :
    ((seq (set chars) b).attempt false true opened k).Spends 0 (.place text p) s := by
  have fixed : (set chars).fixed = true := rfl
  simp only [attempt_seq, fixed, Bool.false_and, Bool.true_and, Bool.true_or, Bool.false_eq_true,
    if_false, if_true]
  refine handOver_refuses inside ?_
  rw [ways]
  cases here : text[p]? with
  | none => rfl
  | some x => simp [none x here]

variable {most : Nat}

theorem effort_of_spends {c : Cursor}
    (spends : (node.attempt false true 0 .accept).Spends n c []) :
    (node.effort most c).2 = false ∧ (most < n → most < (node.effort most c).1) := by
  rw [effort]
  rcases spends most with up | ⟨left, refused, paid⟩
  · rw [up]
    exact ⟨rfl, fun _ => Nat.lt_succ_self most⟩
  · rw [refused]
    exact ⟨rfl, fun more => by omega⟩

/-- A search that takes no way before a place goes back as often as at the place. -/
theorem lt_efforts {pos q room : Nat} (all : p + room = text.length) (behind : p ≤ pos)
    (before : pos ≤ q) (inside : q ≤ text.length)
    (quiet : ∀ i, pos ≤ i → i < q → (node.effort most (.place text i)).2 = false)
    (hard : most < (node.effort most (.place text q)).1) :
    most < (node.efforts most room (.place text p)).getD (pos - p) 0 := by
  induction room generalizing p pos with
  | zero =>
    obtain rfl : p = pos := by omega
    obtain rfl : p = q := by omega
    simpa [efforts] using hard
  | succ room ih =>
    rw [efforts, Cursor.next?_place_of_lt (by omega)]
    rcases Nat.lt_or_eq_of_le behind with later | rfl
    · rw [show pos - p = pos - (p + 1) + 1 by omega, List.getD_cons_succ]
      exact ih (by omega) later before quiet
    · rw [Nat.sub_self, List.getD_cons_zero]
      rcases Nat.lt_or_eq_of_le before with further | rfl
      · have rest := ih (p := p + 1) (by omega) (Nat.le_refl _) further
          fun i ge lt => quiet i (by omega) lt
        rw [Nat.sub_self] at rest
        rw [quiet p (Nat.le_refl p) further, List.headD_eq_head?_getD, List.head?_eq_getElem?]
        simp only [Bool.false_eq_true, if_false, List.getD_eq_getElem?_getD] at rest ⊢
        omega
      · split
        · exact hard
        · exact Nat.lt_of_lt_of_le hard (Nat.le_add_right _ _)

end Node

namespace Engine

variable {regex : Regex} {text : List Char} {most pos q : Nat}

/-- A search is given up if there is a place behind which takes more than the engine allows, and no
match before it. -/
theorem givesUp_limited (irregular : regex.tree.regular = false) (before : pos ≤ q)
    (inside : q ≤ text.length)
    (quiet : ∀ i, pos ≤ i → i < q → (regex.tree.settled.effort most (.place text i)).2 = false)
    (hard : most < (regex.tree.settled.effort most (.place text q)).1) :
    (limited most).givesUp regex text pos = true := by
  have efforts := Node.lt_efforts (p := 0) (Nat.zero_add _) (Nat.zero_le _) before inside quiet hard
  simp only [givesUp, limited, irregular, Bool.false_eq_true, if_false, Cursor.start_eq_place,
    List.getD_eq_getElem?_getD, List.getElem?_map, Nat.sub_zero] at efforts ⊢
  cases held : (regex.tree.settled.efforts most text.length (.place text 0))[pos]? with
  | none => simp [held] at efforts
  | some own => simpa [held] using efforts

end Engine

end ScopeGrammar.Regex
