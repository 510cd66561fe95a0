import ScopeGrammar.Proofs.Scan.GivenUp

set_option autoImplicit false

namespace ScopeGrammar.Scan

open Regex (Found)

/-- From a position with a stack of open regions, the scan of a line crosses the position `q` with
the stack `last`. -/
inductive Crosses (search : Search) (r : Repository) (l : Line) (q : Nat) :
    (pos : Nat) → (stack last : List Frame) → Prop where
  | behind {pos : Nat} {stack : List Frame} : q ≤ pos → Crosses search r l q pos stack stack
  | beyond {pos : Nat} {stack : List Frame} {result : Option (Choice × Found)} :
    pos < q → choose search r.rules (context r stack) pos = .ok result →
    (∀ choice found, result = some (choice, found) → q ≤ found.whole.start) →
    Crosses search r l q pos stack stack
  | moved {pos pos' : Nat} {stack stack' last : List Frame} {choice : Choice} {found : Found}
      {tokens : List Token} :
    pos < q → choose search r.rules (context r stack) pos = .ok (some (choice, found)) →
    found.whole.start < q → step search r l pos stack = .ok (tokens, .moved pos' stack') →
    Crosses search r l q pos' stack' last → Crosses search r l q pos stack last

variable {search : Search} {r : Repository} {l : Line} {q pos : Nat} {stack last : List Frame}

theorem Crosses.unique {other : List Frame} (crosses : Crosses search r l q pos stack last)
    (again : Crosses search r l q pos stack other) : last = other := by
  induction crosses with
  | behind ge =>
    cases again with
    | behind => rfl
    | beyond => rfl
    | moved lt => omega
  | beyond lt chosen behind =>
    cases again with
    | behind => rfl
    | beyond => rfl
    | moved _ chosen' before =>
      have same := Except.ok.inj (chosen.symm.trans chosen')
      have ge := behind _ _ same
      omega
  | moved lt chosen before stepped _ ih =>
    cases again with
    | behind ge => omega
    | beyond _ chosen' behind =>
      have same := Except.ok.inj (chosen'.symm.trans chosen)
      have ge := behind _ _ same
      omega
    | moved _ _ _ stepped' later =>
      have same := Except.ok.inj (stepped.symm.trans stepped')
      simp only [Prod.mk.injEq, Outcome.moved.injEq] at same
      obtain ⟨-, rfl, rfl⟩ := same
      exact ih later

theorem Crosses.known (crosses : Crosses search r l q pos stack last) (known : Known r stack) :
    Known r last := by
  induction crosses with
  | behind _ => exact known
  | beyond _ _ _ => exact known
  | moved _ _ _ stepped _ ih => exact ih (step_known known stepped)

theorem Crosses.patient {engine : Regex.Engine} (known : Known r stack)
    (crosses : Crosses (searchBy engine l.text) r l q pos stack last) :
    Crosses (searchIn l.text) r l q pos stack last := by
  induction crosses with
  | behind ge => exact .behind ge
  | beyond lt chosen behind =>
    exact .beyond lt ((choose_unlessGivenUp engine known l _).ok chosen) behind
  | moved lt chosen before stepped _ ih =>
    exact .moved lt ((choose_unlessGivenUp engine known l _).ok chosen) before
      ((step_unlessGivenUp engine known l _).ok stepped) (ih (step_known known stepped))

theorem Crosses.by_engine (engine : Regex.Engine) (known : Known r stack)
    (crosses : Crosses (searchIn l.text) r l q pos stack last) :
    Crosses (searchBy engine l.text) r l q pos stack last ∨ GivesUpIn engine r l.text := by
  induction crosses with
  | behind ge => exact .inl (.behind ge)
  | @beyond pos stack result lt chosen behind =>
    have asked := (choose_unlessGivenUp engine known l pos).of_line
    exact asked.imp_left fun same => .beyond lt (same.trans chosen) behind
  | @moved pos pos' stack stack' last choice found tokens lt chosen before stepped later ih =>
    rcases (choose_unlessGivenUp engine known l pos).of_line with same | givenUp
    · rcases (step_unlessGivenUp engine known l pos).of_line with same' | givenUp
      · refine (ih (step_known known stepped)).imp_left fun later' => ?_
        exact .moved lt (same.trans chosen) before (same'.trans stepped) later'
      · exact .inr givenUp
    · exact .inr givenUp

theorem Crosses.chosen (crosses : Crosses search r l q pos stack last) (further : pos < q) :
    ∃ result, choose search r.rules (context r stack) pos = .ok result := by
  cases crosses with
  | behind ge => omega
  | beyond _ chosen _ => exact ⟨_, chosen⟩
  | moved _ chosen _ _ _ => exact ⟨_, chosen⟩

theorem Crosses.take {choice : Choice} {found : Found}
    (chosen : choose search r.rules (context r stack) pos = .ok (some (choice, found)))
    (start : found.whole.start < q) (free : choice.stalls l pos stack found = false)
    (within : pos ≤ found.whole.start)
    (later : Crosses search r l q (max pos found.whole.stop)
      (choice.take l pos (context r stack) stack found).2 last) :
    Crosses search r l q pos stack last := by
  have stepped := step_of_choose_some (l := l) chosen
  rw [free] at stepped
  exact .moved (by omega) chosen start stepped later

def next? (search : Search) (r : Repository) (l : Line) (pos : Nat) (stack : List Frame) :
    Option (Nat × List Frame) :=
  match step search r l pos stack with
  | .ok (_, .moved pos stack) => some (pos, stack)
  | _ => none

theorem step_of_next? {pos' : Nat} {stack' : List Frame}
    (next : next? search r l pos stack = some (pos', stack')) :
    ∃ tokens, step search r l pos stack = .ok (tokens, .moved pos' stack') := by
  unfold next? at next
  split at next
  · rename_i tokens _ _ stepped
    cases next
    exact ⟨tokens, stepped⟩
  · simp at next

/-- The stack that a position is crossed with, if some steps are enough to cross it. -/
def crossed? (search : Search) (r : Repository) (l : Line) (q : Nat) :
    (room : Nat) → (pos : Nat) → (stack : List Frame) → Option (List Frame)
  | 0, _, _ => none
  | room + 1, pos, stack =>
    if q ≤ pos then some stack
    else
      match choose search r.rules (context r stack) pos with
      | .error _ => none
      | .ok none => some stack
      | .ok (some (_, found)) =>
        if q ≤ found.whole.start then some stack
        else
          match next? search r l pos stack with
          | none => none
          | some (pos', stack') => crossed? search r l q room pos' stack'

theorem crosses_of_crossed? {room : Nat}
    (crossed : crossed? search r l q room pos stack = some last) : Crosses search r l q pos stack last := by
  induction room generalizing pos stack with
  | zero => simp [crossed?] at crossed
  | succ room ih =>
    rw [crossed?] at crossed
    split at crossed
    · cases crossed
      exact .behind ‹_›
    · rename_i before
      split at crossed
      · simp at crossed
      · rename_i chosen
        cases crossed
        exact .beyond (by omega) chosen (by simp)
      · rename_i choice found chosen
        split at crossed
        · rename_i behind
          cases crossed
          refine .beyond (by omega) chosen fun _ _ same => ?_
          cases same
          exact behind
        · split at crossed
          · simp at crossed
          · rename_i start _ pos' stack' next
            obtain ⟨tokens, stepped⟩ := step_of_next? next
            exact .moved (by omega) chosen (by omega) stepped (ih crossed)

end ScopeGrammar.Scan
