import ScopeGrammar.Proofs.Scan.Step

/-!
Scanning a line without a bound on its steps, as a relation, and the unchecked scan: one that never
gives a line up, but pops at every end, pushes at every beginning and goes on.
-/

set_option autoImplicit false

namespace ScopeGrammar.Scan

open Regex (Found)

/-- A way to step: the tokens and what they lead to. -/
abbrev Stepper := Nat → List Frame → Except Defect (List Token × Outcome)

def LineResult.behind (tokens : List Token) (rest : LineResult) : LineResult :=
  { rest with tokens := tokens ++ rest.tokens }

theorem scanFrom_step {search : Search} {r : Repository} {l : Line} {pos pos' : Nat}
    {stack stack' : List Frame} {tokens : List Token}
    (stepped : step search r l pos stack = .ok (tokens, .moved pos' stack')) (room : Nat) :
    scanFrom search r l (room + 1) pos stack =
      (scanFrom search r l room pos' stack').map (.behind tokens) := by
  rw [scanFrom, stepped]
  simp only [bind, Except.bind]
  cases scanFrom search r l room pos' stack' <;> rfl

theorem map_behind_behind (tokens more : List Token) (rest : Except Defect LineResult) :
    (rest.map (LineResult.behind more)).map (LineResult.behind tokens) =
      rest.map (LineResult.behind (tokens ++ more)) := by
  cases rest with
  | error defect => rfl
  | ok line => simp [Except.map, LineResult.behind]

/-- Stepping on from a position and a stack ends with the result. -/
inductive Ends (next : Stepper) : Nat → List Frame → Except Defect LineResult → Prop where
  | finished {pos : Nat} {stack : List Frame} {tokens : List Token} :
    next pos stack = .ok (tokens, .finished) → Ends next pos stack (.ok ⟨tokens, stack, false⟩)
  | stalled {pos : Nat} {stack : List Frame} {tokens : List Token} :
    next pos stack = .ok (tokens, .stalled) → Ends next pos stack (.ok ⟨tokens, stack, true⟩)
  | failed {pos : Nat} {stack : List Frame} {defect : Defect} :
    next pos stack = .error defect → Ends next pos stack (.error defect)
  | moved {pos pos' : Nat} {stack stack' : List Frame} {tokens : List Token}
      {rest : Except Defect LineResult} :
    next pos stack = .ok (tokens, .moved pos' stack') → Ends next pos' stack' rest →
    Ends next pos stack (rest.map (.behind tokens))

section Loop

variable {next : Stepper} {pos : Nat} {stack : List Frame}

theorem Ends.unique {result result' : Except Defect LineResult} (ends : Ends next pos stack result)
    (ends' : Ends next pos stack result') : result = result' := by
  induction ends generalizing result' with
  | finished is => cases ends' <;> simp_all
  | stalled is => cases ends' <;> simp_all
  | failed is => cases ends' <;> simp_all
  | moved is _ ih =>
    cases ends' with
    | finished is' | stalled is' | failed is' => simp [is] at is'
    | moved is' later =>
      simp only [is, Except.ok.injEq, Prod.mk.injEq, Outcome.moved.injEq] at is'
      obtain ⟨rfl, rfl, rfl⟩ := is'
      rw [ih later]

theorem Ends.of_moved {result : Except Defect LineResult} (ends : Ends next pos stack result)
    {pos' : Nat} {stack' : List Frame} {tokens : List Token}
    (is : next pos stack = .ok (tokens, .moved pos' stack')) :
    ∃ rest, Ends next pos' stack' rest ∧ result = rest.map (.behind tokens) := by
  cases ends with
  | finished is' | stalled is' | failed is' => simp [is] at is'
  | moved is' later =>
    simp only [is, Except.ok.injEq, Prod.mk.injEq, Outcome.moved.injEq] at is'
    obtain ⟨rfl, rfl, rfl⟩ := is'
    exact ⟨_, later, rfl⟩

def Endless (next : Stepper) (pos : Nat) (stack : List Frame) : Prop :=
  ∀ result, ¬ Ends next pos stack result

theorem endless_of_closed (among : Nat → List Frame → Prop)
    (closed : ∀ pos stack, among pos stack → ∃ tokens pos' stack',
      next pos stack = .ok (tokens, .moved pos' stack') ∧ among pos' stack')
    (start : among pos stack) : Endless next pos stack := by
  intro result ends
  induction ends with
  | @finished pos stack tokens is | @stalled pos stack tokens is | @failed pos stack defect is =>
    obtain ⟨_, _, _, is', -⟩ := closed pos stack start
    simp [is] at is'
  | @moved pos pos' stack stack' tokens rest is _ ih =>
    obtain ⟨_, _, _, is', inside⟩ := closed pos stack start
    simp only [is, Except.ok.injEq, Prod.mk.injEq, Outcome.moved.injEq] at is'
    obtain ⟨rfl, rfl, rfl⟩ := is'
    exact ih inside

end Loop

section Line

variable {search : Search} {r : Repository} {l : Line} {pos : Nat} {stack : List Frame}

theorem scanFrom_of_ends {result : Except Defect LineResult}
    (ends : Ends (step search r l) pos stack result) :
    ∃ most, ∀ room, most ≤ room → scanFrom search r l room pos stack = result := by
  induction ends with
  | finished is =>
    refine ⟨1, fun room enough => ?_⟩
    obtain ⟨room, rfl⟩ := Nat.exists_eq_add_of_le' enough
    exact scanFrom_finished is
  | stalled is =>
    refine ⟨1, fun room enough => ?_⟩
    obtain ⟨room, rfl⟩ := Nat.exists_eq_add_of_le' enough
    exact scanFrom_stalled is
  | failed is =>
    refine ⟨1, fun room enough => ?_⟩
    obtain ⟨room, rfl⟩ := Nat.exists_eq_add_of_le' enough
    rw [scanFrom, is]
    rfl
  | @moved pos pos' stack stack' tokens rest is _ ih =>
    obtain ⟨most, scanned⟩ := ih
    refine ⟨most + 1, fun room enough => ?_⟩
    obtain ⟨room, rfl⟩ : ∃ n, room = n + 1 := ⟨room - 1, by omega⟩
    rw [scanFrom, is]
    simp only [bind, Except.bind, scanned room (by omega)]
    cases rest <;> rfl

def freeStep (search : Search) (r : Repository) (l : Line) : Stepper := fun pos stack => do
  let ctx := context r stack
  match ← choose search r.rules ctx pos with
  | none => return (l.clipped pos l.content.length ctx.scopes ctx.rules, .finished)
  | some (choice, found) =>
    let gap := l.clipped pos found.whole.start ctx.scopes ctx.rules
    let (tokens, next) := choice.take l pos ctx stack found
    return (gap ++ tokens, .moved (max pos found.whole.stop) next)

theorem freeStep_of_choose_none (nothing : choose search r.rules (context r stack) pos = .ok none) :
    freeStep search r l pos stack =
      .ok (l.clipped pos l.content.length (context r stack).scopes (context r stack).rules,
        .finished) := by
  rw [freeStep, nothing]
  rfl

theorem freeStep_of_choose_some {choice : Choice} {found : Found}
    (some : choose search r.rules (context r stack) pos = .ok (some (choice, found))) :
    freeStep search r l pos stack =
      .ok (taken choice r l pos stack found,
        .moved (max pos found.whole.stop) (choice.take l pos (context r stack) stack found).2) := by
  rw [freeStep, some]
  rfl

theorem freeStep_of_choose_error {defect : Defect}
    (bad : choose search r.rules (context r stack) pos = .error defect) :
    freeStep search r l pos stack = .error defect ∧ step search r l pos stack = .error defect := by
  constructor
  · rw [freeStep, bad]
    rfl
  · rw [step, bad]
    rfl

theorem freeStep_moved {pos' : Nat} {stack' : List Frame} {tokens : List Token}
    (stepped : freeStep search r l pos stack = .ok (tokens, .moved pos' stack')) :
    ∃ choice found, choose search r.rules (context r stack) pos = .ok (some (choice, found)) ∧
      pos' = max pos found.whole.stop ∧
      stack' = (choice.take l pos (context r stack) stack found).2 := by
  cases chosen : choose search r.rules (context r stack) pos with
  | error defect => simp [(freeStep_of_choose_error chosen).1] at stepped
  | ok result =>
    cases result with
    | none => simp [freeStep_of_choose_none chosen] at stepped
    | some result =>
      obtain ⟨choice, found⟩ := result
      rw [freeStep_of_choose_some chosen] at stepped
      simp only [Except.ok.injEq, Prod.mk.injEq, Outcome.moved.injEq] at stepped
      exact ⟨choice, found, rfl, stepped.2.1.symm, stepped.2.2.symm⟩

end Line

end ScopeGrammar.Scan
