import ScopeGrammar.Proofs.Scan.Choice

set_option autoImplicit false

namespace ScopeGrammar.Scan

open Regex (Found)

/-- What is found from a position up to `size` lies between the two. -/
def Search.Within (search : Search) (size : Nat) : Prop :=
  ∀ f pos found, pos ≤ size → search f pos = .ok (some found) →
    pos ≤ found.whole.start ∧ found.whole.start ≤ found.whole.stop ∧ found.whole.stop ≤ size

section

variable {search : Search} {r : Repository} {l : Line} {pos : Nat} {stack : List Frame}
  {tokens : List Token}

def taken (choice : Choice) (r : Repository) (l : Line) (pos : Nat) (stack : List Frame)
    (found : Found) : List Token :=
  l.clipped pos found.whole.start (context r stack).scopes (context r stack).rules ++
    (choice.take l pos (context r stack) stack found).1

/-- What a step does with the choice that it takes, or where there is none. -/
def follow (r : Repository) (l : Line) (pos : Nat) (stack : List Frame) :
    Option (Choice × Found) → List Token × Outcome
  | none =>
    (l.clipped pos l.content.length (context r stack).scopes (context r stack).rules, .finished)
  | some (choice, found) =>
    (taken choice r l pos stack found,
      if choice.stalls l pos stack found then .stalled
      else .moved (max pos found.whole.stop) (choice.take l pos (context r stack) stack found).2)

theorem step_eq_follow (search : Search) (r : Repository) (l : Line) (pos : Nat)
    (stack : List Frame) :
    step search r l pos stack =
      (choose search r.rules (context r stack) pos).map (follow r l pos stack) := by
  rw [step]
  cases choose search r.rules (context r stack) pos with
  | error defect => rfl
  | ok result =>
    cases result with
    | none => rfl
    | some result =>
      obtain ⟨choice, found⟩ := result
      cases stalls : choice.stalls l pos stack found <;>
        simp [bind, Except.bind, pure, Except.pure, Except.map, follow, taken, stalls]

theorem step_of_choose_none (nothing : choose search r.rules (context r stack) pos = .ok none) :
    step search r l pos stack =
      .ok (l.clipped pos l.content.length (context r stack).scopes (context r stack).rules,
        .finished) := by
  rw [step_eq_follow, nothing]
  rfl

theorem step_of_choose_some {choice : Choice} {found : Found}
    (some : choose search r.rules (context r stack) pos = .ok (some (choice, found))) :
    step search r l pos stack =
      .ok (taken choice r l pos stack found,
        if choice.stalls l pos stack found then .stalled
        else .moved (max pos found.whole.stop)
          (choice.take l pos (context r stack) stack found).2) := by
  rw [step_eq_follow, some]
  rfl

def Context.enter (ctx : Context) (l : Line) (pos : Nat) (site : Site) (region : Region)
    (children : List Pattern) (names : List String) : Frame where
  site
  region
  children
  label := names.getLast?.getD "<inline>"
  line := l.number
  pos
  scopes := within ctx.scopes region.scope
  contentScopes := within (within ctx.scopes region.scope) region.contentScope
  rules := ctx.rules ++ names

theorem step_enters {site : Site} {region : Region} {children : List Pattern} {names : List String}
    {found : Found}
    (chosen : choose search r.rules (context r stack) pos =
      .ok (some (.apply ⟨.region site region children, names⟩, found)))
    (free : (Choice.apply ⟨.region site region children, names⟩).stalls l pos stack found = false) :
    step search r l pos stack =
      .ok (l.clipped pos found.whole.start (context r stack).scopes (context r stack).rules ++
          l.captured region.openingCaptures false (within (context r stack).scopes region.scope)
            ((context r stack).rules ++ names) found,
        .moved (max pos found.whole.stop)
          ((context r stack).enter l pos site region children names :: stack)) := by
  rw [step_of_choose_some chosen, free]
  rfl

theorem step_leaves {frame : Frame} {found : Found}
    (chosen : choose search r.rules (context r (frame :: stack)) pos = .ok (some (.close, found)))
    (free : Choice.close.stalls l pos (frame :: stack) found = false) :
    step search r l pos (frame :: stack) =
      .ok (l.clipped pos found.whole.start frame.contentScopes frame.rules ++
          l.captured frame.region.closingCaptures false frame.scopes frame.rules found,
        .moved (max pos found.whole.stop) stack) := by
  rw [step_of_choose_some chosen, free]
  rfl

/-- A step finds nothing and finishes, or takes a match and either stalls or moves on behind it. -/
theorem step_cases {outcome : Outcome} (stepped : step search r l pos stack = .ok (tokens, outcome)) :
    (choose search r.rules (context r stack) pos = .ok none ∧ outcome = .finished ∧
      tokens = l.clipped pos l.content.length (context r stack).scopes (context r stack).rules) ∨
    ∃ choice found, choose search r.rules (context r stack) pos = .ok (some (choice, found)) ∧
      tokens = taken choice r l pos stack found ∧
      ((choice.stalls l pos stack found = true ∧ outcome = .stalled) ∨
        (choice.stalls l pos stack found = false ∧
          outcome = .moved (max pos found.whole.stop)
            (choice.take l pos (context r stack) stack found).2)) := by
  cases chosen : choose search r.rules (context r stack) pos with
  | error defect => simp [step, chosen, bind, Except.bind] at stepped
  | ok result =>
    cases result with
    | none =>
      rw [step_of_choose_none chosen] at stepped
      cases stepped
      exact .inl ⟨rfl, rfl, rfl⟩
    | some result =>
      obtain ⟨choice, found⟩ := result
      rw [step_of_choose_some chosen] at stepped
      cases stepped
      refine .inr ⟨choice, found, rfl, rfl, ?_⟩
      cases choice.stalls l pos stack found <;> simp

theorem step_moved {pos' : Nat} {stack' : List Frame}
    (stepped : step search r l pos stack = .ok (tokens, .moved pos' stack')) :
    ∃ choice found, choose search r.rules (context r stack) pos = .ok (some (choice, found)) ∧
      tokens = taken choice r l pos stack found ∧ pos' = max pos found.whole.stop ∧
      stack' = (choice.take l pos (context r stack) stack found).2 := by
  rcases step_cases stepped with
    ⟨-, no, -⟩ | ⟨choice, found, chosen, made, ⟨-, no⟩ | ⟨-, moved⟩⟩
  · simp at no
  · simp at no
  · obtain ⟨behind, left⟩ := Outcome.moved.inj moved
    exact ⟨choice, found, chosen, made, behind, left⟩

theorem choose_within {rules : Rules} {ctx : Context} {choice : Choice} {found : Found} {size : Nat}
    (within : search.Within size) (inside : pos ≤ size)
    (taken : choose search rules ctx pos = .ok (some (choice, found))) :
    pos ≤ found.whole.start ∧ found.whole.start ≤ found.whole.stop ∧ found.whole.stop ≤ size := by
  obtain ⟨before, f, after, -, answer, -⟩ := choose_some taken
  exact within f pos found inside answer

theorem step_moved_within {pos' size : Nat} {stack' : List Frame} (within : search.Within size)
    (inside : pos ≤ size) (stepped : step search r l pos stack = .ok (tokens, .moved pos' stack')) :
    pos ≤ pos' ∧ pos' ≤ size := by
  obtain ⟨choice, found, chosen, -, rfl, -⟩ := step_moved stepped
  have range := choose_within within inside chosen
  omega

theorem scanFrom_finished {room : Nat}
    (stepped : step search r l pos stack = .ok (tokens, .finished)) :
    scanFrom search r l (room + 1) pos stack = .ok ⟨tokens, stack, false⟩ := by
  rw [scanFrom, stepped]
  rfl

theorem scanFrom_stalled {room : Nat}
    (stepped : step search r l pos stack = .ok (tokens, .stalled)) :
    scanFrom search r l (room + 1) pos stack = .ok ⟨tokens, stack, true⟩ := by
  rw [scanFrom, stepped]
  rfl

theorem scanFrom_moved {room pos' : Nat} {stack' : List Frame} {rest : LineResult}
    (stepped : step search r l pos stack = .ok (tokens, .moved pos' stack'))
    (later : scanFrom search r l room pos' stack' = .ok rest) :
    scanFrom search r l (room + 1) pos stack = .ok { rest with tokens := tokens ++ rest.tokens } := by
  rw [scanFrom, stepped]
  simp only [bind, Except.bind, later]
  rfl

/-- A run makes a step, and goes on behind it unless the step finishes the line or gives it up. -/
theorem scanFrom_cases {room : Nat} {line : LineResult}
    (scanned : scanFrom search r l (room + 1) pos stack = .ok line) :
    ∃ tokens outcome, step search r l pos stack = .ok (tokens, outcome) ∧
      ((outcome = .finished ∧ line = ⟨tokens, stack, false⟩) ∨
        (outcome = .stalled ∧ line = ⟨tokens, stack, true⟩) ∨
        ∃ pos' stack' rest, outcome = .moved pos' stack' ∧
          scanFrom search r l room pos' stack' = .ok rest ∧
          line = { rest with tokens := tokens ++ rest.tokens }) := by
  cases stepped : step search r l pos stack with
  | error defect => simp [scanFrom, stepped, bind, Except.bind] at scanned
  | ok result =>
    obtain ⟨tokens, outcome⟩ := result
    refine ⟨tokens, outcome, rfl, ?_⟩
    cases outcome with
    | finished =>
      rw [scanFrom_finished stepped] at scanned
      exact .inl ⟨rfl, (Except.ok.inj scanned).symm⟩
    | stalled =>
      rw [scanFrom_stalled stepped] at scanned
      exact .inr (.inl ⟨rfl, (Except.ok.inj scanned).symm⟩)
    | moved pos' stack' =>
      cases later : scanFrom search r l room pos' stack' with
      | error defect => simp [scanFrom, stepped, later, bind, Except.bind] at scanned
      | ok rest =>
        rw [scanFrom_moved stepped later] at scanned
        exact .inr (.inr ⟨pos', stack', rest, rfl, later, (Except.ok.inj scanned).symm⟩)

end

section Agreement

variable {search other : Search} {r : Repository} {l : Line}

theorem step_congr {pos : Nat} {stack : List Frame}
    (agree : ∀ o ∈ offers r.rules (context r stack), search o.pattern pos = other o.pattern pos) :
    step search r l pos stack = step other r l pos stack := by
  rw [step_eq_follow, step_eq_follow, choose_congr agree]

theorem scanFrom_congr {size : Nat} (agree : ∀ f pos, pos ≤ size → search f pos = other f pos)
    (within : other.Within size) (room : Nat) {pos : Nat} (inside : pos ≤ size)
    (stack : List Frame) :
    scanFrom search r l room pos stack = scanFrom other r l room pos stack := by
  induction room generalizing pos stack with
  | zero => rfl
  | succ room ih =>
    rw [scanFrom, scanFrom, step_congr fun o _ => agree o.pattern pos inside]
    cases stepped : step other r l pos stack with
    | error defect => rfl
    | ok result =>
      obtain ⟨tokens, outcome⟩ := result
      cases outcome with
      | finished => rfl
      | stalled => rfl
      | moved pos' stack' =>
        simp only [bind, Except.bind]
        rw [ih (step_moved_within within inside stepped).2 stack']

end Agreement

end ScopeGrammar.Scan
