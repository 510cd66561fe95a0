import ScopeGrammar.Proofs.Scan.Search

/-!
Scanning with two repositories side by side. Where each step with the one is a step with the other,
apart from what frames and tokens hold, so are the scans of all lines.
-/

set_option autoImplicit false

namespace ScopeGrammar.Scan

section Definitions

variable (frame : Frame → Frame) (token : Token → Token) (label : String → String)

def Outcome.map : Outcome → Outcome
  | .finished => .finished
  | .stalled => .stalled
  | .moved pos stack => .moved pos (stack.map frame)

def LineResult.map (line : LineResult) : LineResult :=
  { line with tokens := line.tokens.map token, stack := line.stack.map frame }

def Result.map (result : Result) : Result :=
  { result with tokens := result.tokens.map token, openRegions := result.openRegions.map label }

/-- The steps with the second repository are those with the first one, their frames and tokens
replaced, as long as such a stack is open as the steps with the first one keep to. -/
structure Mirrors (Held : List Frame → Prop) (r r' : Repository) : Prop where
  step {search : Search} {l : Line} {pos : Nat} {stack : List Frame} : Held stack →
    Scan.step search r' l pos (stack.map frame) =
      (Scan.step search r l pos stack).map fun done => (done.1.map token, done.2.map frame)
  held {search : Search} {l : Line} {pos pos' : Nat} {stack stack' : List Frame}
    {tokens : List Token} : Held stack →
    Scan.step search r l pos stack = .ok (tokens, .moved pos' stack') → Held stack'

end Definitions

@[simp] theorem Outcome.map_id (outcome : Outcome) : outcome.map id = outcome := by
  cases outcome <;> simp [Outcome.map]

@[simp] theorem Result.map_id (result : Result) : result.map id id = result := by
  simp [Result.map]

variable {frame : Frame → Frame} {token : Token → Token} {Held : List Frame → Prop}
  {r r' : Repository}

theorem Mirrors.scanFrom_eq (mirrors : Mirrors frame token Held r r') (search : Search) (l : Line)
    (room pos : Nat) {stack : List Frame} (held : Held stack) :
    scanFrom search r' l room pos (stack.map frame) =
        (scanFrom search r l room pos stack).map (LineResult.map frame token) ∧
      ∀ line, scanFrom search r l room pos stack = .ok line → Held line.stack := by
  induction room generalizing pos stack with
  | zero =>
    refine ⟨rfl, ?_⟩
    rintro _ ⟨⟩
    exact held
  | succ room ih =>
    rw [scanFrom, scanFrom, mirrors.step held]
    cases stepped : Scan.step search r l pos stack with
    | error defect => exact ⟨rfl, by simp [bind, Except.bind]⟩
    | ok done =>
      obtain ⟨tokens, outcome⟩ := done
      cases outcome with
      | finished | stalled =>
        refine ⟨rfl, ?_⟩
        rintro _ ⟨⟩
        exact held
      | moved pos' stack' =>
        obtain ⟨same, kept⟩ := ih pos' (mirrors.held held stepped)
        simp only [Except.map, Outcome.map, bind, Except.bind, same]
        cases scanned : scanFrom search r l room pos' stack' with
        | error defect => exact ⟨rfl, by simp⟩
        | ok rest =>
          refine ⟨by simp [pure, Except.pure, LineResult.map], ?_⟩
          rintro _ ⟨⟩
          exact kept rest scanned

theorem Mirrors.scanPlain_eq (mirrors : Mirrors frame token Held r r')
    (search : List Char → Search) (label : String → String)
    (labels : ∀ f : Frame, (frame f).label = label f.label)
    (lines : List (List Char)) (number : Nat) {stack : List Frame} (held : Held stack) :
    scanPlain search r' number lines (stack.map frame) =
      (scanPlain search r number lines stack).map (Result.map token label) := by
  induction lines generalizing number stack with
  | nil => simp [scanPlain, Except.map, Result.map, labels, Function.comp_def]
  | cons content rest ih =>
    obtain ⟨same, kept⟩ := mirrors.scanFrom_eq (search (Line.text ⟨number, content⟩))
      ⟨number, content⟩ mostSteps 0 held
    rw [scanPlain, scanPlain]
    simp only [scanLine, same]
    cases scanned : scanFrom (search (Line.text ⟨number, content⟩)) r ⟨number, content⟩ mostSteps 0
        stack with
    | error defect => rfl
    | ok line =>
      simp only [Except.map, bind, Except.bind]
      rw [LineResult.map, ih (number + 1) (kept line scanned)]
      cases scanPlain search r (number + 1) rest line.stack with
      | error defect => rfl
      | ok result => simp [Except.map, pure, Except.pure, Result.map]

end ScopeGrammar.Scan
