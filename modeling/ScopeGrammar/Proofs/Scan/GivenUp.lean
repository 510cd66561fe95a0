import ScopeGrammar.Proofs.Result
import ScopeGrammar.Proofs.Scan.Reached
import ScopeGrammar.Proofs.Text.Lines

/-!
Scans with an engine that gives up searches. They go as with an engine that gives up none, until a
search is given up, which fails them.
-/

set_option autoImplicit false

namespace ScopeGrammar.Scan

open Regex (Engine)

/-- The engine gives up a search of a text for a pattern of the repository. -/
def GivesUpIn (engine : Engine) (r : Repository) (text : List Char) : Prop :=
  ∃ leaf ∈ leaves r, ∃ f ∈ leaf.fragments, ∃ regex pos,
    linePattern f = .ok regex ∧ engine.givesUp regex text pos = true

/-- The outcome is as expected, or it is the defect of a search because the engine gives up a search
of one of the lines. -/
def UnlessGivenUp {α : Type} (engine : Engine) (r : Repository) (lines : List (List Char))
    (outcome expected : Except Defect α) : Prop :=
  outcome = expected ∨
    outcome = .error (.badPattern (.top .search) .whole) ∧
      ∃ content ∈ lines, GivesUpIn engine r (content ++ ['\n'])

section Outcomes

variable {α β : Type} {engine : Engine} {r : Repository} {lines more : List (List Char)}
  {x y : Except Defect α}

theorem UnlessGivenUp.mono (expected : UnlessGivenUp engine r lines x y) (within : lines ⊆ more) :
    UnlessGivenUp engine r more x y :=
  expected.imp_right fun ⟨failed, content, member, givenUp⟩ =>
    ⟨failed, content, within member, givenUp⟩

theorem UnlessGivenUp.ok (expected : UnlessGivenUp engine r lines x y) {a : α} (is : x = .ok a) :
    y = .ok a := by
  rcases expected with same | ⟨failed, -⟩
  · rw [← same, is]
  · rw [is] at failed
    cases failed

theorem UnlessGivenUp.of_line {l : Line} (expected : UnlessGivenUp engine r [l.content] x y) :
    x = y ∨ GivesUpIn engine r l.text := by
  refine expected.imp_right fun ⟨_, content, member, givenUp⟩ => ?_
  obtain rfl := List.mem_singleton.1 member
  exact givenUp

theorem UnlessGivenUp.bind {f g : α → Except Defect β} (expected : UnlessGivenUp engine r lines x y)
    (later : ∀ a, y = .ok a → UnlessGivenUp engine r lines (f a) (g a)) :
    UnlessGivenUp engine r lines (x >>= f) (y >>= g) := by
  rcases expected with rfl | ⟨rfl, givenUp⟩
  · cases x with
    | error defect => exact .inl rfl
    | ok a => exact later a rfl
  · exact .inr ⟨rfl, givenUp⟩

theorem UnlessGivenUp.map (expected : UnlessGivenUp engine r lines x y) (f : α → β) :
    UnlessGivenUp engine r lines (x.map f) (y.map f) := by
  rcases expected with rfl | ⟨rfl, givenUp⟩
  · exact .inl rfl
  · exact .inr ⟨rfl, givenUp⟩

theorem unlessGivenUp_patient : UnlessGivenUp .patient r lines x y ↔ x = y := by
  refine ⟨fun expected => ?_, .inl⟩
  rcases expected with same | ⟨-, content, -, leaf, -, f, -, regex, pos, -, givenUp⟩
  · exact same
  · cases givenUp

end Outcomes

variable {r : Repository} {stack : List Frame}

theorem choose_givenUp {engine : Engine} {text : List Char} {rules : Rules} {ctx : Context}
    {pos : Nat} {o : Offer} (offered : o ∈ offers rules ctx) {regex : Regex}
    (read : linePattern o.pattern = .ok regex) (givenUp : engine.givesUp regex text pos = true) :
    choose (searchBy engine text) rules ctx pos = .error (.badPattern (.top .search) .whole) := by
  cases chosen : choose (searchBy engine text) rules ctx pos with
  | error defect =>
    obtain ⟨other, -, failed⟩ := choose_error chosen
    rw [defect_of_searchBy failed]
  | ok result =>
    obtain ⟨other, read', kept⟩ := searchBy_ok_iff.1 (choose_answered chosen o offered)
    cases read.symm.trans read'
    cases givenUp.symm.trans kept

/-- A search that is given up fails the step, and with it the scan of the line. -/
theorem scanFrom_givenUp {engine : Engine} {l : Line} {pos : Nat} {o : Offer}
    (offered : o ∈ offers r.rules (context r stack)) {regex : Regex}
    (read : linePattern o.pattern = .ok regex)
    (givenUp : engine.givesUp regex l.text pos = true) :
    step (searchBy engine l.text) r l pos stack = .error (.badPattern (.top .search) .whole) ∧
      ∀ room, scanFrom (searchBy engine l.text) r l (room + 1) pos stack =
        .error (.badPattern (.top .search) .whole) := by
  have failed : step (searchBy engine l.text) r l pos stack =
      .error (.badPattern (.top .search) .whole) := by
    rw [step_eq_follow, choose_givenUp offered read givenUp]
    rfl
  refine ⟨failed, fun room => ?_⟩
  rw [scanFrom, failed]
  rfl

theorem scanBy_of_scanFrom_error {engine : Engine} {content : List Char} {defect : Defect}
    (inLine : '\n' ∉ content) (some : content ≠ [])
    (failed : scanFrom (searchBy engine (Line.text ⟨0, content⟩)) r ⟨0, content⟩ mostSteps 0 [] =
      .error defect) :
    scanBy engine r (String.ofList content) = .error defect := by
  rw [scanBy_eq_scanPlain, String.toList_ofList, Text.lines_of_not_mem inLine, if_neg some,
    scanPlain, scanLine, failed]
  rfl

theorem choose_unlessGivenUp (engine : Engine) (known : Known r stack) (l : Line) (pos : Nat) :
    UnlessGivenUp engine r [l.content]
      (choose (searchBy engine l.text) r.rules (context r stack) pos)
      (choose (searchIn l.text) r.rules (context r stack) pos) := by
  by_cases kept : ∀ o ∈ offers r.rules (context r stack), ∀ regex,
    linePattern o.pattern = .ok regex → engine.givesUp regex l.text pos = false
  · exact .inl (choose_congr fun o offered => searchBy_eq_searchIn engine _ _ _ (kept o offered))
  · simp only [Classical.not_forall, Bool.not_eq_false] at kept
    obtain ⟨o, offered, regex, read, givenUp⟩ := kept
    obtain ⟨leaf, inside, member⟩ := leaf_of_offer known offered
    exact .inr ⟨choose_givenUp offered read givenUp, l.content, List.mem_singleton_self _, leaf,
      inside, o.pattern, member, regex, pos, read, givenUp⟩

theorem step_unlessGivenUp (engine : Engine) (known : Known r stack) (l : Line) (pos : Nat) :
    UnlessGivenUp engine r [l.content] (step (searchBy engine l.text) r l pos stack)
      (step (searchIn l.text) r l pos stack) := by
  rw [step_eq_follow, step_eq_follow]
  exact (choose_unlessGivenUp engine known l pos).map _

theorem scanFrom_unlessGivenUp (engine : Engine) (known : Known r stack) (l : Line)
    (room pos : Nat) :
    UnlessGivenUp engine r [l.content] (scanFrom (searchBy engine l.text) r l room pos stack)
      (scanFrom (searchIn l.text) r l room pos stack) := by
  induction room generalizing pos stack with
  | zero => exact .inl rfl
  | succ room ih =>
    rw [scanFrom, scanFrom]
    refine (step_unlessGivenUp engine known l pos).bind fun done stepped => ?_
    obtain ⟨tokens, outcome⟩ := done
    cases outcome with
    | finished | stalled => exact .inl rfl
    | moved pos' stack' => exact (ih (step_known known stepped) pos').bind fun _ _ => .inl rfl

theorem scanFrom_known {search : Search} {l : Line} (room : Nat) {pos : Nat} (known : Known r stack)
    {line : LineResult} (scanned : scanFrom search r l room pos stack = .ok line) :
    Known r line.stack := by
  induction room generalizing pos stack line with
  | zero =>
    cases scanned
    exact known
  | succ room ih =>
    obtain ⟨tokens, outcome, stepped, next⟩ := scanFrom_cases scanned
    rcases next with ⟨-, rfl⟩ | ⟨-, rfl⟩ | ⟨pos', stack', rest, rfl, later, rfl⟩
    · exact known
    · exact known
    · have inside : Known r rest.stack := ih (step_known known stepped) later
      exact inside

theorem scanPlain_unlessGivenUp (engine : Engine) (known : Known r stack)
    (lines : List (List Char)) (number : Nat) :
    UnlessGivenUp engine r lines (scanPlain (searchBy engine) r number lines stack)
      (scanPlain searchIn r number lines stack) := by
  induction lines generalizing number stack with
  | nil => exact .inl rfl
  | cons content rest ih =>
    rw [scanPlain, scanPlain]
    have first := scanFrom_unlessGivenUp engine known ⟨number, content⟩ mostSteps 0
    refine (first.mono (by simp)).bind fun line scanned => ?_
    refine ((ih (scanFrom_known mostSteps known scanned) (number + 1)).mono ?_).bind
      fun _ _ => .inl rfl
    exact List.subset_cons_self _ _

/-- Every engine gives what a patient one gives, unless it gives up a search of a line. -/
theorem scanBy_unlessGivenUp (engine : Engine) (r : Repository) (source : String) :
    UnlessGivenUp engine r (Text.lines source.toList) (scanBy engine r source)
      (scanBy .patient r source) := by
  rw [scanBy_eq_scanPlain, scanBy_eq_scanPlain]
  exact scanPlain_unlessGivenUp engine known_nil _ 0

theorem scanBy_of_scanPlain {source : String} {result : Result}
    (scanned : scanPlain searchIn r 0 (Text.lines source.toList) [] = .ok result)
    (engine : Engine) :
    UnlessGivenUp engine r (Text.lines source.toList) (scanBy engine r source) (.ok result) := by
  have expected := scanBy_unlessGivenUp engine r source
  rwa [scanBy_eq_scanPlain .patient, show searchBy .patient = searchIn from rfl, scanned] at expected

theorem Reached.patient {engine : Engine} {lines : List (List Char)} {number made pos : Nat}
    (reached : Reached (searchBy engine) r lines number made pos stack) :
    Reached searchIn r lines number made pos stack := by
  induction reached with
  | start => exact .start
  | moved before here more stepped ih =>
    exact .moved ih here more ((step_unlessGivenUp engine before.known _ _).ok stepped)
  | ended before here more stepped final ih =>
    exact .ended ih here more ((step_unlessGivenUp engine before.known _ _).ok stepped) final
  | exhausted _ here ih => exact .exhausted ih here

end ScopeGrammar.Scan
