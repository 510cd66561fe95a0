import ScopeGrammar.Proofs.Scan.Reached

set_option autoImplicit false

namespace ScopeGrammar.Scan

section Failing

variable {search : List Char → Search} {r : Repository} {lines : List (List Char)}

theorem choose_of_step_error {search : Search} {l : Line} {pos : Nat} {stack : List Frame}
    {defect : Defect} (failed : step search r l pos stack = .error defect) :
    choose search r.rules (context r stack) pos = .error defect := by
  cases chosen : choose search r.rules (context r stack) pos with
  | error other =>
    rw [step, chosen] at failed
    cases failed
    rfl
  | ok result =>
    cases result with
    | none =>
      rw [step_of_choose_none chosen] at failed
      cases failed
    | some result =>
      rw [step_of_choose_some chosen] at failed
      cases failed

/-- A choice in a state that the scan gets to and steps from has failed. -/
def Fails (search : List Char → Search) (r : Repository) (lines : List (List Char))
    (defect : Defect) : Prop :=
  ∃ number made pos stack content, Reached search r lines number made pos stack ∧
    lines[number]? = some content ∧ made < mostSteps ∧
    choose (search (Line.text ⟨number, content⟩)) r.rules (context r stack) pos = .error defect

theorem scanFrom_fails {l : Line} (here : lines[l.number]? = some l.content) (room : Nat)
    {made pos : Nat} {stack : List Frame} (all : made + room = mostSteps)
    (reached : Reached search r lines l.number made pos stack) {defect : Defect}
    (failed : scanFrom (search l.text) r l room pos stack = .error defect) :
    Fails search r lines defect := by
  induction room generalizing made pos stack with
  | zero => cases failed
  | succ room ih =>
    have more : made < mostSteps := by omega
    cases stepped : step (search l.text) r l pos stack with
    | error other =>
      rw [scanFrom, stepped] at failed
      cases failed
      exact ⟨_, made, pos, stack, _, reached, here, more, choose_of_step_error stepped⟩
    | ok result =>
      obtain ⟨tokens, outcome⟩ := result
      cases outcome with
      | finished =>
        rw [scanFrom_finished stepped] at failed
        cases failed
      | stalled =>
        rw [scanFrom_stalled stepped] at failed
        cases failed
      | moved pos' stack' =>
        cases later : scanFrom (search l.text) r l room pos' stack' with
        | error other =>
          rw [scanFrom, stepped] at failed
          simp only [bind, Except.bind, later] at failed
          cases failed
          exact ih (by omega) (.moved reached here more stepped) later
        | ok line =>
          rw [scanFrom_moved stepped later] at failed
          cases failed

theorem scanPlain_fails (rest : List (List Char)) {number : Nat} {stack : List Frame}
    (behind : lines.drop number = rest) (reached : Reached search r lines number 0 0 stack)
    {defect : Defect} (failed : scanPlain search r number rest stack = .error defect) :
    Fails search r lines defect := by
  induction rest generalizing number stack with
  | nil => cases failed
  | cons content rest ih =>
    obtain ⟨here, behind'⟩ := head_of_drop behind
    cases first : scanLine (search (Line.text ⟨number, content⟩)) r ⟨number, content⟩ stack with
    | error other =>
      rw [scanPlain] at failed
      simp only [first, bind, Except.bind] at failed
      cases failed
      exact scanFrom_fails here mostSteps (Nat.zero_add _) reached first
    | ok line =>
      have reached' := (scanFrom_reached here mostSteps (Nat.zero_add _) reached first).2
      cases later : scanPlain search r (number + 1) rest line.stack with
      | error other =>
        rw [scanPlain] at failed
        simp only [first, later, bind, Except.bind] at failed
        cases failed
        exact ih behind' reached' later
      | ok result =>
        rw [scanPlain] at failed
        simp only [first, later, bind, Except.bind] at failed
        cases failed

theorem scan_fails {engine : Regex.Engine} {source : String} {defect : Defect}
    (failed : scanBy engine r source = .error defect) :
    Fails (searchBy engine) r (Text.lines source.toList) defect := by
  rw [scanBy_eq_scanPlain] at failed
  exact scanPlain_fails _ rfl .start failed

end Failing

/-- Every choice that a scan can come to is answered. -/
def Answers (r : Repository) : Prop :=
  ∀ stack, Known r stack → ∀ text pos, ∃ result,
    choose (searchIn text) r.rules (context r stack) pos = .ok result

theorem Answers.scan {r : Repository} (answers : Answers r) (source : String) :
    ∃ result, scanBy .patient r source = .ok result := by
  cases scanned : scanBy .patient r source with
  | ok result => exact ⟨result, rfl⟩
  | error defect =>
    obtain ⟨number, made, pos, stack, content, reached, -, -, failed⟩ := scan_fails scanned
    obtain ⟨result, answered⟩ := answers stack reached.known (Line.text ⟨number, content⟩) pos
    rw [searchIn, failed] at answered
    cases answered

section Succeeding

variable {search : List Char → Search} {r : Repository} {lines : List (List Char)}
  {number made pos : Nat} {stack : List Frame}

/-- Where a scan that gives a result gets to, the rest of the line is scanned, and so are the lines
behind it. -/
def Resumes (search : List Char → Search) (r : Repository) (lines : List (List Char))
    (number made pos : Nat) (stack : List Frame) : Prop :=
  ∀ content, lines[number]? = some content → ∃ line result,
    scanFrom (search (Line.text ⟨number, content⟩)) r ⟨number, content⟩ (mostSteps - made) pos
        stack = .ok line ∧
      scanPlain search r (number + 1) (lines.drop (number + 1)) line.stack = .ok result

theorem resumes_of_scanPlain {result : Result}
    (scanned : scanPlain search r number (lines.drop number) stack = .ok result) :
    Resumes search r lines number 0 0 stack := by
  intro content here
  obtain ⟨inside, rfl⟩ := List.getElem?_eq_some_iff.1 here
  rw [List.drop_eq_getElem_cons inside] at scanned
  obtain ⟨line, later, first, next, -⟩ := scanPlain_cases scanned
  exact ⟨line, later, first, next⟩

theorem Reached.resumes (scanned : ∃ result, scanPlain search r 0 lines [] = .ok result)
    (reached : Reached search r lines number made pos stack) :
    Resumes search r lines number made pos stack := by
  induction reached with
  | start =>
    obtain ⟨result, scanned⟩ := scanned
    exact resumes_of_scanPlain scanned
  | @moved number made pos pos' stack stack' content tokens _ here more stepped ih =>
    intro other there
    cases here.symm.trans there
    obtain ⟨line, result, rest, later⟩ := ih content here
    rw [show mostSteps - made = mostSteps - (made + 1) + 1 by omega] at rest
    obtain ⟨tokens', outcome, stepped', next⟩ := scanFrom_cases rest
    rw [stepped] at stepped'
    cases stepped'
    rcases next with ⟨no, -⟩ | ⟨no, -⟩ | ⟨pos'', stack'', line', same, rest', rfl⟩
    · cases no
    · cases no
    · cases same
      exact ⟨line', result, rest', later⟩
  | @ended number made pos stack content tokens outcome _ here more stepped final ih =>
    obtain ⟨line, result, rest, later⟩ := ih content here
    rw [show mostSteps - made = mostSteps - (made + 1) + 1 by omega] at rest
    obtain ⟨tokens', outcome', stepped', next⟩ := scanFrom_cases rest
    rw [stepped] at stepped'
    cases stepped'
    have same : line.stack = stack := by
      rcases next with ⟨-, rfl⟩ | ⟨-, rfl⟩ | ⟨_, _, _, rfl, -⟩
      · rfl
      · rfl
      · simp at final
    exact resumes_of_scanPlain (same ▸ later)
  | @exhausted number pos stack content _ here ih =>
    obtain ⟨line, result, rest, later⟩ := ih content here
    rw [Nat.sub_self] at rest
    cases rest
    exact resumes_of_scanPlain later

theorem Reached.answered {engine : Regex.Engine} {source : String} {result : Result}
    (scanned : scanBy engine r source = .ok result)
    (reached : Reached (searchBy engine) r (Text.lines source.toList) number made pos stack)
    {content : List Char} (here : (Text.lines source.toList)[number]? = some content)
    (more : made < mostSteps) :
    ∃ result, choose (searchBy engine (Line.text ⟨number, content⟩)) r.rules (context r stack) pos =
      .ok result := by
  rw [scanBy_eq_scanPlain] at scanned
  obtain ⟨line, later, rest, -⟩ := reached.resumes ⟨result, scanned⟩ content here
  rw [show mostSteps - made = mostSteps - (made + 1) + 1 by omega] at rest
  obtain ⟨tokens, outcome, stepped, -⟩ := scanFrom_cases rest
  rcases step_cases stepped with ⟨chosen, -⟩ | ⟨choice, found, chosen, -⟩
  · exact ⟨_, chosen⟩
  · exact ⟨_, chosen⟩

end Succeeding

section Searching

variable {engine : Regex.Engine} {r : Repository} {source : String} {f : Fragment}
  {text : List Char} {pos : Nat}

/-- A scan of some lines searches the text of one of them for the fragment: it is offered in a state
that the scan gets to and steps from. -/
def Searched (engine : Regex.Engine) (r : Repository) (lines : List (List Char)) (f : Fragment)
    (text : List Char) (pos : Nat) : Prop :=
  ∃ number made stack content, Reached (searchBy engine) r lines number made pos stack ∧
    lines[number]? = some content ∧ made < mostSteps ∧ text = Line.text ⟨number, content⟩ ∧
    ∃ o ∈ offers r.rules (context r stack), o.pattern = f

theorem searched_of_scan_error {defect : Defect} (failed : scanBy engine r source = .error defect) :
    defect = .badPattern (.top .search) .whole ∧
      ∃ f text pos, Searched engine r (Text.lines source.toList) f text pos ∧
        ∀ regex, linePattern f = .ok regex → engine.givesUp regex text pos = true := by
  obtain ⟨number, made, pos, stack, content, reached, here, more, unanswered⟩ := scan_fails failed
  obtain ⟨o, offered, failed⟩ := choose_error unanswered
  refine ⟨defect_of_searchBy failed, o.pattern, Line.text ⟨number, content⟩, pos,
    ⟨number, made, stack, content, reached, here, more, rfl, o, offered, rfl⟩, fun regex read => ?_⟩
  rw [← Bool.not_eq_false]
  intro kept
  obtain ⟨answer, answered⟩ := searchBy_ok_iff.2 ⟨regex, read, kept⟩
  rw [failed] at answered
  cases answered

theorem answered_of_scan {result : Result} (scanned : scanBy engine r source = .ok result)
    (searched : Searched engine r (Text.lines source.toList) f text pos) :
    ∃ regex, linePattern f = .ok regex ∧ engine.givesUp regex text pos = false := by
  obtain ⟨number, made, stack, content, reached, here, more, rfl, o, offered, rfl⟩ := searched
  obtain ⟨chosen, answered⟩ := reached.answered scanned here more
  exact searchBy_ok_iff.1 (choose_answered answered o offered)

end Searching

end ScopeGrammar.Scan
