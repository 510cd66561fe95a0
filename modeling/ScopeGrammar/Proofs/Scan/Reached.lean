import ScopeGrammar.Proofs.Scan.Known
import ScopeGrammar.Proofs.Scan.Search

/-!
The states that a scan gets to, and the tokens of its steps. Every token of a scan is made by a step
from such a state, as text that no rule has been applied to or as a match or a group of it.
-/

set_option autoImplicit false

namespace ScopeGrammar.Scan

open Regex (Found)

/-- How the tokens of a match are made: which groups have a tag, whether the whole match has a token
besides, and the scopes and rules of each of them. -/
structure Tagging where
  captures : Captures
  whole : Bool
  scopes : List String
  rules : List String

/-- How a match is tagged where it is taken. There is nothing to close outside all regions. -/
def Choice.tagging (ctx : Context) (stack : List Frame) : Choice → Option Tagging
  | .close => stack.head?.map fun frame =>
    ⟨frame.region.closingCaptures, false, frame.scopes, frame.rules⟩
  | .apply ⟨.single rule, names⟩ =>
    some ⟨rule.captures, rule.scope.isSome, within ctx.scopes rule.scope, ctx.rules ++ names⟩
  | .apply ⟨.region _ region _, names⟩ =>
    some ⟨region.openingCaptures, false, within ctx.scopes region.scope, ctx.rules ++ names⟩

def Tagging.tokens (g : Tagging) (l : Line) (found : Found) : List Token :=
  l.captured g.captures g.whole g.scopes g.rules found

section Step

variable {search : Search} {r : Repository} {l : Line} {pos : Nat} {stack : List Frame}
  {choice : Choice} {found : Found}

theorem take_tokens (choice : Choice) (l : Line) (pos : Nat) (ctx : Context) (stack : List Frame)
    (found : Found) :
    (choice.take l pos ctx stack found).1 =
      ((choice.tagging ctx stack).map fun g => g.tokens l found).getD [] := by
  cases choice with
  | close => cases stack <;> rfl
  | apply candidate =>
    obtain ⟨leaf, names⟩ := candidate
    cases leaf <;> rfl

theorem tagging_of_choose
    (chosen : choose search r.rules (context r stack) pos = .ok (some (choice, found))) :
    ∃ g, choice.tagging (context r stack) stack = some g := by
  cases choice with
  | close =>
    obtain ⟨o, there, same, -⟩ := offer_of_choose chosen
    rcases offers_cases there with ⟨-, closing⟩ | ⟨candidate, -, apply, -⟩
    · cases stack with
      | nil => simp [context] at closing
      | cons frame outer => exact ⟨_, rfl⟩
    · simp [apply] at same
  | apply candidate =>
    obtain ⟨leaf, names⟩ := candidate
    cases leaf <;> exact ⟨_, rfl⟩

theorem taken_eq {g : Tagging} (tags : choice.tagging (context r stack) stack = some g) :
    taken choice r l pos stack found =
      l.clipped pos found.whole.start (context r stack).scopes (context r stack).rules ++
        g.tokens l found := by
  rw [taken, take_tokens, tags]
  rfl

theorem mem_step {tokens : List Token} {outcome : Outcome}
    (stepped : step search r l pos stack = .ok (tokens, outcome)) {t : Token}
    (member : t ∈ tokens) :
    (∃ stop, t ∈ l.clipped pos stop (context r stack).scopes (context r stack).rules) ∨
      ∃ choice found g, choose search r.rules (context r stack) pos = .ok (some (choice, found)) ∧
        choice.tagging (context r stack) stack = some g ∧ t ∈ g.tokens l found := by
  rcases step_cases stepped with ⟨-, -, rfl⟩ | ⟨choice, found, chosen, rfl, -⟩
  · exact .inl ⟨_, member⟩
  · obtain ⟨g, tags⟩ := tagging_of_choose chosen
    rw [taken_eq tags, List.mem_append] at member
    rcases member with gap | matched
    · exact .inl ⟨_, gap⟩
    · exact .inr ⟨choice, found, g, chosen, tags, matched⟩

end Step

/-- The states that a scan of some lines gets to: the number of the line, how many steps have been
made in it, where they have led, and the regions that are open there. A line is left when a step
finishes it or gives it up, or when no further step is allowed. -/
inductive Reached (search : List Char → Search) (r : Repository) (lines : List (List Char)) :
    (number made pos : Nat) → List Frame → Prop where
  | start : Reached search r lines 0 0 0 []
  | moved {number made pos pos' : Nat} {stack stack' : List Frame} {content : List Char}
      {tokens : List Token} :
    Reached search r lines number made pos stack → lines[number]? = some content →
    made < mostSteps →
    step (search (Line.text ⟨number, content⟩)) r ⟨number, content⟩ pos stack =
      .ok (tokens, .moved pos' stack') →
    Reached search r lines number (made + 1) pos' stack'
  | ended {number made pos : Nat} {stack : List Frame} {content : List Char} {tokens : List Token}
      {outcome : Outcome} :
    Reached search r lines number made pos stack → lines[number]? = some content →
    made < mostSteps →
    step (search (Line.text ⟨number, content⟩)) r ⟨number, content⟩ pos stack =
      .ok (tokens, outcome) →
    outcome = .finished ∨ outcome = .stalled →
    Reached search r lines (number + 1) 0 0 stack
  | exhausted {number pos : Nat} {stack : List Frame} {content : List Char} :
    Reached search r lines number mostSteps pos stack → lines[number]? = some content →
    Reached search r lines (number + 1) 0 0 stack

section States

variable {search : List Char → Search} {r : Repository} {lines : List (List Char)}
  {number made pos : Nat} {stack : List Frame}

/-- What holds where nothing is open and is kept by every step holds of all that is ever open. -/
theorem Reached.invariant {holds : List Frame → Prop}
    (reached : Reached search r lines number made pos stack) (start : holds [])
    (keeps : ∀ {search : Search} {l : Line} {pos pos' : Nat} {stack stack' : List Frame}
      {tokens : List Token}, holds stack →
      step search r l pos stack = .ok (tokens, .moved pos' stack') → holds stack') :
    holds stack := by
  induction reached with
  | start => exact start
  | moved _ _ _ stepped ih => exact keeps ih stepped
  | ended _ _ _ _ _ ih => exact ih
  | exhausted _ _ ih => exact ih

theorem Reached.known (reached : Reached search r lines number made pos stack) : Known r stack :=
  reached.invariant known_nil fun known stepped => step_known known stepped

theorem Reached.inside (within : ∀ text, (search text).Within text.length)
    (reached : Reached search r lines number made pos stack) {content : List Char}
    (here : lines[number]? = some content) : pos ≤ (Line.text ⟨number, content⟩).length := by
  induction reached with
  | start => exact Nat.zero_le _
  | moved _ there _ stepped ih =>
    cases here.symm.trans there
    exact (step_moved_within (within _) (ih here) stepped).2
  | ended _ _ _ _ _ _ => exact Nat.zero_le _
  | exhausted _ _ _ => exact Nat.zero_le _

end States

theorem head_of_drop {α : Type} {l rest : List α} {n : Nat} {a : α} (there : l.drop n = a :: rest) :
    l[n]? = some a ∧ l.drop (n + 1) = rest := by
  refine ⟨by rw [← List.head?_drop, there]; rfl, ?_⟩
  rw [← List.drop_drop, there]
  rfl

/-- A step from a state that the scan gets to makes the token. -/
structure Made (search : List Char → Search) (r : Repository) (lines : List (List Char))
    (l : Line) (pos : Nat) (stack : List Frame) (t : Token) : Prop where
  line : lines[l.number]? = some l.content
  reached : ∃ made, Reached search r lines l.number made pos stack
  step : ∃ tokens outcome, step (search l.text) r l pos stack = .ok (tokens, outcome) ∧ t ∈ tokens

section Runs

variable {search : List Char → Search} {r : Repository} {lines : List (List Char)}

theorem scanFrom_reached {l : Line} (here : lines[l.number]? = some l.content) (room : Nat)
    {made pos : Nat} {stack : List Frame} (all : made + room = mostSteps)
    (reached : Reached search r lines l.number made pos stack) {line : LineResult}
    (scanned : scanFrom (search l.text) r l room pos stack = .ok line) :
    (∀ t ∈ line.tokens, ∃ pos stack, Made search r lines l pos stack t) ∧
      Reached search r lines (l.number + 1) 0 0 line.stack := by
  induction room generalizing made pos stack line with
  | zero =>
    cases scanned
    simp only [Nat.add_zero] at all
    subst all
    exact ⟨by simp, .exhausted reached here⟩
  | succ room ih =>
    have more : made < mostSteps := by omega
    obtain ⟨tokens, outcome, stepped, next⟩ := scanFrom_cases scanned
    have own : ∀ t ∈ tokens, ∃ pos stack, Made search r lines l pos stack t := fun t member =>
      ⟨pos, stack, here, ⟨made, reached⟩, tokens, outcome, stepped, member⟩
    rcases next with ⟨rfl, rfl⟩ | ⟨rfl, rfl⟩ | ⟨pos', stack', rest, rfl, later, rfl⟩
    · exact ⟨own, .ended reached here more stepped (.inl rfl)⟩
    · exact ⟨own, .ended reached here more stepped (.inr rfl)⟩
    · obtain ⟨made', reached'⟩ := ih (by omega) (.moved reached here more stepped) later
      exact ⟨List.forall_mem_append.2 ⟨own, made'⟩, reached'⟩

theorem scanPlain_reached (rest : List (List Char)) {number : Nat} {stack : List Frame}
    (behind : lines.drop number = rest) (reached : Reached search r lines number 0 0 stack)
    {result : Result} (scanned : scanPlain search r number rest stack = .ok result) :
    (∀ t ∈ result.tokens, ∃ l pos stack, Made search r lines l pos stack t) ∧
      ∃ number stack, lines.length ≤ number ∧ Reached search r lines number 0 0 stack ∧
        result.openRegions = (stack.map (·.label)).reverse := by
  induction rest generalizing number stack result with
  | nil =>
    cases scanned
    exact ⟨by simp, number, stack, List.drop_eq_nil_iff.1 behind, reached, rfl⟩
  | cons content rest ih =>
    obtain ⟨here, behind'⟩ := head_of_drop behind
    obtain ⟨line, later, first, next, rfl⟩ := scanPlain_cases scanned
    obtain ⟨own, reached'⟩ := scanFrom_reached here mostSteps (Nat.zero_add _) reached first
    obtain ⟨made, final⟩ := ih behind' reached' next
    exact ⟨List.forall_mem_append.2 ⟨fun t member => ⟨_, own t member⟩, made⟩, final⟩

/-- Every token of a scan is made by a step from a state that the scan gets to, and what is open at
the end is the stack of the last of them. -/
theorem scan_reached {engine : Regex.Engine} {source : String} {result : Result}
    (scanned : scanBy engine r source = .ok result) :
    (∀ t ∈ result.tokens, ∃ l pos stack,
      Made (searchBy engine) r (Text.lines source.toList) l pos stack t) ∧
      ∃ number stack, (Text.lines source.toList).length ≤ number ∧
        Reached (searchBy engine) r (Text.lines source.toList) number 0 0 stack ∧
        result.openRegions = (stack.map (·.label)).reverse := by
  rw [scanBy_eq_scanPlain] at scanned
  exact scanPlain_reached _ rfl .start scanned

end Runs

end ScopeGrammar.Scan
