import ScopeGrammar.Scan.Candidate
import ScopeGrammar.Scan.Token

/-!
Scanning one line. A step searches the rest of the line for the end of the innermost region and for
the region's children, takes the match that starts first, and of several the one asked for first.
The line is given up where a step would lead to no end: a match that does not move on, a region that
is entered again or left again without moving on.
-/

set_option autoImplicit false

namespace ScopeGrammar.Scan

open Regex (Found Span)

abbrev Search := Fragment → Nat → Except Defect (Option Found)

structure Frame where
  site : Site
  region : Region
  children : List Pattern
  label : String
  line : Nat
  /-- The position from which the region was searched for. -/
  pos : Nat
  scopes : List String
  contentScopes : List String
  rules : List String

/-- What holds at a place that no rule has been applied to. -/
structure Context where
  site : Site
  children : List Pattern
  closing : Option Fragment
  scopes : List String
  rules : List String

def context (r : Repository) : List Frame → Context
  | [] => ⟨.top .entry, r.entry, none, [r.metadata.scopeName], []⟩
  | frame :: _ =>
    ⟨frame.site, frame.children, some frame.region.closing, frame.contentScopes, frame.rules⟩

inductive Choice where
  | close
  | apply (candidate : Candidate)

/-- The earlier of two finds; the first of them where both start at the same place. -/
def earlier (best : Option (Choice × Found)) (choice : Choice) :
    Option Found → Option (Choice × Found)
  | none => best
  | some found =>
    match best with
    | none => some (choice, found)
    | some (_, other) => if found.whole.start < other.whole.start then some (choice, found) else best

/-- The earliest find among the candidates and what has been found before. -/
def earliest (search : Search) (pos : Nat) :
    Option (Choice × Found) → List Candidate → Except Defect (Option (Choice × Found))
  | best, [] => .ok best
  | best, candidate :: rest => do
    let found ← search candidate.leaf.pattern pos
    earliest search pos (earlier best (.apply candidate) found) rest

/-- What a step takes; the end of the region is asked for before its children. -/
def choose (search : Search) (rules : Rules) (ctx : Context) (pos : Nat) :
    Except Defect (Option (Choice × Found)) := do
  let closing ← match ctx.closing with
    | none => .ok none
    | some closing => search closing pos
  earliest search pos (earlier none .close closing) (candidates rules ctx.site ctx.children)

/-- A line with the line feed behind it. -/
structure Line where
  number : Nat
  content : List Char

def Line.text (l : Line) : List Char := l.content ++ ['\n']

def Line.piece (l : Line) (start stop : Nat) (scopes rules : List String) : List Token :=
  if start < stop then
    let before := byteSize (l.text.take start)
    let text := (l.text.drop start).take (stop - start)
    [⟨l.number, before, before + byteSize text, String.ofList text, scopes, rules⟩]
  else []

def Line.clipped (l : Line) (start stop : Nat) (scopes rules : List String) : List Token :=
  l.piece start (min stop l.content.length) scopes rules

def within (scopes : List String) (scope : Option String) : List String :=
  scopes ++ scope.toList

/-- The tokens of the tagged groups of a match. The whole match has a token too if it is asked for,
and if nothing is tagged. -/
def Line.captured (l : Line) (captures : Captures) (whole : Bool) (scopes rules : List String)
    (found : Found) : List Token :=
  let spans := (some found.whole :: found.groups).zipIdx
  spans.flatMap fun (span, index) =>
    match span, captures.get? index with
    | none, _ => []
    | some span, some tag => l.piece span.start span.stop (scopes ++ [tag]) rules
    | some span, none =>
      if index = 0 && (whole || captures.isEmpty) then l.clipped span.start span.stop scopes rules
      else []

/-- What taking a match does: the tokens of the match and the stack behind it. -/
def Choice.take (choice : Choice) (l : Line) (pos : Nat) (ctx : Context) (stack : List Frame)
    (found : Found) : List Token × List Frame :=
  match choice with
  | .close =>
    match stack with
    | [] => ([], [])
    | frame :: outer =>
      (l.captured frame.region.closingCaptures false frame.scopes frame.rules found, outer)
  | .apply candidate =>
    let rules := ctx.rules ++ candidate.names
    match candidate.leaf with
    | .single rule =>
      (l.captured rule.captures rule.scope.isSome (within ctx.scopes rule.scope) rules found, stack)
    | .region site region children =>
      let scopes := within ctx.scopes region.scope
      let frame : Frame :=
        { site, region, children, scopes, rules
          label := candidate.names.getLast?.getD "<inline>"
          line := l.number
          pos
          contentScopes := within scopes region.contentScope }
      (l.captured region.openingCaptures false scopes rules found, frame :: stack)

/-- Whether a match leads nowhere. It does not move on, and it is of a rule without regions, or
leaves the region that was entered here, or enters a region that has been entered here. -/
def Choice.stalls (choice : Choice) (l : Line) (pos : Nat) (stack : List Frame) (found : Found) :
    Bool :=
  found.whole.stop ≤ pos &&
    match choice with
    | .close => stack.head?.any fun frame => frame.line = l.number && frame.pos = pos
    | .apply candidate =>
      match candidate.leaf with
      | .single _ => true
      | .region site _ _ =>
        (stack.takeWhile fun frame => frame.line = l.number && frame.pos = pos).any
          (·.site = site)

inductive Outcome where
  | finished
  | stalled
  | moved (pos : Nat) (stack : List Frame)

def step (search : Search) (r : Repository) (l : Line) (pos : Nat) (stack : List Frame) :
    Except Defect (List Token × Outcome) := do
  let ctx := context r stack
  match ← choose search r.rules ctx pos with
  | none => return (l.clipped pos l.content.length ctx.scopes ctx.rules, .finished)
  | some (choice, found) =>
    let gap := l.clipped pos found.whole.start ctx.scopes ctx.rules
    let (tokens, next) := choice.take l pos ctx stack found
    if choice.stalls l pos stack found then return (gap ++ tokens, .stalled)
    else return (gap ++ tokens, .moved (max pos found.whole.stop) next)

structure LineResult where
  tokens : List Token
  stack : List Frame
  stalled : Bool

/-- Step on until the line is finished or given up, or `room` steps have been made. -/
def scanFrom (search : Search) (r : Repository) (l : Line) :
    (room : Nat) → (pos : Nat) → (stack : List Frame) → Except Defect LineResult
  | 0, _, stack => .ok ⟨[], stack, true⟩
  | room + 1, pos, stack => do
    match ← step search r l pos stack with
    | (tokens, .finished) => return ⟨tokens, stack, false⟩
    | (tokens, .stalled) => return ⟨tokens, stack, true⟩
    | (tokens, .moved pos stack) =>
      let rest ← scanFrom search r l room pos stack
      return { rest with tokens := tokens ++ rest.tokens }

def mostSteps : Nat := 10000

def scanLine (search : Search) (r : Repository) (l : Line) (stack : List Frame) :
    Except Defect LineResult :=
  scanFrom search r l mostSteps 0 stack

end ScopeGrammar.Scan
