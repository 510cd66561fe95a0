import ScopeGrammar.Regex.CharSet

/-!
Syntax trees of regular expressions. Capturing groups carry no number: group `k` of a tree is the
`k`th one in the order of their opening, so that a tree can stand inside another one unchanged.
-/

set_option autoImplicit false

namespace ScopeGrammar.Regex

inductive Anchor where
  | textStart
  | textEnd
  | lineStart
  | lineEnd
  | wordEdge
  | notWordEdge
  deriving DecidableEq, Repr

inductive Node where
  | empty
  /-- Matches nowhere; it ends the list of alternatives that `alt` begins. -/
  | never
  | set (s : CharSet)
  | anchor (a : Anchor)
  | seq (first second : Node)
  | alt (first others : Node)
  | group (body : Node)
  /-- At least `least` rounds of `body` and at most `most`, without bound for `none`. -/
  | many (least : Nat) (most : Option Nat) (greedy : Bool) (body : Node)
  | ahead (body : Node)
  | notAhead (body : Node)
  | behind (body : Node)
  | notBehind (body : Node)
  /-- Only the first way to match `body` is tried. -/
  | atomic (body : Node)
  /-- The text that a group matched last. -/
  | back (group : Nat)
  deriving DecidableEq, Repr

namespace Node

def groups : Node → Nat
  | .empty | .never | .set _ | .anchor _ | .back _ => 0
  | .seq a b | .alt a b => a.groups + b.groups
  | .group a => a.groups + 1
  | .many _ _ _ a | .ahead a | .notAhead a | .behind a | .notBehind a | .atomic a => a.groups

def sequence : List Node → Node
  | [] => .empty
  | [a] => a
  | a :: rest => .seq a (sequence rest)

def branches : List Node → Node
  | [] => .never
  | a :: rest => .alt a (branches rest)

/-- One alternative stands for itself. -/
def alternatives : List Node → Node
  | [a] => a
  | nodes => branches nodes

/-- The number of characters of every match, where the shape of the tree fixes it. -/
def width : Node → Option Nat
  | .empty | .anchor _ | .ahead _ | .notAhead _ | .behind _ | .notBehind _ => some 0
  | .never | .back _ => none
  | .set _ => some 1
  | .seq a b => do return (← a.width) + (← b.width)
  | .alt a .never => a.width
  | .alt a b => do
    let n ← a.width
    if (← b.width) = n then return n else none
  | .group a | .atomic a => a.width
  | .many least most _ a => do
    let n ← a.width
    if most = some least then return n * least else none

def choices : Node → List Node
  | .alt a b => a :: b.choices
  | _ => []

/-- A quantifier may follow anything but nothing, an anchor or a lookaround. -/
def repeatable : Node → Bool
  | .empty | .anchor _ | .ahead _ | .notAhead _ | .behind _ | .notBehind _ => false
  | _ => true

/-- The look back at `body`, which needs a fixed width; alternatives may differ in theirs. -/
def lookBehind (body : Node) : Option Node :=
  if body.width.isSome then some (.behind body)
  else if body.choices ≠ [] && body.choices.all (·.width.isSome) then
    some (branches (body.choices.map .behind))
  else none

/-- The denial of `lookBehind`: no alternative matches up to here. -/
def notLookBehind (body : Node) : Option Node :=
  if body.width.isSome then some (.notBehind body)
  else if body.choices ≠ [] && body.choices.all (·.width.isSome) then
    some (sequence (body.choices.map .notBehind))
  else none

/-- The tree with every look back as one that can be matched. -/
def lookable : Node → Option Node
  | .seq a b => do return .seq (← a.lookable) (← b.lookable)
  | .alt a b => do return .alt (← a.lookable) (← b.lookable)
  | .group a => do return .group (← a.lookable)
  | .many least most greedy a => do return .many least most greedy (← a.lookable)
  | .ahead a => do return .ahead (← a.lookable)
  | .notAhead a => do return .notAhead (← a.lookable)
  | .behind a => do (← a.lookable).lookBehind
  | .notBehind a => do (← a.lookable).notLookBehind
  | .atomic a => do return .atomic (← a.lookable)
  | node => some node

def nullable : Node → Bool
  | .never | .set _ => false
  | .empty | .anchor _ | .ahead _ | .notAhead _ | .behind _ | .notBehind _ | .back _ => true
  | .seq a b => a.nullable && b.nullable
  | .alt a b => a.nullable || b.nullable
  | .group a | .atomic a => a.nullable
  | .many least _ _ a => least = 0 || a.nullable

/-- Built of characters, line and text edges, groups, choices and repetition alone. -/
def regular : Node → Bool
  | .empty | .never | .set _ => true
  | .anchor a => a ≠ .wordEdge && a ≠ .notWordEdge
  | .seq a b | .alt a b => a.regular && b.regular
  | .group a | .many _ _ _ a => a.regular
  | .ahead _ | .notAhead _ | .behind _ | .notBehind _ | .atomic _ | .back _ => false

/-- In a regular tree a star over a body that can match nothing is an optional round that may be
empty, followed by rounds that may not. -/
def settleRegular : Node → Node
  | .seq a b => .seq a.settleRegular b.settleRegular
  | .alt a b => .alt a.settleRegular b.settleRegular
  | .group a => .group a.settleRegular
  | .many least most greedy a =>
    let body := a.settleRegular
    if least = 0 && most.isNone && a.nullable then
      .many 0 (some 1) greedy (.many 1 none greedy body)
    else .many least most greedy body
  | node => node

def isSequence : Node → Bool
  | .seq _ _ => true
  | _ => false

/-- The tree as it is matched. A regular tree is settled as a whole; in any other one the part
inside a lookaround or an atomic group is settled on its own if it is regular, and so is the
regular rest of a sequence there. -/
def settle (inner : Bool) : Node → Node
  | .seq a b =>
    if inner && (Node.seq a b).regular then (Node.seq a b).settleRegular
    else .seq (a.settle false) (b.settle (inner && (b.regular || b.isSequence)))
  | .alt a b =>
    if inner && (Node.alt a b).regular then (Node.alt a b).settleRegular
    else .alt (a.settle inner) (b.settle inner)
  | .group a => .group (a.settle inner)
  | .many least most greedy a =>
    if inner && a.regular then (Node.many least most greedy a).settleRegular
    else .many least most greedy (a.settle (inner && least = 0 && most = some 1))
  | .ahead a => .ahead (a.settle true)
  | .notAhead a => .notAhead (a.settle true)
  | .behind a => .behind (a.settle true)
  | .notBehind a => .notBehind (a.settle true)
  | .atomic a => .atomic (a.settle true)
  | node => node

def settled (node : Node) : Node :=
  if node.regular then node.settleRegular else node.settle false

end Node

end ScopeGrammar.Regex
