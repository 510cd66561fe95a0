import ScopeGrammar.Regex.Matching

/-!
Engines that search texts. An engine may bound how often it goes back to a way that it has left
open, and give up a search that reaches the bound.
-/

set_option autoImplicit false

namespace ScopeGrammar.Regex

/-- How trying a tree ends, with the number of times that the engine may still go back. -/
inductive Trial where
  | refused (left : Nat)
  | taken (c : Cursor) (s : Saved) (left : Nat)
  | givenUp
  deriving DecidableEq, Repr

abbrev Attempt := (left : Nat) → Cursor → Saved → Trial

namespace Attempt

def accept : Attempt := fun left c s => .taken c s left

/-- Go back to the second attempt where the first is refused. -/
def orElse (a b : Attempt) : Attempt := fun left c s =>
  match a left c s with
  | .refused 0 => .givenUp
  | .refused (left + 1) => b left c s
  | trial => trial

def prefer (first : Bool) (a b : Attempt) : Attempt := if first then a.orElse b else b.orElse a

def upTo (greedy : Bool) (round : Attempt → Attempt) : Nat → Attempt → Attempt
  | 0, k => k
  | n + 1, k => prefer greedy (round (upTo greedy round n k)) k

/-- Any number of rounds, each of which must move on. The last of them is tried where no text is
left, so that there is `room` for one round more than there are characters. -/
def anyNumber (greedy : Bool) (round : Attempt → Attempt) : (room : Nat) → Attempt → Attempt
  | 0, k => k
  | room + 1, k => fun left c s =>
    prefer greedy
      (round fun left d t =>
        if d.index = c.index then .refused left else anyNumber greedy round room k left d t)
      k left c s

/-- Try at the place so many characters back, if there is one. -/
def back (width : Option Nat) (a : Attempt) : Attempt := fun left c s =>
  match width.bind (c.back? ·) with
  | some d => a left d s
  | none => .refused left

/-- Go on from the same place where the first attempt takes a way. -/
def look (a k : Attempt) : Attempt := fun left c s =>
  match a left c s with
  | .taken _ t left => k left c t
  | trial => trial

/-- Go on where the first attempt takes no way. -/
def deny (a k : Attempt) : Attempt := fun left c s =>
  match a left c s with
  | .taken _ _ left => .refused left
  | .refused (left + 1) => k left c s
  | _ => .givenUp

end Attempt

namespace Node

/-- Match a part without going back into it. -/
def handOver (node : Node) (opened : Nat) (k : Attempt) : Attempt := fun left c s =>
  match node.run opened (fun d t => some (d, t)) c s with
  | some (d, t) => k left d t
  | none => .refused left

/-- A regular part of one width. -/
def fixed (a : Node) : Bool := a.regular && a.width.isSome

/-- Try the ways through a tree one after the other. Regular parts of one width at either end of a
sequence are handed over; inside a lookaround or an atomic group so are regular parts of any width,
if nothing irregular follows. `front` tells that the tree is not the rest of a sequence or a choice
of which something has been tried. -/
def attempt : Node → (inner front : Bool) → (opened : Nat) → Attempt → Attempt
  | .empty, _, _, _, k => k
  | .never, _, _, _, _ => fun left _ _ => .refused left
  | .set chars, _, _, _, k => fun left c s =>
    match c.next? with
    | some (x, d) => if chars.mem x then k left d s else .refused left
    | none => .refused left
  | .anchor a, _, _, _, k => fun left c s => if a.holds c then k left c s else .refused left
  | .seq a b, inner, front, opened, k =>
    if inner && (Node.seq a b).regular then (Node.seq a b).handOver opened k
    else
      let rest (front : Bool) : Attempt :=
        if b.isSequence then b.attempt inner front (opened + a.groups) k
        else if b.fixed || inner && b.regular then b.handOver (opened + a.groups) k
        else b.attempt false true (opened + a.groups) k
      if front && a.fixed || (Node.seq a b).fixed then a.handOver opened (rest front)
      else a.attempt false true opened (rest false)
  | .alt a .never, inner, _, opened, k => a.attempt inner true opened k
  | .alt a b, inner, front, opened, k =>
    if inner && front && (Node.alt a b).regular then (Node.alt a b).handOver opened k
    else (a.attempt inner true opened k).orElse (b.attempt inner false (opened + a.groups) k)
  | .group a, inner, _, opened, k =>
    if inner && a.regular then (Node.group a).handOver opened k
    else fun left c s =>
      a.attempt inner true (opened + 1)
        (fun left d t => k left d ((opened + 1, ⟨c.index, d.index⟩) :: t)) left c s
  | .many least most greedy a, inner, _, opened, k =>
    if inner && a.regular then (Node.many least most greedy a).handOver opened k
    else
      let round := a.attempt (inner && least = 0 && most = some 1) true opened
      let rest : Attempt := match most with
        | some most => Attempt.upTo greedy round (most - least) k
        | none => fun left c s => Attempt.anyNumber greedy round (c.after.length + 1) k left c s
      exactly round least rest
  | .ahead a, _, _, opened, k => (a.attempt true true opened .accept).look k
  | .notAhead a, _, _, opened, k => (a.attempt true true opened .accept).deny k
  | .behind a, _, _, opened, k => ((a.attempt true true opened .accept).back a.width).look k
  | .notBehind a, _, _, opened, k => ((a.attempt true true opened .accept).back a.width).deny k
  | .atomic a, _, _, opened, k => fun left c s =>
    match a.attempt true true opened .accept left c s with
    | .taken d t left => k left d t
    | trial => trial
  | .back n, _, _, _, k => fun left c s =>
    match s.lookup n with
    | some span =>
      match c.over? (c.slice span) with
      | some d => k left d s
      | none => .refused left
    | none => .refused left

/-- How often the engine goes back as it tries a tree at a place, and whether a way is taken. Where
none is, it goes back once more to look further on. No more than `most + 1` times are counted. -/
def effort (node : Node) (most : Nat) (c : Cursor) : Nat × Bool :=
  match node.attempt false true 0 .accept most c [] with
  | .taken _ _ left => (most - left, true)
  | .refused left => (most - left + 1, false)
  | .givenUp => (most + 1, false)

/-- For each of the next `room` places and the one at the cursor, how often the engine goes back as
it searches from there on. -/
def efforts (node : Node) (most : Nat) : (room : Nat) → Cursor → List Nat
  | 0, c => [(node.effort most c).1]
  | room + 1, c =>
    match c.next? with
    | none => [(node.effort most c).1]
    | some (_, d) =>
      let later := node.efforts most room d
      let (own, taken) := node.effort most c
      (if taken then own else own + later.headD 0) :: later

end Node

/-- An engine gives up some searches. It searches for a regular pattern without going back, and so
gives up no such search. -/
structure Engine where
  /-- For the places of a text in their order, whether the search from there on is given up. -/
  givenUp : Regex → List Char → List Bool
  regular (regex : Regex) (text : List Char) :
    regex.tree.regular = true → givenUp regex text = []

namespace Engine

def givesUp (engine : Engine) (regex : Regex) (text : List Char) (pos : Nat) : Bool :=
  (engine.givenUp regex text).getD pos false

def patient : Engine where
  givenUp _ _ := []
  regular _ _ _ := rfl

/-- Gives up a search as it goes back more than `most` times. -/
def limited (most : Nat) : Engine where
  givenUp regex text :=
    if regex.tree.regular then []
    else (regex.tree.settled.efforts most text.length (.start text)).map (most < ·)
  regular _ _ regular := if_pos regular

def standard : Engine := limited 1000000

end Engine

end ScopeGrammar.Regex
