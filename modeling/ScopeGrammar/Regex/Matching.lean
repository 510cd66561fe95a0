import ScopeGrammar.Regex.Cursor
import ScopeGrammar.Regex.Reader

/-!
Matching by trying the ways through a tree in order: the earlier alternative first, more rounds
before fewer where repetition is greedy. Every way is followed by a continuation that can refuse
it, and the first way that the continuation accepts is taken.
-/

set_option autoImplicit false

namespace ScopeGrammar.Regex

/-- A piece of a text, from the character at `start` to before the one at `stop`. -/
structure Span where
  start : Nat
  stop : Nat
  deriving DecidableEq, Repr

/-- What the groups matched, the latest match first. -/
abbrev Saved := List (Nat × Span)

/-- What is done at the end of a way; `none` refuses the way. -/
abbrev Continuation := Cursor → Saved → Option (Cursor × Saved)

def prefer (first : Bool) (a b : Unit → Option (Cursor × Saved)) : Option (Cursor × Saved) :=
  if first then (a ()).orElse b else (b ()).orElse a

def exactly {κ : Type} (round : κ → κ) : Nat → κ → κ
  | 0, k => k
  | n + 1, k => round (exactly round n k)

def upTo (greedy : Bool) (round : Continuation → Continuation) : Nat → Continuation → Continuation
  | 0, k => k
  | n + 1, k => fun c s =>
    prefer greedy (fun _ => round (upTo greedy round n k) c s) (fun _ => k c s)

/-- Any number of rounds, each of which must move on; `room` is at least the number of characters
ahead, which bounds the number of such rounds. -/
def anyNumber (greedy : Bool) (round : Continuation → Continuation) :
    (room : Nat) → Continuation → Continuation
  | 0, k => k
  | room + 1, k => fun c s =>
    prefer greedy
      (fun _ => round
        (fun d t => if d.index = c.index then none else anyNumber greedy round room k d t) c s)
      (fun _ => k c s)

/-- The piece of the text that a span at or before the cursor marks. -/
def Cursor.slice (c : Cursor) (span : Span) : List Char :=
  (c.text.drop span.start).take (span.stop - span.start)

def Cursor.over? : List Char → Cursor → Option Cursor
  | [], c => some c
  | x :: rest, c =>
    match c.next? with
    | some (y, d) => if x = y then over? rest d else none
    | none => none

/-- Try the ways through a tree whose groups are numbered from `opened + 1` on. -/
def Node.run : Node → (opened : Nat) → Continuation → Continuation
  | .empty, _, k, c, s => k c s
  | .never, _, _, _, _ => none
  | .set chars, _, k, c, s =>
    match c.next? with
    | some (x, d) => if chars.mem x then k d s else none
    | none => none
  | .anchor a, _, k, c, s => if a.holds c then k c s else none
  | .seq a b, opened, k, c, s => a.run opened (b.run (opened + a.groups) k) c s
  | .alt a b, opened, k, c, s =>
    prefer true (fun _ => a.run opened k c s) (fun _ => b.run (opened + a.groups) k c s)
  | .group a, opened, k, c, s =>
    a.run (opened + 1) (fun d t => k d ((opened + 1, ⟨c.index, d.index⟩) :: t)) c s
  | .many least most greedy a, opened, k, c, s =>
    let rest : Continuation := match most with
      | some most => upTo greedy (a.run opened) (most - least) k
      | none => fun d t => anyNumber greedy (a.run opened) d.after.length k d t
    exactly (a.run opened) least rest c s
  | .ahead a, opened, k, c, s =>
    match a.run opened (fun d t => some (d, t)) c s with
    | some (_, t) => k c t
    | none => none
  | .notAhead a, opened, k, c, s =>
    match a.run opened (fun d t => some (d, t)) c s with
    | some _ => none
    | none => k c s
  | .behind a, opened, k, c, s =>
    match (a.width.bind (c.back? ·)).bind fun d => a.run opened (fun d t => some (d, t)) d s with
    | some (_, t) => k c t
    | none => none
  | .notBehind a, opened, k, c, s =>
    match (a.width.bind (c.back? ·)).bind fun d => a.run opened (fun d t => some (d, t)) d s with
    | some _ => none
    | none => k c s
  | .atomic a, opened, k, c, s =>
    match a.run opened (fun d t => some (d, t)) c s with
    | some (d, t) => k d t
    | none => none
  | .back n, _, k, c, s =>
    match s.lookup n with
    | some span =>
      match c.over? (c.slice span) with
      | some d => k d s
      | none => none
    | none => none

/-- A match: the whole of it and what each group matched, in the order of the groups. -/
structure Found where
  whole : Span
  groups : List (Option Span)
  deriving DecidableEq, Repr

def Node.matchAt (node : Node) (c : Cursor) : Option Found :=
  (node.run 0 (fun d s => some (d, s)) c []).map fun (d, s) =>
    ⟨⟨c.index, d.index⟩, (List.range node.groups).map fun i => s.lookup (i + 1)⟩

/-- The match with the least start at or behind the cursor, trying `room` more places. -/
def Node.findFrom (node : Node) : (room : Nat) → Cursor → Option Found
  | 0, c => node.matchAt c
  | room + 1, c =>
    match node.matchAt c with
    | some found => some found
    | none =>
      match c.next? with
      | some (_, d) => node.findFrom room d
      | none => none

/-- For each of the next `room` places and the one at the cursor, the match with the least start at
or behind it. -/
def Node.findAll (node : Node) : (room : Nat) → Cursor → List (Option Found)
  | 0, c => [node.matchAt c]
  | room + 1, c =>
    match c.next? with
    | none => [node.matchAt c]
    | some (_, d) =>
      let later := node.findAll room d
      (node.matchAt c).or later.head?.join :: later

end ScopeGrammar.Regex

namespace ScopeGrammar

structure Regex where
  tree : Regex.Node
  deriving DecidableEq, Repr

namespace Regex

/-- Read a source. The dialect has more than is read here: Unicode properties (`\p` and `\P`), `\K`,
`\G`, references by name (`\k<n>` and `(?P=n)`) and conditionals are refused, and there is no bound on
the counts of repetitions and on the size of what is compiled. -/
def read (source : List Char) : Except Problem Regex := (Node.read source).map Regex.mk

def groups (r : Regex) : Nat := r.tree.groups

/-- The first match in a text that starts at a position or behind it. -/
def find (r : Regex) : List Char → Nat → Option Found :=
  let tree := r.tree.settled
  fun text pos =>
    let c := (Cursor.start text).forward pos
    tree.findFrom c.after.length c

/-- For every position of a text, the first match that starts there or behind it. -/
def findAll (r : Regex) (text : List Char) : List (Option Found) :=
  r.tree.settled.findAll text.length (.start text)

end Regex

end ScopeGrammar
