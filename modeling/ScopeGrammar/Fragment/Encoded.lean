import ScopeGrammar.Fragment.Basic

/-!
The scans for delimiters as they run on the encoded bytes of a source: by index, with one byte passed
over behind a backslash, and a scan of its own for a class inside of a class. A read behind the last
byte and a cut inside of a character are faults.
-/

set_option autoImplicit false

namespace ScopeGrammar.Fragment

def encode (source : List Char) : List UInt8 := source.flatMap String.utf8EncodeChar

namespace Encoded

/-- What stops a scan or a cut before it has an answer. -/
inductive Fault where
  | outOfBounds (index : Nat)
  | insideCharacter (index : Nat)
  | underflow
  deriving DecidableEq, Repr

def markAt (bytes : List UInt8) (i : Nat) : Option Mark := bytes[i]?.map fun b => Mark.ofCode b.toNat

def read (bytes : List UInt8) (i : Nat) : Except Fault Mark :=
  match markAt bytes i with
  | some m => .ok m
  | none => .error (.outOfBounds i)

/-- The index behind the lead of a class: a caret that negates, and a bracket that is a member. -/
def leadEnd (bytes : List UInt8) (i : Nat) : Nat :=
  let i := if markAt bytes i = some .caret then i + 1 else i
  if markAt bytes i = some .closeClass then i + 1 else i

theorem le_leadEnd (bytes : List UInt8) (i : Nat) : i ≤ leadEnd bytes i := by
  unfold leadEnd
  grind

def later {i j : Nat} (le : i ≤ j) (stop : Option {stop : Nat // j ≤ stop}) :
    Option {stop : Nat // i ≤ stop} :=
  stop.map fun stop => ⟨stop.1, Nat.le_trans le stop.2⟩

/-- The bracket that closes a class, from a place inside of it on. -/
def classFrom (bytes : List UInt8) (i : Nat) : Except Fault (Option {stop : Nat // i ≤ stop}) :=
  if _ : i < bytes.length then do
    match ← read bytes i with
    | .escape => return later (by omega) (← classFrom bytes (i + 2))
    | .openClass =>
      have lead := le_leadEnd bytes (i + 1)
      match ← classFrom bytes (leadEnd bytes (i + 1)) with
      | none => return none
      | some ⟨stop, behind⟩ => return later (by omega) (← classFrom bytes (stop + 1))
    | .closeClass => return some ⟨i, Nat.le_refl i⟩
    | _ => return later (by omega) (← classFrom bytes (i + 1))
  else return none
termination_by bytes.length - i

/-- The bracket that closes the class opened at an index. -/
def classEnd (bytes : List UInt8) (opening : Nat) :
    Except Fault (Option {stop : Nat // opening ≤ stop}) := do
  have lead := le_leadEnd bytes (opening + 1)
  return later (by omega) (← classFrom bytes (leadEnd bytes (opening + 1)))

/-- The parenthesis that closes what is open, from an index on. -/
def groupFrom (bytes : List UInt8) (depth i : Nat) : Except Fault (Option Nat) :=
  if _ : i < bytes.length then do
    match ← read bytes i with
    | .escape => groupFrom bytes depth (i + 2)
    | .openClass =>
      match ← classEnd bytes i with
      | none => return none
      | some ⟨stop, behind⟩ => groupFrom bytes depth (stop + 1)
    | .openGroup => groupFrom bytes (depth + 1) (i + 1)
    | .closeGroup =>
      match depth with
      | 0 => return none
      | 1 => return some i
      | depth + 2 => groupFrom bytes (depth + 1) (i + 1)
    | _ => groupFrom bytes depth (i + 1)
  else return none
termination_by bytes.length - i

/-- The index of the byte that closes the group or class that the first byte opens. -/
def closingByte (bytes : List UInt8) : Except Fault (Option Nat) :=
  match markAt bytes 0 with
  | some .openClass => do return (← classEnd bytes 0).map Subtype.val
  | some .openGroup => groupFrom bytes 0 0
  | _ => return none

/-- Whether a bar stands outside of all groups and classes, from an index on. -/
def choiceFrom (bytes : List UInt8) (depth i : Nat) : Except Fault Bool :=
  if _ : i < bytes.length then do
    match ← read bytes i with
    | .escape => choiceFrom bytes depth (i + 2)
    | .openClass =>
      match ← classEnd bytes i with
      | none => return false
      | some ⟨stop, behind⟩ => choiceFrom bytes depth (stop + 1)
    | .openGroup => choiceFrom bytes (depth + 1) (i + 1)
    | .closeGroup => choiceFrom bytes (depth - 1) (i + 1)
    | .bar => if depth = 0 then return true else choiceFrom bytes depth (i + 1)
    | _ => choiceFrom bytes depth (i + 1)
  else return false
termination_by bytes.length - i

def choiceByte (bytes : List UInt8) : Except Fault Bool := choiceFrom bytes 0 0

def pred : Nat → Except Fault Nat
  | 0 => .error .underflow
  | n + 1 => .ok n

/-- The characters of the first so many bytes. -/
def sliceTo (n index : Nat) : List Char → Except Fault (List Char)
  | [] => if n = 0 then .ok [] else .error (.outOfBounds (index + n))
  | c :: cs =>
    if n = 0 then .ok []
    else if n < c.utf8Size then .error (.insideCharacter (index + n))
    else do return c :: (← sliceTo (n - c.utf8Size) (index + c.utf8Size) cs)

/-- `isAtomic`, from the first characters and from the bytes of a longer source. -/
def atomic (f : Fragment) : Except Fault Bool :=
  match f.source with
  | [] => return false
  | [c] => return !(['\\', '|', '(', ')', '[', ']'].contains c)
  | ['\\', _] => return true
  | source => do return (← closingByte (encode source)) == some (← pred (encode source).length)

/-- `capture`, which cuts the last byte off where it takes the place of a group. -/
def capture (f : Fragment) : Except Fault Fragment :=
  match f.source with
  | '(' :: '?' :: ':' :: rest => do
    if ← atomic f then
      return ⟨'(' :: (← sliceTo (← pred (encode rest).length) 0 rest) ++ [')']⟩
    else return ⟨'(' :: f.source ++ [')']⟩
  | source => return ⟨'(' :: source ++ [')']⟩

end Encoded

end ScopeGrammar.Fragment
