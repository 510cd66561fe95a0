import ScopeGrammar.Regex.Node

set_option autoImplicit false

namespace ScopeGrammar.Regex

/-- Why a text is no regular expression. -/
inductive Problem where
  | unclosedGroup
  | unopenedGroup
  | tooDeep
  | nothingToRepeat
  | reversedBounds
  | badEscape
  | badClass
  | badFlag
  | badGroupName
  | badReference
  /-- What stands in a lookbehind can match texts of different length. -/
  | widthNotFixed
  deriving DecidableEq, Repr

inductive Escape where
  | char (c : Char)
  | set (s : CharSet)
  | anchor (a : Anchor)
  | back (group : Nat)
  deriving DecidableEq, Repr

def hexValue? (c : Char) : Option Nat :=
  if '0' ≤ c && c ≤ '9' then some (c.toNat - '0'.toNat)
  else if 'a' ≤ c && c ≤ 'f' then some (c.toNat - 'a'.toNat + 10)
  else if 'A' ≤ c && c ≤ 'F' then some (c.toNat - 'A'.toNat + 10)
  else none

def hexNumber? (cs : List Char) : Option Nat :=
  if cs = [] then none
  else cs.foldlM (fun n c => do return 16 * n + (← hexValue? c)) 0

def decimalNumber (cs : List Char) : Nat :=
  cs.foldl (fun n c => 10 * n + (c.toNat - '0'.toNat)) 0

def charOfCode? (n : Nat) : Option Char :=
  if n.isValidChar then some (Char.ofNat n) else none

def bracedCode? : List Char → Option (Nat × List Char)
  | '\x7b' :: rest =>
    let written := rest.takeWhile (hexValue? · |>.isSome)
    match rest.dropWhile (hexValue? · |>.isSome) with
    | '\x7d' :: rest => if written.length ≤ 8 then (hexNumber? written).map (·, rest) else none
    | _ => none
  | _ => none

/-- A code of so many hexadecimal digits, or one in braces. -/
def code? (digits : Nat) (cs : List Char) : Option (Nat × List Char) :=
  let written := cs.take digits
  if written.length = digits && written.all (hexValue? · |>.isSome) then
    (hexNumber? written).map (·, cs.drop digits)
  else bracedCode? cs

def readCode (digits : Nat) (cs : List Char) : Except Problem (Char × List Char) :=
  match code? digits cs with
  | none => .error .badEscape
  | some (n, rest) =>
    match charOfCode? n with
    | none => .error .badEscape
    | some c => .ok (c, rest)

def controlLetter? : Char → Option Char
  | 'a' => some '\x07'
  | 'f' => some '\x0c'
  | 'n' => some '\n'
  | 'r' => some '\r'
  | 't' => some '\t'
  | 'v' => some '\x0b'
  | 'e' => some '\x1b'
  | _ => none

def classLetter? : Char → Option CharSet
  | 'd' => some .digit
  | 'D' => some (.compl .digit)
  | 'w' => some .word
  | 'W' => some (.compl .word)
  | 's' => some .space
  | 'S' => some (.compl .space)
  | 'h' => some .hexDigit
  | 'H' => some (.compl .hexDigit)
  | _ => none

def anchorLetter? : Char → Option Anchor
  | 'A' => some .textStart
  | 'z' => some .textEnd
  | 'b' => some .wordEdge
  | 'B' => some .notWordEdge
  | _ => none

/-- What a letter behind a backslash stands for on its own. Inside a class there are no anchors, and
`b` is a backspace. -/
def letterEscape? (inClass : Bool) (c : Char) : Option Escape :=
  match controlLetter? c, classLetter? c, anchorLetter? c with
  | some control, _, _ => some (.char control)
  | none, some s, _ => some (.set s)
  | none, none, some a =>
    if !inClass then some (.anchor a) else if c = 'b' then some (.char '\x08') else none
  | none, none, none => none

/-- How many digits of a code a letter asks for. -/
def codeLetter? : Char → Option Nat
  | 'x' => some 2
  | 'u' => some 4
  | 'U' => some 8
  | _ => none

def readEscape (inClass : Bool) : List Char → Except Problem (Escape × List Char)
  | [] => .error .badEscape
  | c :: rest =>
    if c.isDigit then
      let more := rest.takeWhile Char.isDigit
      .ok (.back (decimalNumber (c :: more)), rest.dropWhile Char.isDigit)
    else if !c.isAlpha then .ok (.char c, rest)
    else
      match letterEscape? inClass c, codeLetter? c with
      | some escape, _ => .ok (escape, rest)
      | none, some digits => do
        let (c, rest) ← readCode digits rest
        return (.char c, rest)
      | none, none => .error .badEscape

end ScopeGrammar.Regex
