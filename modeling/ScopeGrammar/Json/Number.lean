set_option autoImplicit false

namespace ScopeGrammar.Json

/-- What can be wrong with a text that should be JSON of a certain shape. -/
inductive Fault where
  /-- It is no JSON. -/
  | malformed
  /-- It is JSON of another shape. -/
  | mismatched
  /-- It ends too early. -/
  | unfinished
  deriving DecidableEq, Repr

/-- Writing and reading fail alike. -/
def Fault.message : Fault → String
  | .malformed | .mismatched | .unfinished => "failed to serialize grammar as JSON"

/-- An optional minus sign, whole digits, and where they are written a fraction and an exponent. -/
structure Number where
  negative : Bool
  whole : List Char
  fraction : Option (List Char)
  /-- The sign, which is `true` for a minus, and the digits. -/
  exponent : Option (Bool × List Char)
  deriving DecidableEq, Repr

def isDigit (c : Char) : Bool := '0' ≤ c && c ≤ '9'

def digitsValue (cs : List Char) : Nat :=
  cs.foldl (fun n c => 10 * n + (c.toNat - '0'.toNat)) 0

namespace Number

def isInteger (n : Number) : Bool := n.fraction.isNone && n.exponent.isNone

def significand (n : Number) : Nat := digitsValue (n.whole ++ n.fraction.getD [])

def scale (n : Number) : Int :=
  let written : Int := match n.exponent with
    | none => 0
    | some (minus, digits) => if minus then -(digitsValue digits : Int) else digitsValue digits
  written - (n.fraction.getD []).length

/-- Beyond what rounds to a finite binary number of 64 bits. -/
def tooLarge (n : Number) : Bool :=
  let least := 1 <<< 1024 - 1 <<< 970
  if n.significand = 0 then false
  else if n.scale < 0 then
    -- a significand of so many digits less is below the bound whatever they are
    if (n.whole.length : Int) + (n.fraction.getD []).length + n.scale < 300 then false
    else least * Nat.pow 10 n.scale.natAbs ≤ n.significand
  else if 400 < n.scale then true
  else least ≤ n.significand * Nat.pow 10 n.scale.natAbs

end Number

def readDigits (cs : List Char) : Except Fault (List Char × List Char) :=
  match cs.takeWhile isDigit, cs.dropWhile isDigit with
  | [], [] => .error .unfinished
  | [], _ :: _ => .error .malformed
  | digits, rest => .ok (digits, rest)

def readWhole (cs : List Char) : Except Fault (List Char × List Char) := do
  let (digits, rest) ← readDigits cs
  match digits with
  | '0' :: _ :: _ => throw .malformed
  | digits => return (digits, rest)

def readNumber (cs : List Char) : Except Fault (Number × List Char) := do
  let (negative, cs) := match cs with
    | '-' :: rest => (true, rest)
    | cs => (false, cs)
  let (whole, cs) ← readWhole cs
  let (fraction, cs) ← match cs with
    | '.' :: rest => do
      let (digits, rest) ← readDigits rest
      .ok (some digits, rest)
    | cs => .ok (none, cs)
  let (exponent, cs) ← match cs with
    | c :: rest =>
      if c = 'e' || c = 'E' then do
        let (minus, rest) := match rest with
          | '-' :: rest => (true, rest)
          | '+' :: rest => (false, rest)
          | rest => (false, rest)
        let (digits, rest) ← readDigits rest
        .ok (some (minus, digits), rest)
      else .ok (none, c :: rest)
    | [] => .ok (none, [])
  return (⟨negative, whole, fraction, exponent⟩, cs)

end ScopeGrammar.Json
