import ScopeGrammar.Json.Number

set_option autoImplicit false

namespace ScopeGrammar.Json

/-- What stands behind an opening quote, up to the closing one or the end of the text. -/
structure Quoted where
  body : List Char
  closed : Bool
  deriving DecidableEq, Repr

/-- Cut out a string whose opening quote has been read. -/
def cutQuoted : List Char → Quoted × List Char
  | [] => (⟨[], false⟩, [])
  | '"' :: rest => (⟨[], true⟩, rest)
  | ['\\'] => (⟨['\\'], false⟩, [])
  | '\\' :: c :: rest =>
    let (q, rest) := cutQuoted rest
    ({ q with body := '\\' :: c :: q.body }, rest)
  | c :: rest =>
    let (q, rest) := cutQuoted rest
    ({ q with body := c :: q.body }, rest)

def escapeLetter? : Char → Option Char
  | '"' => some '"'
  | '\\' => some '\\'
  | '/' => some '/'
  | 'b' => some '\x08'
  | 'f' => some '\x0c'
  | 'n' => some '\n'
  | 'r' => some '\r'
  | 't' => some '\t'
  | _ => none

def hexDigit? (c : Char) : Option Nat :=
  if isDigit c then some (c.toNat - '0'.toNat)
  else if 'a' ≤ c && c ≤ 'f' then some (c.toNat - 'a'.toNat + 10)
  else if 'A' ≤ c && c ≤ 'F' then some (c.toNat - 'A'.toNat + 10)
  else none

def readUnit (closed : Bool) (cs : List Char) : Except Fault (Nat × List Char) :=
  match cs with
  | a :: b :: c :: d :: rest =>
    match hexDigit? a, hexDigit? b, hexDigit? c, hexDigit? d with
    | some a, some b, some c, some d => .ok (((a * 16 + b) * 16 + c) * 16 + d, rest)
    | _, _, _, _ => .error .malformed
  | _ => .error (if closed then .malformed else .unfinished)

/-- What was written between the quotes. Codes beyond 65535 are written as a pair of surrogates,
which are refused alone. -/
def decodeBody (closed : Bool) : (fuel : Nat) → List Char → Except Fault (List Char)
  | 0, _ => .error .malformed
  | fuel + 1, cs =>
    match cs with
    | [] => if closed then .ok [] else .error .unfinished
    | ['\\'] => .error .unfinished
    | '\\' :: 'u' :: rest => do
      let (high, rest) ← readUnit closed rest
      if 0xDC00 ≤ high && high ≤ 0xDFFF then throw .malformed
      if 0xD800 ≤ high && high ≤ 0xDBFF then
        match rest with
        | '\\' :: 'u' :: rest =>
          let (low, rest) ← readUnit closed rest
          if low < 0xDC00 || 0xDFFF < low then throw .malformed
          let code := 0x10000 + (high - 0xD800) * 0x400 + (low - 0xDC00)
          return Char.ofNat code :: (← decodeBody closed fuel rest)
        | [] | ['\\'] => throw (if closed then .malformed else .unfinished)
        | _ => throw .malformed
      else return Char.ofNat high :: (← decodeBody closed fuel rest)
    | '\\' :: c :: rest =>
      match escapeLetter? c with
      | some d => do return d :: (← decodeBody closed fuel rest)
      | none => .error .malformed
    | c :: rest =>
      if c.toNat < 0x20 then .error .malformed
      else do return c :: (← decodeBody closed fuel rest)

def Quoted.decode (q : Quoted) : Except Fault String :=
  (decodeBody q.closed (q.body.length + 1) q.body).map String.ofList

/-- Go over what is written between the quotes without asking what it says: surrogates may be
alone. -/
def skipBody (closed : Bool) : (fuel : Nat) → List Char → Except Fault Unit
  | 0, _ => .error .malformed
  | fuel + 1, cs =>
    match cs with
    | [] => if closed then .ok () else .error .unfinished
    | ['\\'] => .error .unfinished
    | '\\' :: 'u' :: rest => do
      let (_, rest) ← readUnit closed rest
      skipBody closed fuel rest
    | '\\' :: c :: rest =>
      if (escapeLetter? c).isSome then skipBody closed fuel rest else .error .malformed
    | c :: rest => if c.toNat < 0x20 then .error .malformed else skipBody closed fuel rest

def Quoted.skip (q : Quoted) : Except Fault Unit :=
  skipBody q.closed (q.body.length + 1) q.body

/-- The key of a table that is keyed by numbers: an unsigned number of 64 bits. -/
def Quoted.index (q : Quoted) : Except Fault Nat :=
  match q.body with
  | [] => .error .malformed
  | c :: _ =>
    if !isDigit c && c ≠ '-' then .error .malformed
    else
      match readNumber q.body with
      | .error .unfinished => .error (if q.closed then .malformed else .unfinished)
      | .error fault => .error fault
      | .ok (n, rest) =>
        if n.tooLarge then .error .malformed
        else if n.negative || !n.isInteger || 1 <<< 64 ≤ n.significand then .error .mismatched
        else if rest = [] && q.closed then .ok n.significand
        else .error .malformed

def encodeChar (c : Char) : List Char :=
  match c with
  | '"' => ['\\', '"']
  | '\\' => ['\\', '\\']
  | '\x08' => ['\\', 'b']
  | '\t' => ['\\', 't']
  | '\n' => ['\\', 'n']
  | '\x0c' => ['\\', 'f']
  | '\r' => ['\\', 'r']
  | c =>
    if c.toNat < 0x20 then
      ['\\', 'u', '0', '0', Nat.digitChar (c.toNat / 16), Nat.digitChar (c.toNat % 16)]
    else [c]

def encode (s : String) : List Char := '"' :: s.toList.flatMap encodeChar ++ ['"']

end ScopeGrammar.Json
