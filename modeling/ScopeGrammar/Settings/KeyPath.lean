import ScopeGrammar.Json.Number

set_option autoImplicit false

namespace ScopeGrammar.Settings

inductive Step where
  | field (name : String)
  /-- A position in a list, a negative one from the end. -/
  | item (position : Int)
  deriving DecidableEq, Repr

structure KeyPath where
  root : String
  steps : List Step
  deriving DecidableEq, Repr

def foldKey (key : String) : String := String.ofList (key.toList.map Char.toLower)

def Step.text : Step → String
  | .field name => "." ++ name
  | .item position => "[" ++ toString position ++ "]"

/-- The text of a path; different paths have different ones. -/
def KeyPath.text (p : KeyPath) : String := p.root ++ String.join (p.steps.map Step.text)

def isKeyLetter (c : Char) : Bool :=
  c.isAlphanum || c == '_' || c == '-' || c == ' '

def readKey (cs : List Char) : Option (String × List Char) :=
  match cs.takeWhile isKeyLetter with
  | [] => none
  | letters => some (foldKey (String.ofList letters), cs.dropWhile isKeyLetter)

def skipSpaces (cs : List Char) : List Char :=
  cs.dropWhile fun c => c == ' ' || c == '\t' || c == '\r' || c == '\n'

/-- A position behind its opening bracket: an integer of 64 bits, with blanks around it. -/
def readPosition (cs : List Char) : Option (Int × List Char) := do
  let (negative, cs) := match skipSpaces cs with
    | '-' :: rest => (true, rest)
    | cs => (false, cs)
  let digits := cs.takeWhile Json.isDigit
  if digits = [] then none
  let n := Json.digitsValue digits
  let rest ← match skipSpaces (cs.dropWhile Json.isDigit) with
    | ']' :: rest => some rest
    | _ => none
  if negative then if n ≤ 1 <<< 63 then return (-n, rest) else none
  else if n < 1 <<< 63 then return (n, rest)
  else none

def readSteps : (fuel : Nat) → List Char → Option (List Step)
  | _, [] => some []
  | 0, _ => none
  | fuel + 1, '.' :: rest => do
    let (name, rest) ← readKey rest
    return .field name :: (← readSteps fuel rest)
  | fuel + 1, '[' :: rest => do
    let (position, rest) ← readPosition rest
    return .item position :: (← readSteps fuel rest)
  | _ + 1, _ => none

def KeyPath.read (cs : List Char) : Option KeyPath := do
  let (root, rest) ← readKey cs
  return ⟨root, ← readSteps rest.length rest⟩

end ScopeGrammar.Settings
