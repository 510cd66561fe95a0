import ScopeGrammar.Regex.Escape

/-!
Character classes in brackets. A class is first cut out of the pattern as a list of parts, up to the
bracket that closes it; the parts are then read as members, ranges, nested classes and set
operations.
-/

set_option autoImplicit false

namespace ScopeGrammar.Regex

/-- A part of a class: a character as it is written, or one that cannot have a meaning of its own
because a backslash led to it, or a set of characters. -/
inductive ClassPart where
  | plain (c : Char)
  | member (c : Char)
  | set (s : CharSet)
  deriving DecidableEq, Repr

/-- The part of a class that a backslash leads to. -/
def Escape.classPart : Escape → Except Problem ClassPart
  | .char c => .ok (.member c)
  | .set s => .ok (.set s)
  | .anchor _ | .back _ => .error .badClass

/-- How many classes are open behind a character. -/
def nestBehind (nest : Nat) (c : Char) : Nat :=
  if c = '[' then nest + 1 else if c = ']' then nest - 1 else nest

/-- The parts up to the bracket that closes the `nest`th open one, and the text behind it. -/
def classParts : (fuel nest : Nat) → List Char → Except Problem (List ClassPart × List Char)
  | 0, _, _ => .error .badClass
  | fuel + 1, nest, cs =>
    match cs with
    | [] => .error .badClass
    | '\\' :: rest => do
      let (escape, rest) ← readEscape true rest
      let part ← escape.classPart
      let (parts, rest) ← classParts fuel nest rest
      return (part :: parts, rest)
    | c :: rest =>
      if c = ']' && nest = 1 then .ok ([.plain c], rest)
      else do
        let (parts, rest) ← classParts fuel (nestBehind nest c) rest
        return (.plain c :: parts, rest)

/-- The text behind a character that it may begin with, which is a part then. -/
def cutLead (lead : Char) : List Char → List ClassPart × List Char
  | [] => ([], [])
  | c :: rest => if c = lead then ([.plain c], rest) else ([], c :: rest)

/-- The parts of the class whose opening bracket has been read. A caret there negates and a closing
bracket behind either is a member. -/
def cutClass (cs : List Char) : Except Problem (List ClassPart × List Char) := do
  let (caret, cs) := cutLead '^' cs
  let (bracket, cs) := cutLead ']' cs
  let (parts, rest) ← classParts (cs.length + 1) 1 cs
  return (caret ++ bracket ++ parts, rest)

inductive SetOperation where
  | inter
  | diff
  | symmDiff
  deriving DecidableEq, Repr

def SetOperation.apply : SetOperation → CharSet → CharSet → CharSet
  | .inter => .inter
  | .diff => .diff
  | .symmDiff => .symmDiff

structure OpenClass where
  negated : Bool
  /-- The left operand of the operation whose right operand is being read. -/
  left : Option (CharSet × SetOperation)
  members : CharSet
  deriving DecidableEq, Repr

namespace OpenClass

def add (o : OpenClass) (s : CharSet) : OpenClass :=
  { o with members := if o.members = .empty then s else .union o.members s }

/-- The operand read so far, with the operation before it applied. -/
def operand (o : OpenClass) : CharSet :=
  match o.left with
  | none => o.members
  | some (left, op) => op.apply left o.members

def operate (o : OpenClass) (op : SetOperation) : OpenClass :=
  { o with left := some (o.operand, op), members := .empty }

def close (o : OpenClass) : CharSet :=
  if o.negated then .compl o.operand else o.operand

end OpenClass

/-- The leading hyphens of a class are members. -/
def leadingHyphens : List ClassPart → OpenClass → OpenClass × List ClassPart
  | .plain '-' :: rest, o => leadingHyphens rest (o.add (.single '-'))
  | parts, o => (o, parts)

/-- What may lead a class behind its caret: hyphens, or a closing bracket that is a member. -/
def openLead (negated : Bool) (parts : List ClassPart) : OpenClass × List ClassPart :=
  match leadingHyphens parts ⟨negated, none, .empty⟩ with
  | (o, .plain ']' :: rest) =>
    if o.members = .empty then (o.add (.single ']'), rest) else (o, .plain ']' :: rest)
  | (o, parts) => (o, parts)

def openClass : List ClassPart → OpenClass × List ClassPart
  | .plain '^' :: rest => openLead true rest
  | parts => openLead false parts

def ClassPart.isLower : ClassPart → Bool
  | .plain c => c.isLower
  | _ => false

def ClassPart.plain? : ClassPart → Option Char
  | .plain c => some c
  | _ => none

/-- The class with the name that is followed by a colon and a closing bracket. -/
def className? (anyCase : Bool) (parts : List ClassPart) : Option (CharSet × List ClassPart) :=
  let letters := parts.takeWhile (·.isLower)
  match parts.drop letters.length with
  | .plain ':' :: .plain ']' :: rest =>
    (CharSet.posix? anyCase (String.ofList (letters.filterMap (·.plain?)))).map (·, rest)
  | _ => none

/-- A class named as in `[:alpha:]` or denied as in `[:^alpha:]`, after its first bracket. -/
def namedClass? (anyCase : Bool) : List ClassPart → Option (CharSet × List ClassPart)
  | .plain ':' :: .plain '^' :: parts =>
    (className? anyCase parts).map fun (s, rest) => (.compl s, rest)
  | .plain ':' :: parts => className? anyCase parts
  | _ => none

def ClassPart.char? : ClassPart → Option Char
  | .plain c | .member c => some c
  | .set _ => none

/-- The part as a member on its own. -/
def ClassPart.alone (anyCase : Bool) : ClassPart → CharSet
  | .plain c | .member c => .between anyCase c c
  | .set s => s

/-- What the parts at the start of the rest of a class are together. -/
inductive ClassItem where
  | members (s : CharSet)
  /-- The bracket of a nested class, with what may lead a class behind it. -/
  | opening (o : OpenClass)
  | closing
  | operation (op : SetOperation)
  | range (low high : ClassPart)
  deriving DecidableEq, Repr

/-- A hyphen makes a range of the parts around it, unless a bracket or a hyphen follows it. -/
def classItem? (anyCase : Bool) : List ClassPart → Option (ClassItem × List ClassPart)
  | [] => none
  | .plain '[' :: rest =>
    match namedClass? anyCase rest with
    | some (s, rest) => some (.members s, rest)
    | none => some (.opening (openClass rest).1, (openClass rest).2)
  | .plain ']' :: rest => some (.closing, rest)
  | .plain '&' :: .plain '&' :: rest => some (.operation .inter, rest)
  | .plain '-' :: .plain '-' :: rest => some (.operation .diff, rest)
  | .plain '~' :: .plain '~' :: rest => some (.operation .symmDiff, rest)
  | first :: .plain '-' :: second :: rest =>
    if second = .plain ']' || second = .plain '-' then
      some (.members (first.alone anyCase), .plain '-' :: second :: rest)
    else some (.range first second, rest)
  | part :: rest => some (.members (part.alone anyCase), rest)

/-- The characters between the ends of a range, which are in order. -/
def rangeMembers (anyCase : Bool) (low high : ClassPart) : Except Problem CharSet :=
  match low.char?, high.char? with
  | some low, some high =>
    if low ≤ high then .ok (.between anyCase low high) else .error .badClass
  | _, _ => .error .badClass

def readClassParts (anyCase : Bool) :
    (fuel : Nat) → List ClassPart → OpenClass → List OpenClass → Except Problem CharSet
  | 0, _, _, _ => .error .badClass
  | fuel + 1, parts, o, outer =>
    match classItem? anyCase parts with
    | none => .error .badClass
    | some (.members s, rest) => readClassParts anyCase fuel rest (o.add s) outer
    | some (.opening inner, rest) => readClassParts anyCase fuel rest inner (o :: outer)
    | some (.closing, rest) =>
      match outer with
      | [] => if rest = [] then .ok o.close else .error .badClass
      | parent :: outer => readClassParts anyCase fuel rest (parent.add o.close) outer
    | some (.operation op, rest) => readClassParts anyCase fuel rest (o.operate op) outer
    | some (.range low high, rest) => do
      readClassParts anyCase fuel rest (o.add (← rangeMembers anyCase low high)) outer

/-- The set that the parts of a class are together. -/
def classSet (anyCase : Bool) (parts : List ClassPart) : Except Problem CharSet :=
  let (o, parts) := openClass parts
  readClassParts anyCase (parts.length + 1) parts o []

def readClass (anyCase : Bool) (cs : List Char) : Except Problem (CharSet × List Char) := do
  let (parts, rest) ← cutClass cs
  return (← classSet anyCase parts, rest)

end ScopeGrammar.Regex
