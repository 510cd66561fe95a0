import ScopeGrammar.Json.Text

/-!
JSON texts as they are written. A text that stops being JSON somewhere is read up to there, so that
what was wrong earlier in the text can be told from what is wrong there.
-/

set_option autoImplicit false

namespace ScopeGrammar.Json

/-- How a list or an object ends: with its bracket, or with a fault in the place of the bracket or
of what leads on to the next entry. -/
inductive Ending where
  | closed
  | broken (fault : Fault)
  deriving DecidableEq, Repr

inductive Document where
  | null
  | bool (b : Bool)
  | number (n : Number)
  | string (q : Quoted)
  | array (items : List Document) (ending : Ending)
  | object (members : List (Quoted × Document)) (ending : Ending)
  /-- A fault in the place of a value; nothing behind it has been read. -/
  | broken (fault : Fault)
  deriving Inhabited

def Ending.check : Ending → Except Fault Unit
  | .closed => .ok ()
  | .broken fault => .error fault

def isBlank (c : Char) : Bool := c == ' ' || c == '\n' || c == '\t' || c == '\r'

def skipBlanks (cs : List Char) : List Char := cs.dropWhile isBlank

def readLetters : List Char → List Char → Except Fault (List Char)
  | [], cs => .ok cs
  | _ :: _, [] => .error .unfinished
  | x :: word, c :: rest => if x = c then readLetters word rest else .error .malformed

/-- What a reader got, and the text behind it unless a fault stopped the reader. -/
abbrev Read (α : Type) := α × Option (List Char)

def readWord (word : String) (document : Document) (cs : List Char) : Read Document :=
  match readLetters word.toList cs with
  | .ok rest => (document, some rest)
  | .error fault => (.broken fault, none)

mutual

def readDocument : (fuel : Nat) → List Char → Read Document
  | 0, _ => (.broken .malformed, none)
  | fuel + 1, cs =>
    match skipBlanks cs with
    | [] => (.broken .unfinished, none)
    | '"' :: rest =>
      let (q, rest) := cutQuoted rest
      (.string q, if q.closed then some rest else none)
    | '[' :: rest =>
      match skipBlanks rest with
      | [] => (.array [] (.broken .unfinished), none)
      | ']' :: rest => (.array [] .closed, some rest)
      | rest =>
        let ((items, ending), rest) := readItems fuel rest
        (.array items ending, rest)
    | '\x7b' :: rest =>
      match skipBlanks rest with
      | [] => (.object [] (.broken .unfinished), none)
      | '\x7d' :: rest => (.object [] .closed, some rest)
      | '"' :: rest =>
        let ((members, ending), rest) := readMembers fuel rest
        (.object members ending, rest)
      | _ => (.object [] (.broken .malformed), none)
    | c :: rest =>
      if c = 'n' then readWord "null" .null (c :: rest)
      else if c = 't' then readWord "true" (.bool true) (c :: rest)
      else if c = 'f' then readWord "false" (.bool false) (c :: rest)
      else if c = '-' || isDigit c then
        match readNumber (c :: rest) with
        | .ok (n, rest) => (.number n, some rest)
        | .error fault => (.broken fault, none)
      else (.broken .malformed, none)

def readItems : (fuel : Nat) → List Char → Read (List Document × Ending)
  | 0, _ => (([], .broken .malformed), none)
  | fuel + 1, cs =>
    let (item, rest) := readDocument fuel cs
    match rest with
    | none => (([item], .broken .unfinished), none)
    | some rest =>
      match skipBlanks rest with
      | [] => (([item], .broken .unfinished), none)
      | ']' :: rest => (([item], .closed), some rest)
      | ',' :: rest =>
        match skipBlanks rest with
        | ']' :: _ => (([item, .broken .malformed], .closed), none)
        | rest =>
          let ((items, ending), rest) := readItems fuel rest
          ((item :: items, ending), rest)
      | _ => (([item], .broken .malformed), none)

/-- Read the members of an object from a key on, whose opening quote has been read. -/
def readMembers : (fuel : Nat) → List Char → Read (List (Quoted × Document) × Ending)
  | 0, _ => (([], .broken .malformed), none)
  | fuel + 1, cs =>
    let (key, rest) := cutQuoted cs
    match skipBlanks rest with
    | [] => (([(key, .broken .unfinished)], .broken .unfinished), none)
    | ':' :: rest =>
      let (value, rest) := readDocument fuel rest
      match rest with
      | none => (([(key, value)], .broken .unfinished), none)
      | some rest =>
        match skipBlanks rest with
        | [] => (([(key, value)], .broken .unfinished), none)
        | '\x7d' :: rest => (([(key, value)], .closed), some rest)
        | ',' :: rest =>
          match skipBlanks rest with
          | '"' :: rest =>
            let ((members, ending), rest) := readMembers fuel rest
            (((key, value) :: members, ending), rest)
          | [] => (([(key, value)], .broken .unfinished), none)
          | _ => (([(key, value)], .broken .malformed), none)
        | _ => (([(key, value)], .broken .malformed), none)
    | _ => (([(key, .broken .malformed)], .broken .malformed), none)

end

def Document.read (cs : List Char) : Read Document := readDocument (2 * cs.length + 2) cs

mutual

def Document.skip : Document → Except Fault Unit
  | .null | .bool _ | .number _ => .ok ()
  | .string q => q.skip
  | .array items ending => do
    skipItems items
    ending.check
  | .object members ending => do
    skipMembers members
    ending.check
  | .broken fault => .error fault

def skipItems : List Document → Except Fault Unit
  | [] => .ok ()
  | item :: rest => do
    item.skip
    skipItems rest

def skipMembers : List (Quoted × Document) → Except Fault Unit
  | [] => .ok ()
  | (key, value) :: rest => do
    key.skip
    value.skip
    skipMembers rest

end

/-- The fault of a value that is not of the kind asked for. -/
def Document.refuse : Document → Fault
  | .broken fault => fault
  | .string q => match q.decode with
    | .error fault => fault
    | .ok _ => .mismatched
  | .number n => if n.tooLarge then .malformed else .mismatched
  | _ => .mismatched

end ScopeGrammar.Json
