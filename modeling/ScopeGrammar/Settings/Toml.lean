import ScopeGrammar.Json.Text
import ScopeGrammar.Settings.Value

/-!
Settings files. They are written in a part of TOML: comments, tables, dotted and quoted keys, inline
tables, lists, strings in one line, integers, decimal fractions and booleans. A key is given once, a
table is opened once, and neither adds to a value that is complete.
-/

set_option autoImplicit false

namespace ScopeGrammar.Settings.Toml

/-- How a table came to be, which decides what may be added to it. -/
inductive Origin where
  /-- It has a header, or braces. -/
  | opened
  /-- A header names a table inside it. -/
  | passed
  /-- A dotted key leads into it. -/
  | dotted
  deriving DecidableEq, Repr

inductive Entry where
  | value (v : Value)
  | table (origin : Origin) (entries : List (String × Entry))

abbrev Entries := List (String × Entry)

mutual

def Entry.toValue : Entry → Value
  | .value v => v
  | .table _ entries => .table (toValues entries)

def toValues : Entries → Value.Entries
  | [] => []
  | (key, entry) :: rest => (key, entry.toValue) :: toValues rest

end

def replaceEntry (key : String) (entry : Entry) : Entries → Entries
  | [] => [(key, entry)]
  | (k, e) :: rest => if k = key then (key, entry) :: rest else (k, e) :: replaceEntry key entry rest

/-- Change the table at the end of a dotted key. Only tables without a header and without braces are
gone through, and the last one has been made by dotted keys. -/
def alongDots (f : Entries → Option Entries) : List String → Entries → Option Entries
  | [], there => f there
  | name :: rest, there => do
    let inner ← match there.lookup name with
      | none => some []
      | some (.table .dotted inner) => some inner
      | some (.table .passed inner) => if rest = [] then none else some inner
      | some _ => none
    let origin := match there.lookup name with
      | some (.table origin _) => origin
      | _ => .dotted
    let inner ← alongDots f rest inner
    return replaceEntry name (.table origin inner) there

/-- The entries with a value under a key, whose parts lead down from the first. -/
def insert (key : List String) (v : Value) (there : Entries) : Option Entries :=
  match key.getLast? with
  | none => none
  | some last =>
    alongDots
      (fun inner => if (inner.lookup last).isSome then none else some (inner ++ [(last, .value v)]))
      key.dropLast there

/-- Change the table at the end of a header; all tables are gone through. -/
def alongHeader (f : Option Entry → Option Entry) : List String → Entries → Option Entries
  | [], _ => none
  | [name], there => do
    let entry ← f (there.lookup name)
    return replaceEntry name entry there
  | name :: rest, there => do
    let (origin, inner) ← match there.lookup name with
      | none => some (.passed, [])
      | some (.table origin inner) => some (origin, inner)
      | some (.value _) => none
    let inner ← alongHeader f rest inner
    return replaceEntry name (.table origin inner) there

/-- Open the table of a header, which has not been opened before. -/
def openTable : Option Entry → Option Entry
  | none => some (.table .opened [])
  | some (.table .passed inner) => some (.table .opened inner)
  | some _ => none

/-- Put a value into the table of a header that has been opened. -/
def insertInto (key : List String) (v : Value) : Option Entry → Option Entry
  | some (.table origin inner) => (insert key v inner).map (.table origin ·)
  | _ => none

def skipBlanks (cs : List Char) : List Char := cs.dropWhile fun c => c == ' ' || c == '\t'

def isControl (c : Char) : Bool := (c.toNat < 0x20 && c ≠ '\t') || c.toNat = 0x7f

def readLineEnd (cs : List Char) : Option (List Char) :=
  let rest := match skipBlanks cs with
    | '#' :: comment => comment.dropWhile (!isControl ·)
    | rest => rest
  match rest with
  | [] => some []
  | '\n' :: rest => some rest
  | '\r' :: '\n' :: rest => some rest
  | _ => none

def skipLines : (fuel : Nat) → List Char → List Char
  | 0, cs => cs
  | fuel + 1, cs =>
    match skipBlanks cs with
    | [] => []
    | c :: rest =>
      if c = '#' || c = '\n' || c = '\r' then
        match readLineEnd (c :: rest) with
        | some rest => skipLines fuel rest
        | none => c :: rest
      else c :: rest

def escapeLetter? : Char → Option Char
  | '"' => some '"'
  | '\\' => some '\\'
  | 'b' => some '\x08'
  | 't' => some '\t'
  | 'n' => some '\n'
  | 'f' => some '\x0c'
  | 'r' => some '\r'
  | _ => none

def readCode (digits : Nat) (cs : List Char) : Option (Char × List Char) := do
  let values ← (cs.take digits).mapM Json.hexDigit?
  if values.length < digits then none
  let code := values.foldl (fun n d => 16 * n + d) 0
  if code.isValidChar then return (Char.ofNat code, cs.drop digits) else none

def readBasic : (fuel : Nat) → List Char → Option (List Char × List Char)
  | 0, _ => none
  | fuel + 1, cs =>
    match cs with
    | '"' :: rest => some ([], rest)
    | '\\' :: c :: rest => do
      let (d, rest) ← match c with
        | 'u' => readCode 4 rest
        | 'U' => readCode 8 rest
        | c => (escapeLetter? c).map (·, rest)
      let (text, rest) ← readBasic fuel rest
      return (d :: text, rest)
    | c :: rest =>
      if c = '\\' || isControl c then none
      else do
        let (text, rest) ← readBasic fuel rest
        return (c :: text, rest)
    | [] => none

def readLiteral (cs : List Char) : Option (List Char × List Char) :=
  let text := cs.takeWhile fun c => c ≠ '\'' && !isControl c
  match cs.drop text.length with
  | '\'' :: rest => some (text, rest)
  | _ => none

def readQuoted : List Char → Option (String × List Char)
  | '"' :: rest => (readBasic (rest.length + 1) rest).map fun (text, rest) => (String.ofList text, rest)
  | '\'' :: rest => (readLiteral rest).map fun (text, rest) => (String.ofList text, rest)
  | _ => none

def isBareLetter (c : Char) : Bool := c.isAlphanum || c == '_' || c == '-'

def readKeyPart (cs : List Char) : Option (String × List Char) :=
  match cs.takeWhile isBareLetter with
  | [] => readQuoted cs
  | letters => some (String.ofList letters, cs.dropWhile isBareLetter)

def readKey : (fuel : Nat) → List Char → Option (List String × List Char)
  | 0, _ => none
  | fuel + 1, cs => do
    let (part, rest) ← readKeyPart (skipBlanks cs)
    match skipBlanks rest with
    | '.' :: rest =>
      let (parts, rest) ← readKey fuel rest
      return (part :: parts, rest)
    | rest => return ([part], rest)

/-- Digits to a base without the underscores, each of which has a digit on both sides. -/
def readDigits (isDigit : Char → Bool) : (after : Bool) → List Char → Option (List Char)
  | after, [] => if after then some [] else none
  | after, c :: rest =>
    if isDigit c then (readDigits isDigit true rest).map (c :: ·)
    else if c = '_' && after then readDigits isDigit false rest
    else none

def digitsValue (base : Nat) (digits : List Char) : Nat :=
  digits.foldl (fun n c => base * n + (Json.hexDigit? c).getD 0) 0

def bounded (n : Int) : Option Value :=
  if -(1 <<< 63 : Nat) ≤ n && n < (1 <<< 63 : Nat) then some (.int n) else none

/-- A number to the base 10 with a sign or without, its letters cut at the point and at the exponent. -/
def readDecimal (negative : Bool) (whole : List Char) (fraction : Option (List Char))
    (exponent : Option (List Char)) : Option Value := do
  let whole ← readDigits Json.isDigit false whole
  match whole with
  | '0' :: _ :: _ => none
  | _ => pure ()
  let fraction? ← fraction.mapM (readDigits Json.isDigit false)
  let exponent? ← exponent.mapM fun written => do
    let (minus, digits) := match written with
      | '-' :: digits => (true, digits)
      | '+' :: digits => (false, digits)
      | digits => (false, digits)
    return (minus, ← readDigits Json.isDigit false digits)
  let n : Json.Number := ⟨negative, whole, fraction?, exponent?⟩
  if n.isInteger then bounded (if negative then -n.significand else n.significand)
  else if n.tooLarge then none
  else return .float (.ofDecimal negative n.significand n.scale)

/-- A number or a boolean, which has no quotes. -/
def readWord (word : List Char) : Option Value :=
  let based (base : Nat) (isDigit : Char → Bool) (digits : List Char) : Option Value := do
    bounded (digitsValue base (← readDigits isDigit false digits))
  match word with
  | ['t', 'r', 'u', 'e'] => some (.bool true)
  | ['f', 'a', 'l', 's', 'e'] => some (.bool false)
  | '0' :: 'x' :: digits => based 16 (fun c => (Json.hexDigit? c).isSome) digits
  | '0' :: 'o' :: digits => based 8 (fun c => '0' ≤ c && c ≤ '7') digits
  | '0' :: 'b' :: digits => based 2 (fun c => c == '0' || c == '1') digits
  | word =>
    let (negative, magnitude) := match word with
      | '-' :: rest => (true, rest)
      | '+' :: rest => (false, rest)
      | rest => (false, rest)
    let isExponent (c : Char) : Bool := c == 'e' || c == 'E'
    let mantissa := magnitude.takeWhile (!isExponent ·)
    let exponent := match magnitude.dropWhile (!isExponent ·) with
      | [] => none
      | _ :: rest => some rest
    let whole := mantissa.takeWhile (· ≠ '.')
    let fraction := match mantissa.dropWhile (· ≠ '.') with
      | [] => none
      | _ :: rest => some rest
    readDecimal negative whole fraction exponent

def isWordLetter (c : Char) : Bool := isBareLetter c || c == '+' || c == '.'

mutual

def readValue : (fuel : Nat) → List Char → Option (Value × List Char)
  | 0, _ => none
  | fuel + 1, cs =>
    match cs with
    | '[' :: rest => do
      let (items, rest) ← readItems fuel (skipLines rest.length rest)
      return (.list items, rest)
    | '\x7b' :: rest =>
      match skipBlanks rest with
      | '\x7d' :: rest => some (.table [], rest)
      | rest => do
        let (entries, rest) ← readPairs fuel [] rest
        return (.table (toValues entries), rest)
    | c :: rest =>
      if c = '"' || c = '\'' then (readQuoted (c :: rest)).map fun (s, rest) => (.text s, rest)
      else do
        let v ← readWord ((c :: rest).takeWhile isWordLetter)
        return (v, (c :: rest).dropWhile isWordLetter)
    | [] => none

/-- The items of a list to its closing bracket; a comma may stand behind the last one. -/
def readItems : (fuel : Nat) → List Char → Option (List Value × List Char)
  | 0, _ => none
  | fuel + 1, cs =>
    match cs with
    | ']' :: rest => some ([], rest)
    | cs => do
      let (v, rest) ← readValue fuel cs
      match skipLines rest.length rest with
      | ']' :: rest => return ([v], rest)
      | ',' :: rest =>
        let (items, rest) ← readItems fuel (skipLines rest.length rest)
        return (v :: items, rest)
      | _ => none

/-- The pairs of an inline table to its closing brace, put to those before them. -/
def readPairs : (fuel : Nat) → Entries → List Char → Option (Entries × List Char)
  | 0, _, _ => none
  | fuel + 1, there, cs => do
    let (key, rest) ← readKey fuel cs
    match rest with
    | '=' :: rest =>
      let (v, rest) ← readValue fuel (skipBlanks rest)
      let there ← insert key v there
      match skipBlanks rest with
      | '\x7d' :: rest => return (there, rest)
      | ',' :: rest => readPairs fuel there rest
      | _ => none
    | _ => none

end

/-- What has been read of a file: its entries, and the header that the next pairs stand below. -/
structure Reading where
  entries : Entries
  header : List String

def Reading.line (r : Reading) (cs : List Char) : Option (Reading × List Char) := do
  match cs with
  | '[' :: rest =>
    let (header, rest) ← readKey rest.length rest
    let rest ← match rest with
      | ']' :: rest => readLineEnd rest
      | _ => none
    return (⟨← alongHeader openTable header r.entries, header⟩, rest)
  | cs =>
    let (key, rest) ← readKey cs.length cs
    let (v, rest) ← match rest with
      | '=' :: rest => readValue rest.length (skipBlanks rest)
      | _ => none
    let rest ← readLineEnd rest
    let entries ← match r.header with
      | [] => insert key v r.entries
      | header => alongHeader (insertInto key v) header r.entries
    return (⟨entries, r.header⟩, rest)

def readFile : (fuel : Nat) → Reading → List Char → Option Entries
  | 0, _, _ => none
  | fuel + 1, r, cs =>
    match skipLines cs.length cs with
    | [] => some r.entries
    | c :: rest => do
      let (r, rest) ← r.line (c :: rest)
      readFile fuel r rest

/-- The entries of a file. TOML has more than is read here: tables in arrays, strings over several
lines, dates and times, and `inf` and `nan` are refused. -/
def read (cs : List Char) : Option Value.Entries :=
  (readFile (cs.length + 1) ⟨[], []⟩ cs).map toValues

end ScopeGrammar.Settings.Toml
