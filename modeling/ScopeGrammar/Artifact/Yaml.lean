import ScopeGrammar.Artifact.Outline
import ScopeGrammar.Json.Number
import ScopeGrammar.Text.Basic

/-!
Writing outlines as YAML in block style. A text is plain where it would be read as the same text, and
otherwise quoted or, if it has line feeds, a literal block; lines are never folded.
-/

set_option autoImplicit false

namespace ScopeGrammar.Yaml

inductive Style where
  | plain
  | singleQuoted
  | doubleQuoted
  | literal
  deriving DecidableEq, Repr

/-- Characters that only double quotes can show. -/
def isSpecial (c : Char) : Bool :=
  (c.toNat < 0x20 && c ≠ '\n') || (0x7f ≤ c.toNat && c.toNat < 0xa0) ||
    c.toNat = 0xfeff || c.toNat = 0xfffe || c.toNat = 0xffff

def splitSign : List Char → Option Char × List Char
  | '+' :: rest => (some '+', rest)
  | '-' :: rest => (some '-', rest)
  | cs => (none, cs)

/-- Digits with a zero in front: not a number, but too much like one to be plain. -/
def isPaddedDigits (cs : List Char) : Bool :=
  match (splitSign cs).2 with
  | '0' :: c :: rest => (c :: rest).all Json.isDigit
  | _ => false

/-- The value of digits to a base, none of them if there is no digit or another character. -/
def digitsIn (base : Nat) (cs : List Char) : Option Nat :=
  let digit? (c : Char) : Option Nat :=
    let n :=
      if Json.isDigit c then c.toNat - '0'.toNat
      else if 'a' ≤ c && c ≤ 'f' then c.toNat - 'a'.toNat + 10
      else if 'A' ≤ c && c ≤ 'F' then c.toNat - 'A'.toNat + 10
      else base
    if n < base then some n else none
  if cs = [] then none else cs.foldlM (fun n c => (digit? c).map (base * n + ·)) 0

/-- A whole number to the base 16, 8 or 2 of at most 128 bits. -/
def isBasedInteger (cs : List Char) : Bool :=
  let (sign, magnitude) := splitSign cs
  let value? := match magnitude with
    | '0' :: 'x' :: digits => digitsIn 16 digits
    | '0' :: 'o' :: digits => digitsIn 8 digits
    | '0' :: 'b' :: digits => digitsIn 2 digits
    | _ => none
  value?.any fun n => if sign = some '-' then n ≤ 1 <<< 127 else n < 1 <<< 128

/-- A decimal number that rounds to a finite one: digits with at most one point among them, at least
one digit, and an exponent or none. -/
def isDecimal (cs : List Char) : Bool :=
  let magnitude := (splitSign cs).2
  let whole := magnitude.takeWhile Json.isDigit
  let (fraction, rest) := match magnitude.dropWhile Json.isDigit with
    | '.' :: rest => (rest.takeWhile Json.isDigit, rest.dropWhile Json.isDigit)
    | rest => ([], rest)
  let number (exponent : Option (Bool × List Char)) : Bool :=
    whole ++ fraction ≠ [] && !(Json.Number.mk false whole (some fraction) exponent).tooLarge
  match rest with
  | [] => number none
  | c :: rest =>
    let (sign, digits) := splitSign rest
    (c = 'e' || c = 'E') && digits ≠ [] && digits.all Json.isDigit &&
      number (some (sign = some '-', digits))

/-- Texts that are read as something other than a text. -/
def isReserved (cs : List Char) : Bool :=
  let s := String.ofList cs
  ["", "~", "null", "Null", "NULL", "true", "True", "TRUE", "false", "False", "FALSE",
    ".inf", ".Inf", ".INF", "+.inf", "+.Inf", "+.INF", "-.inf", "-.Inf", "-.INF",
    ".nan", ".NaN", ".NAN"].contains s ||
  isPaddedDigits cs || isBasedInteger cs || isDecimal cs

def indicators : List Char :=
  ['#', ',', '[', ']', '\x7b', '\x7d', '&', '*', '!', '|', '>', '\'', '"', '%', '@', '\x60']

/-- A colon with a blank or nothing behind it, or a hash behind a blank. -/
def hasIndicator : List Char → Bool
  | [] => false
  | [c] => c = ':'
  | ':' :: ' ' :: _ => true
  | ' ' :: '#' :: _ => true
  | _ :: rest => hasIndicator rest

def startsLikeMarkup (cs : List Char) : Bool :=
  ['-', '-', '-'].isPrefixOf cs || ['.', '.', '.'].isPrefixOf cs ||
    match cs with
    | [] => false
    | [c] => indicators.contains c || ['-', '?', ':'].contains c
    | c :: d :: _ => indicators.contains c || (['-', '?', ':'].contains c && d = ' ')

def hasBlankBeforeBreak : List Char → Bool
  | ' ' :: '\n' :: _ => true
  | _ :: rest => hasBlankBeforeBreak rest
  | [] => false

def style (cs : List Char) : Style :=
  if cs.any isSpecial then .doubleQuoted
  else if cs.contains '\n' then
    if hasBlankBeforeBreak cs || cs.getLast? = some ' ' then .doubleQuoted else .literal
  else if isReserved cs || cs.head? = some ' ' || cs.getLast? = some ' ' || startsLikeMarkup cs ||
      hasIndicator cs then .singleQuoted
  else .plain

def upperHex (width n : Nat) : List Char :=
  let digits := (Nat.toDigits 16 n).map Char.toUpper
  List.replicate (width - digits.length) '0' ++ digits

def escape (c : Char) : List Char :=
  match c with
  | '"' => ['\\', '"']
  | '\\' => ['\\', '\\']
  | '\x00' => ['\\', '0']
  | '\x07' => ['\\', 'a']
  | '\x08' => ['\\', 'b']
  | '\t' => ['\\', 't']
  | '\n' => ['\\', 'n']
  | '\x0b' => ['\\', 'v']
  | '\x0c' => ['\\', 'f']
  | '\r' => ['\\', 'r']
  | '\x1b' => ['\\', 'e']
  | '\x85' => ['\\', 'N']
  | c =>
    if !isSpecial c then [c]
    else if c.toNat < 0x100 then '\\' :: 'x' :: upperHex 2 c.toNat
    else '\\' :: 'u' :: upperHex 4 c.toNat

/-- The mark of a literal block: how deep it is indented, where its first line does not show it, and
what becomes of the line feeds at its end. -/
def literalMark (cs : List Char) : List Char :=
  let indent := match cs with
    | ' ' :: _ | '\n' :: _ => ['2']
    | _ => []
  let ending := match cs.reverse with
    | ['\n'] | '\n' :: '\n' :: _ => ['+']
    | '\n' :: _ => []
    | _ => ['-']
  '|' :: indent ++ ending

abbrev Line := List Char

/-- A line one level deeper; an empty line has no indentation. -/
def indent (line : Line) : Line := if line = [] then [] else ' ' :: ' ' :: line

/-- The lines of a literal block below its mark; the line feed at the end of the last line is not a
line more. -/
def literalLines (cs : List Char) : List Line :=
  let lines := Text.splitAt '\n' cs
  if lines.getLast? = some [] then lines.dropLast else lines

/-- The lines of a text: what stands where the text begins, and the lines below. -/
def textLines (s : String) : Line × List Line :=
  let cs := s.toList
  match style cs with
  | .plain => (cs, [])
  | .singleQuoted => ('\'' :: cs.flatMap (fun c => if c = '\'' then ['\'', '\''] else [c]) ++ ['\''], [])
  | .doubleQuoted => ('"' :: cs.flatMap escape ++ ['"'], [])
  | .literal => (literalMark cs, literalLines cs)

def keyText : Outline.Key → Line
  | .name s => (textLines s).1
  | .index n => Nat.toDigits 10 n

/-- Lines of which the first stands behind a mark and the others below are indented. -/
def behind (mark : Line) : List Line → List Line
  | [] => []
  | first :: rest => (mark ++ first) :: rest.map indent

mutual

def lines : Outline → List Line
  | .text s => (textLines s).1 :: (textLines s).2
  | .list items => if items.isEmpty then [['[', ']']] else itemLines items
  | .record fields => if fields.isEmpty then [['\x7b', '\x7d']] else fieldLines fields

def itemLines : List Outline → List Line
  | [] => []
  | item :: rest => behind ['-', ' '] (lines item) ++ itemLines rest

/-- A list or record that is not empty stands below its key, a list without indentation. -/
def fieldLines : List (Outline.Key × Outline) → List Line
  | [] => []
  | (key, value) :: rest =>
    let mark := keyText key ++ [':']
    let own := match value with
      | .list (_ :: _) => mark :: lines value
      | .record (_ :: _) => mark :: (lines value).map indent
      | _ => behind (mark ++ [' ']) (lines value)
    own ++ fieldLines rest

end

def print (o : Outline) : String := String.ofList ((lines o).flatMap (· ++ ['\n']))

end ScopeGrammar.Yaml
