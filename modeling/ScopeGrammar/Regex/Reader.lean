import ScopeGrammar.Regex.Class

/-!
Reading the source of a regular expression. The reader goes over the source once and keeps the open
groups on a stack; an atom waits until it is known whether a quantifier follows it.
-/

set_option autoImplicit false

namespace ScopeGrammar.Regex

structure Flags where
  anyCase : Bool
  /-- `^` and `$` are edges of lines, not of the text. -/
  multiline : Bool
  /-- A dot matches a line break too. -/
  dotAll : Bool
  /-- Quantifiers are lazy, and greedy with a question mark behind them. -/
  swapGreed : Bool
  /-- Blanks and `#` comments between the parts are skipped. -/
  spaced : Bool
  deriving DecidableEq, Repr

def Flags.plain : Flags := ⟨false, false, false, false, false⟩

inductive Bracket where
  | capture
  | ahead
  | notAhead
  | behind
  | notBehind
  | atomic
  /-- A group for its own sake; the flags that hold again behind it. -/
  | plain (outside : Flags)
  deriving DecidableEq, Repr

/-- The alternatives of a group as far as they have been read, the latest first. -/
structure Level where
  finished : List Node
  /-- The pieces of the alternative that is being read, the latest first. -/
  pieces : List Node
  /-- The atom behind them, which a quantifier can still take. -/
  last : Option Node
  deriving DecidableEq, Repr

def Level.start : Level := ⟨[], [], none⟩

/-- The waiting atom becomes a piece; nothing leaves no piece. -/
def Level.settle (l : Level) : Level :=
  match l.last with
  | none | some .empty => { l with last := none }
  | some node => { l with pieces := node :: l.pieces, last := none }

def Level.atom (l : Level) (node : Node) : Level :=
  { l.settle with last := some node }

def Level.piece (l : Level) (node : Node) : Level :=
  { l with pieces := node :: l.pieces, last := none }

def Level.current (l : Level) : Node :=
  Node.sequence l.settle.pieces.reverse

def Level.bar (l : Level) : Level :=
  ⟨l.current :: l.finished, [], none⟩

def Level.node (l : Level) : Node :=
  Node.alternatives (l.current :: l.finished).reverse

/-- The state of the reader between two parts of the source. -/
structure Reading where
  flags : Flags
  level : Level
  outer : List (Bracket × Level)
  opened : Nat
  names : Bool
  /-- Whether a group has been referred to by number. -/
  numbers : Bool
  deriving DecidableEq, Repr

def Reading.start : Reading := ⟨.plain, .start, [], 0, false, false⟩

def Reading.atom (r : Reading) (node : Node) : Reading :=
  { r with level := r.level.atom node }

def Reading.char (r : Reading) (c : Char) : Reading :=
  r.atom (.set (.between r.flags.anyCase c c))

def deepestNesting : Nat := 63

/-- Skip a comment whose opening parenthesis, question mark and hash have been read. -/
def skipComment : List Char → Except Problem (List Char)
  | [] => .error .unclosedGroup
  | ')' :: rest => .ok rest
  | '\\' :: _ :: rest => skipComment rest
  | _ :: rest => skipComment rest

/-- Skip comments, and where the flags say so blanks. -/
def skipBlanks (spaced : Bool) : (fuel : Nat) → List Char → Except Problem (List Char)
  | 0, cs => .ok cs
  | fuel + 1, cs =>
    match cs with
    | '(' :: '?' :: '#' :: rest => do skipBlanks spaced fuel (← skipComment rest)
    | c :: rest =>
      if spaced && c = '#' then skipBlanks spaced fuel ((rest.dropWhile (· ≠ '\n')).drop 1)
      else if spaced && (c = ' ' || c = '\r' || c = '\n' || c = '\t') then
        skipBlanks spaced fuel rest
      else .ok cs
    | [] => .ok []

def Reading.skip (r : Reading) (cs : List Char) : Except Problem (List Char) :=
  skipBlanks r.flags.spaced cs.length cs

def spanDigits (cs : List Char) : List Char × List Char :=
  (cs.takeWhile Char.isDigit, cs.dropWhile Char.isDigit)

/-- The bounds of a counted repetition whose brace has been read: `m`, `m,`, `,n` or `m,n`. -/
def readBounds (r : Reading) (cs : List Char) : Except Problem (Option ((Nat × Option Nat) × List Char)) := do
  let cs ← r.skip cs
  let (low, rest) := spanDigits cs
  let rest ← r.skip rest
  match rest with
  | '\x7d' :: rest =>
    if low = [] then return none
    else return some ((decimalNumber low, some (decimalNumber low)), rest)
  | ',' :: rest =>
    let (high, rest) := spanDigits (← r.skip rest)
    let rest ← r.skip rest
    match rest with
    | '\x7d' :: rest =>
      let most := if high = [] then none else some (decimalNumber high)
      return some ((decimalNumber low, most), rest)
    | _ => return none
  | _ => return none

def cutMark (mark : Char) : List Char → Bool × List Char
  | [] => (false, [])
  | c :: rest => if c = mark then (true, rest) else (false, c :: rest)

/-- Repeat the waiting atom; a question mark makes the quantifier lazy and a plus keeps what it
took. -/
def Reading.quantify (r : Reading) (least : Nat) (most : Option Nat) (cs : List Char) :
    Except Problem (Reading × List Char) :=
  match r.level.last with
  | none => .error .nothingToRepeat
  | some node =>
    if !node.repeatable then .error .nothingToRepeat
    else if most.any (· < least) then .error .reversedBounds
    else do
      let cs ← r.skip cs
      let (isLazy, cs) := cutMark '?' cs
      let (keeps, cs) := cutMark '+' cs
      let repeated := Node.many least most (isLazy == r.flags.swapGreed) node
      let piece := if keeps then .atomic repeated else repeated
      return ({ r with level := r.level.piece piece }, cs)

def Reading.open (r : Reading) (bracket : Bracket) : Reading :=
  { r with
    level := .start
    outer := (bracket, r.level.settle) :: r.outer
    opened := if bracket = .capture then r.opened + 1 else r.opened }

def Bracket.node (bracket : Bracket) (body : Node) : Node :=
  match bracket with
  | .capture => .group body
  | .ahead => .ahead body
  | .notAhead => .notAhead body
  | .behind => .behind body
  | .notBehind => .notBehind body
  | .atomic => .atomic body
  | .plain _ => body

/-- Names and numbers do not go together: checked where a group without alternatives ends. -/
def Reading.checkNames (r : Reading) : Except Problem Unit :=
  if r.level.finished = [] && r.names && r.numbers then .error .badReference else .ok ()

def Reading.close (r : Reading) : Except Problem Reading :=
  match r.outer with
  | [] => .error .unopenedGroup
  | (bracket, level) :: outer => do
    r.checkNames
    let flags := match bracket with
      | .plain outside => outside
      | _ => r.flags
    let node := bracket.node r.level.node
    return { r with flags := flags, level := { level with last := some node }, outer := outer }

def Flags.set? (f : Flags) (on : Bool) : Char → Option Flags
  | 'i' => some { f with anyCase := on }
  | 'm' => some { f with multiline := on }
  | 's' => some { f with dotAll := on }
  | 'U' => some { f with swapGreed := on }
  | 'x' => some { f with spaced := on }
  | 'u' => if on then some f else none
  | _ => none

/-- Read the letters of `(?i)` or `(?i:`, after the question mark. `lead` says that nothing stands
before, or nothing since the hyphen. The result says whether a group follows. -/
def readFlags : (flags : Flags) → (on lead : Bool) → List Char → Except Problem (Flags × Bool × List Char)
  | _, _, _, [] => .error .unclosedGroup
  | flags, on, lead, c :: rest =>
    if c = ')' then if lead then .error .badFlag else .ok (flags, false, rest)
    else if c = ':' then if lead && !on then .error .badFlag else .ok (flags, true, rest)
    else if c = '-' then if on then readFlags flags false true rest else .error .badFlag
    else
      match flags.set? on c with
      | none => .error .badFlag
      | some flags => readFlags flags on false rest

def readName (cs : List Char) : Except Problem (List Char) :=
  let letters := cs.takeWhile Unicode.isWord
  match letters, cs.drop letters.length with
  | _ :: _, '>' :: rest => .ok rest
  | _, _ => .error .badGroupName

def Reading.group (r : Reading) (cs : List Char) : Except Problem (Reading × List Char) := do
  if deepestNesting ≤ r.outer.length then throw .tooDeep
  let cs ← r.skip cs
  match cs with
  | '?' :: '=' :: rest => return (r.open .ahead, rest)
  | '?' :: '!' :: rest => return (r.open .notAhead, rest)
  | '?' :: '<' :: '=' :: rest => return (r.open .behind, rest)
  | '?' :: '<' :: '!' :: rest => return (r.open .notBehind, rest)
  | '?' :: '<' :: rest => return ({ r.open .capture with names := true }, ← readName rest)
  | '?' :: 'P' :: '<' :: rest => return ({ r.open .capture with names := true }, ← readName rest)
  | '?' :: '>' :: rest => return (r.open .atomic, rest)
  | '?' :: rest =>
    let (flags, grouped, rest) ← readFlags r.flags true true rest
    let changed := { r with flags := flags }
    return (if grouped then changed.open (.plain r.flags) else changed.atom .empty, rest)
  | rest => return (r.open .capture, rest)

/-- Read one part at the start of the text, which is not empty. A reference must name a group that
has been opened, and its number stay below half the length of the source. -/
def Reading.part (r : Reading) (length : Nat) (c : Char) (rest : List Char) :
    Except Problem (Reading × List Char) :=
  match c with
  | '|' => .ok ({ r with level := r.level.bar }, rest)
  | ')' => do return (← r.close, rest)
  | '*' => r.quantify 0 none rest
  | '+' => r.quantify 1 none rest
  | '?' => r.quantify 0 (some 1) rest
  | '\x7b' => do
    match r.level.last, ← readBounds r rest with
    | some _, some ((least, most), rest) => r.quantify least most rest
    | _, _ => return (r.char '\x7b', rest)
  | '(' => r.group rest
  | '[' => do
    let (s, rest) ← readClass r.flags.anyCase rest
    return (r.atom (.set s), rest)
  | '.' => .ok (r.atom (.set (if r.flags.dotAll then .full else .compl (.single '\n'))), rest)
  | '^' => .ok (r.atom (.anchor (if r.flags.multiline then .lineStart else .textStart)), rest)
  | '$' => .ok (r.atom (.anchor (if r.flags.multiline then .lineEnd else .textEnd)), rest)
  | '\\' => do
    let (escape, rest) ← readEscape false rest
    match escape with
    | .char c => return (r.char c, rest)
    | .set s => return (r.atom (.set s), rest)
    | .anchor a => return (r.atom (.anchor a), rest)
    | .back n =>
      if n < length / 2 && n ≤ r.opened then
        return ({ r.atom (.back n) with numbers := true }, rest)
      else throw .badReference
  | c => .ok (r.char c, rest)

def readParts (length : Nat) : (fuel : Nat) → Reading → List Char → Except Problem Reading
  | 0, r, _ => .ok r
  | fuel + 1, r, cs => do
    match ← r.skip cs with
    | [] => return r
    | c :: rest =>
      let (r, rest) ← r.part length c rest
      readParts length fuel r rest

/-- The tree as it is written. -/
def Node.parse (source : List Char) : Except Problem Node := do
  let r ← readParts (String.ofList source).utf8ByteSize (source.length + 1) .start source
  if r.outer ≠ [] then throw .unclosedGroup
  r.checkNames
  return r.level.node

/-- The tree as it can be matched. -/
def Node.read (source : List Char) : Except Problem Node := do
  let tree ← Node.parse source
  tree.lookable.elim (.error .widthNotFixed) .ok

end ScopeGrammar.Regex
