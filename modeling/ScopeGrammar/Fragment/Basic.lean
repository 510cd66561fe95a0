import ScopeGrammar.Fragment.Delimiter
import ScopeGrammar.Text.Basic

/-!
Fragments of regular expressions. The combinators group an operand exactly where its source would
otherwise come apart in its new surroundings, so that a fragment keeps its meaning and its groups
their order wherever it is put.
-/

set_option autoImplicit false

namespace ScopeGrammar

/-- The source of a part of a regular expression. -/
structure Fragment where
  source : List Char
  deriving DecidableEq, Repr, Inhabited

namespace Fragment

def ofString (s : String) : Fragment := ⟨Text.characters s⟩

def toString (f : Fragment) : String := String.ofList f.source

@[simp] theorem toString_ofString (s : String) : (ofString s).toString = s := by
  rw [ofString, toString, Text.characters_eq, String.ofList_toList]

@[simp] theorem ofString_toString (f : Fragment) : ofString f.toString = f := by
  rw [ofString, toString, Text.characters_eq, String.toList_ofList]

def isEmpty (f : Fragment) : Bool := f.source.isEmpty

/-- The characters that have a meaning of their own somewhere in a pattern. -/
def special : List Char :=
  ['\\', '.', '+', '*', '?', '(', ')', '|', '[', ']', '\x7b', '\x7d', '^', '$', '#', '&', '-', '~']

def escapeText : List Char → List Char
  | [] => []
  | c :: rest => if c ∈ special then '\\' :: c :: escapeText rest else c :: escapeText rest

def literal (text : List Char) : Fragment := ⟨escapeText text⟩

/-- Whether a quantifier behind the source applies to all of it: one character, one escape, or one
group or class from end to end. -/
def isAtomic (f : Fragment) : Bool :=
  match f.source with
  | [] => false
  | [c] => !(['\\', '|', '(', ')', '[', ']'].contains c)
  | ['\\', _] => true
  | source => closingIndex (marks source) = some (source.length - 1)

def wrapped (f : Fragment) : Fragment := ⟨'(' :: '?' :: ':' :: f.source ++ [')']⟩

/-- The fragment as an operand of a quantifier. -/
def grouped (f : Fragment) : Fragment := if f.isAtomic then f else f.wrapped

/-- The fragment as an operand of a sequence. -/
def sealed (f : Fragment) : Fragment := if hasOpenChoice (marks f.source) then f.wrapped else f

def sequence (parts : List Fragment) : Fragment := ⟨parts.flatMap (·.sealed.source)⟩

/-- The first of the options that matches. -/
def alternative : List Fragment → Fragment
  | [f] => f.sealed
  | options => wrapped ⟨List.intercalate ['|'] (options.map source)⟩

def group (f : Fragment) : Fragment := f.grouped

/-- A capturing group; it takes the place of a group that captures nothing. -/
def capture (f : Fragment) : Fragment :=
  match f.source with
  | '(' :: '?' :: ':' :: body =>
    if f.isAtomic then ⟨'(' :: body⟩ else ⟨'(' :: f.source ++ [')']⟩
  | source => ⟨'(' :: source ++ [')']⟩

def optional (f : Fragment) : Fragment := ⟨f.grouped.source ++ ['?']⟩

def oneOrMore (f : Fragment) : Fragment := ⟨f.grouped.source ++ ['+']⟩

def zeroOrMore (f : Fragment) : Fragment := ⟨f.grouped.source ++ ['*']⟩

def set (members : List (List Char)) : Fragment := ⟨'[' :: members.flatten ++ [']']⟩

def lookAhead (f : Fragment) : Fragment := ⟨'(' :: '?' :: '=' :: f.source ++ [')']⟩

def negativeLookAhead (f : Fragment) : Fragment := ⟨'(' :: '?' :: '!' :: f.source ++ [')']⟩

def lookBehind (f : Fragment) : Fragment := ⟨'(' :: '?' :: '<' :: '=' :: f.source ++ [')']⟩

def negativeLookBehind (f : Fragment) : Fragment := ⟨'(' :: '?' :: '<' :: '!' :: f.source ++ [')']⟩

def wholeWord (word wordChar : Fragment) : Fragment :=
  sequence [negativeLookBehind wordChar, group word, negativeLookAhead wordChar]

/-- The place right behind `word` as a whole word. -/
def lastWholeWord (word wordChar : Fragment) : Fragment :=
  lookBehind (wholeWord word wordChar)

@[simp] theorem source_sequence_nil : (sequence []).source = [] := rfl

@[simp] theorem source_sequence_cons (f : Fragment) (rest : List Fragment) :
    (sequence (f :: rest)).source = f.sealed.source ++ (sequence rest).source := by
  simp [sequence]

theorem escapeText_append (s t : List Char) :
    escapeText (s ++ t) = escapeText s ++ escapeText t := by
  induction s with
  | nil => rfl
  | cons c rest ih => by_cases h : c ∈ special <;> simp [escapeText, h, ih]

/-- A capture of a whole group keeps the parenthesis that closes the group. -/
theorem capture_of_wrapped {f : Fragment} {body : List Char}
    (shape : f.source = '(' :: '?' :: ':' :: body) (whole : f.isAtomic = true) :
    f.capture.source = '(' :: body := by
  simp [capture, shape, whole]

end Fragment

end ScopeGrammar
