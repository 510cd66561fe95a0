import ScopeGrammar.Regex.Node

/-!
Places in a text. A cursor keeps the text on both sides of it, the side before it in reverse, so
that stepping over a character in either direction is a pattern match.
-/

set_option autoImplicit false

namespace ScopeGrammar.Regex

structure Cursor where
  before : List Char
  after : List Char
  /-- The number of characters before. -/
  index : Nat
  deriving DecidableEq, Repr

namespace Cursor

def start (text : List Char) : Cursor := ⟨[], text, 0⟩

def text (c : Cursor) : List Char := c.before.reverse ++ c.after

def next? (c : Cursor) : Option (Char × Cursor) :=
  match c.after with
  | [] => none
  | x :: rest => some (x, ⟨x :: c.before, rest, c.index + 1⟩)

/-- The given number of steps to the left, where there are that many characters. -/
def back? : Nat → Cursor → Option Cursor
  | 0, c => some c
  | n + 1, c =>
    match c.before with
    | [] => none
    | x :: before => back? n ⟨before, x :: c.after, c.index - 1⟩

def forward : Nat → Cursor → Cursor
  | 0, c => c
  | n + 1, c =>
    match c.next? with
    | none => c
    | some (_, c) => forward n c

end Cursor

def Anchor.holds (a : Anchor) (c : Cursor) : Bool :=
  match a with
  | .textStart => c.before.isEmpty
  | .textEnd => c.after.isEmpty
  | .lineStart => c.before.head?.all (· = '\n')
  | .lineEnd => c.after.head?.all (· = '\n')
  | .wordEdge => c.before.head?.any Unicode.isWord != c.after.head?.any Unicode.isWord
  | .notWordEdge => c.before.head?.any Unicode.isWord == c.after.head?.any Unicode.isWord

end ScopeGrammar.Regex
