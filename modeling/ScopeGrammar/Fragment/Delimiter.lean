/-!
Where the groups and classes of a pattern's source end. The source is read as a list of marks, one
for each of its units, so that the same reading applies to its characters and to its encoded bytes.
-/

set_option autoImplicit false

namespace ScopeGrammar.Fragment

/-- What a unit of a source can do to its structure. -/
inductive Mark where
  /-- A backslash: the unit after it has no effect. -/
  | escape
  | openGroup
  | closeGroup
  | openClass
  | closeClass
  | caret
  | bar
  | plain
  deriving DecidableEq, Repr

def Mark.ofCode (n : Nat) : Mark :=
  if n = '\\'.toNat then .escape
  else if n = '('.toNat then .openGroup
  else if n = ')'.toNat then .closeGroup
  else if n = '['.toNat then .openClass
  else if n = ']'.toNat then .closeClass
  else if n = '^'.toNat then .caret
  else if n = '|'.toNat then .bar
  else .plain

def marks (source : List Char) : List Mark := source.map fun c => Mark.ofCode c.toNat

/-- Where in a class the reader is. Right behind its bracket a caret negates, and there or behind
that caret a closing bracket is a member. -/
inductive Place where
  | opened
  | negated
  | inside
  deriving DecidableEq, Repr

/-- A reader of groups and classes: how many groups are open, and inside a class how many classes
and where in the innermost one. -/
structure Nesting where
  groups : Nat
  classes : Option (Nat × Place)
  deriving DecidableEq, Repr

/-- The nesting behind a mark that is not an escape. A closing parenthesis without an open group
changes nothing. -/
def Nesting.step (n : Nesting) (m : Mark) : Nesting :=
  match n.classes with
  | some (nest, place) =>
    match place, m with
    | .opened, .caret => { n with classes := some (nest, .negated) }
    | .opened, .closeClass | .negated, .closeClass => { n with classes := some (nest, .inside) }
    | _, .openClass => { n with classes := some (nest + 1, .opened) }
    | _, .closeClass => { n with classes := if nest ≤ 1 then none else some (nest - 1, .inside) }
    | _, _ => { n with classes := some (nest, .inside) }
  | none =>
    match m with
    | .openClass => { n with classes := some (1, .opened) }
    | .openGroup => { n with groups := n.groups + 1 }
    | .closeGroup => { n with groups := n.groups - 1 }
    | _ => n

def Nesting.escaped (n : Nesting) : Nesting :=
  { n with classes := n.classes.map fun c => (c.1, .inside) }

def Nesting.flat : Nesting := ⟨0, none⟩

/-- The first index, counted from `index`, of a mark behind which nothing is open. -/
def closeFrom (n : Nesting) (index : Nat) : List Mark → Option Nat
  | [] | [.escape] => none
  | .escape :: _ :: rest => closeFrom n.escaped (index + 2) rest
  | m :: rest =>
    if n.step m = .flat then some index else closeFrom (n.step m) (index + 1) rest

/-- The index of the mark that closes the group or class that the first mark opens. -/
def closingIndex : List Mark → Option Nat
  | .openGroup :: rest => closeFrom ⟨1, none⟩ 1 rest
  | .openClass :: rest => closeFrom ⟨0, some (1, .opened)⟩ 1 rest
  | _ => none

/-- Whether a bar stands outside all groups and classes, read on from a nesting. -/
def barFrom (n : Nesting) : List Mark → Bool
  | [] | [.escape] => false
  | .escape :: _ :: rest => barFrom n.escaped rest
  | m :: rest => (m = .bar && n = .flat) || barFrom (n.step m) rest

/-- Whether the source shows a choice outside all its groups and classes. -/
def hasOpenChoice (ms : List Mark) : Bool := barFrom .flat ms

end ScopeGrammar.Fragment
