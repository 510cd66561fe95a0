import ScopeGrammar.Unicode.Class
import ScopeGrammar.Unicode.Folding

set_option autoImplicit false

namespace ScopeGrammar.Regex

inductive CharSet where
  | empty
  | range (low high : Char)
  /-- The range and every case variant of its members. -/
  | rangeAnyCase (low high : Char)
  | word
  | digit
  | space
  | compl (s : CharSet)
  | union (s t : CharSet)
  | inter (s t : CharSet)
  | diff (s t : CharSet)
  | symmDiff (s t : CharSet)
  deriving DecidableEq, Repr

namespace CharSet

def mem : CharSet → Char → Bool
  | .empty, _ => false
  | .range low high, c => low ≤ c && c ≤ high
  | .rangeAnyCase low high, c =>
    (low ≤ c && c ≤ high) ||
      (Unicode.caseVariants c.toNat).any fun n => low.toNat ≤ n && n ≤ high.toNat
  | .word, c => Unicode.isWord c
  | .digit, c => Unicode.isDigit c
  | .space, c => Unicode.isSpace c
  | .compl s, c => !s.mem c
  | .union s t, c => s.mem c || t.mem c
  | .inter s t, c => s.mem c && t.mem c
  | .diff s t, c => s.mem c && !t.mem c
  | .symmDiff s t, c => s.mem c != t.mem c

def single (c : Char) : CharSet := .range c c

def full : CharSet := .compl .empty

@[simp] theorem mem_single (a c : Char) : (single a).mem c = decide (c = a) := by
  rw [Bool.eq_iff_iff]
  simp only [single, mem, Bool.and_eq_true, decide_eq_true_eq]
  exact ⟨fun h => Char.le_antisymm h.2 h.1, fun h => h ▸ ⟨Char.le_refl _, Char.le_refl _⟩⟩

@[simp] theorem mem_full (c : Char) : full.mem c = true := rfl

@[simp] theorem mem_compl (s : CharSet) (c : Char) : (compl s).mem c = !s.mem c := rfl

@[simp] theorem mem_union (s t : CharSet) (c : Char) :
    (union s t).mem c = (s.mem c || t.mem c) := rfl

/-- The characters from `low` to `high`, with their case variants where case is ignored. -/
def between (anyCase : Bool) (low high : Char) : CharSet :=
  if anyCase then .rangeAnyCase low high else .range low high

def unionOf : List CharSet → CharSet
  | [] => .empty
  | [s] => s
  | s :: rest => .union s (unionOf rest)

def hexDigit : CharSet := unionOf [.range '0' '9', .range 'A' 'F', .range 'a' 'f']

/-- The ranges of the classes that brackets name as in `[:alpha:]`; all of them are ASCII. -/
def posixRanges : List (String × List (Char × Char)) := [
  ("alnum", [('0', '9'), ('A', 'Z'), ('a', 'z')]),
  ("alpha", [('A', 'Z'), ('a', 'z')]),
  ("ascii", [('\x00', '\x7f')]),
  ("blank", [('\t', '\t'), (' ', ' ')]),
  ("cntrl", [('\x00', '\x1f'), ('\x7f', '\x7f')]),
  ("digit", [('0', '9')]),
  ("graph", [('!', '~')]),
  ("lower", [('a', 'z')]),
  ("print", [(' ', '~')]),
  ("punct", [('!', '/'), (':', '@'), ('[', '\x60'), ('\x7b', '~')]),
  ("space", [('\t', '\r'), (' ', ' ')]),
  ("upper", [('A', 'Z')]),
  ("word", [('0', '9'), ('A', 'Z'), ('_', '_'), ('a', 'z')]),
  ("xdigit", [('0', '9'), ('A', 'F'), ('a', 'f')])]

def posix? (anyCase : Bool) (name : String) : Option CharSet :=
  (posixRanges.lookup name).map fun ranges =>
    unionOf (ranges.map fun r => between anyCase r.1 r.2)

end CharSet

end ScopeGrammar.Regex
