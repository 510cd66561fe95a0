import Std.Data.HashMap
import ScopeGrammar.Regex.Engine
import ScopeGrammar.Scan.Line

/-!
Scanning a text line by line. Patterns are searched for with the edges of lines, so that `$` matches
before the line feed behind the line.
-/

set_option autoImplicit false

namespace ScopeGrammar.Scan

open Regex (Found)

def linePattern (f : Fragment) : Except Regex.Problem Regex :=
  Regex.read (['(', '?', 'm', ')'] ++ f.source)

/-- What a search for a pattern gives. A search that the engine gives up is a defect, and so is a
pattern that cannot be read, when it is first searched for. -/
def answer (engine : Regex.Engine) (pattern : Option Regex) (text : List Char) (pos : Nat) :
    Except Defect (Option Found) :=
  match pattern with
  | some regex =>
    if engine.givesUp regex text pos then .error (.badPattern (.top .search) .whole)
    else .ok (regex.find text pos)
  | none => .error (.badPattern (.top .search) .whole)

/-- Search a text for fragments, reading the pattern at every search. -/
def searchBy (engine : Regex.Engine) (text : List Char) : Search := fun f pos =>
  answer engine (linePattern f).toOption text pos

/-- Patterns that have been read, by the text of their fragments. -/
structure Patterns where
  table : Std.HashMap String (Option Regex)

def Patterns.read (fragments : List Fragment) : Patterns :=
  ⟨fragments.foldl
    (fun table f =>
      if table.contains f.toString then table
      else table.insert f.toString (linePattern f).toOption) ∅⟩

/-- What searching a text for a pattern gives at each position. -/
def answers (engine : Regex.Engine) (regex : Regex) (text : List Char) :
    Array (Except Defect (Option Found)) :=
  let givenUp := (engine.givenUp regex text).toArray
  (regex.findAll text).toArray.mapIdx fun pos found =>
    if givenUp.getD pos false then .error (.badPattern (.top .search) .whole) else .ok found

/-- For every pattern what searches of one text give, found when they are first asked for. -/
structure Matches where
  engine : Regex.Engine
  text : List Char
  table : Std.HashMap String (Option (Thunk (Array (Except Defect (Option Found)))))

def Patterns.matchesIn (p : Patterns) (engine : Regex.Engine) (text : List Char) : Matches :=
  ⟨engine, text, p.table.map fun _ pattern => pattern.map fun regex =>
    Thunk.mk fun _ => answers engine regex text⟩

def Matches.search (m : Matches) : Search := fun f pos =>
  match m.table[f.toString]? with
  | none => searchBy m.engine m.text f pos
  | some none => answer m.engine none m.text pos
  | some (some found) => found.get.getD pos (.ok none)

/-- Scan lines one after the other, the first of them with the given number. -/
def scanLines (engine : Regex.Engine) (p : Patterns) (r : Repository) :
    (number : Nat) → List (List Char) → (stack : List Frame) → Except Defect Result
  | _, [], stack => .ok ⟨[], (stack.map (·.label)).reverse, []⟩
  | number, content :: rest, stack => do
    let l : Line := ⟨number, content⟩
    let found := p.matchesIn engine l.text
    let line ← scanLine found.search r l stack
    let result ← scanLines engine p r (number + 1) rest line.stack
    return { result with
      tokens := line.tokens ++ result.tokens
      stalledLines := if line.stalled then number :: result.stalledLines else result.stalledLines }

def scanBy (engine : Regex.Engine) (r : Repository) (source : String) : Except Defect Result :=
  scanLines engine (Patterns.read r.fragments) r 0 (Text.lines source.toList) []

def scan (r : Repository) (source : String) : Except Defect Result := scanBy .standard r source

end ScopeGrammar.Scan
