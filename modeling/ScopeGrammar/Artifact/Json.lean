import ScopeGrammar.Artifact.Outline
import ScopeGrammar.Json.Text

set_option autoImplicit false

namespace ScopeGrammar.Json

/-- The blanks between the parts of a text. -/
structure Layout where
  lineBreak : Nat → List Char
  gap : List Char

namespace Layout

def compact : Layout := ⟨fun _ => [], []⟩

def indented : Layout := ⟨fun depth => '\n' :: List.replicate (2 * depth) ' ', [' ']⟩

end Layout

def writeKey : Outline.Key → List Char
  | .name s => encode s
  | .index n => '"' :: Nat.toDigits 10 n ++ ['"']

/-- The entries of a list or an object at a depth, between its brackets. -/
def writeEntries (l : Layout) (depth : Nat) (opening closing : Char) : List (List Char) → List Char
  | [] => [opening, closing]
  | entries =>
    let lines := entries.map (l.lineBreak (depth + 1) ++ ·)
    opening :: List.intercalate [','] lines ++ l.lineBreak depth ++ [closing]

mutual

def write (l : Layout) (depth : Nat) : Outline → List Char
  | .text s => encode s
  | .list items => writeEntries l depth '[' ']' (writeItems l (depth + 1) items)
  | .record fields => writeEntries l depth '\x7b' '\x7d' (writeFields l (depth + 1) fields)

def writeItems (l : Layout) (depth : Nat) : List Outline → List (List Char)
  | [] => []
  | item :: rest => write l depth item :: writeItems l depth rest

def writeFields (l : Layout) (depth : Nat) : List (Outline.Key × Outline) → List (List Char)
  | [] => []
  | (key, value) :: rest =>
    (writeKey key ++ ':' :: l.gap ++ write l depth value) :: writeFields l depth rest

end

def print (l : Layout) (o : Outline) : String := String.ofList (write l 0 o)

end ScopeGrammar.Json
