import ScopeGrammar.Proofs.Fragment.Structure

set_option autoImplicit false

namespace ScopeGrammar.Fragment

open Regex

/-- A source that is read on its own. Its lexemes are all that it is made of: no flags, comments,
names, references or stray braces. -/
structure Standalone where
  source : List Char
  tree : Node
  parses : Node.parse source = .ok tree
  plain : ∃ xs, Lexes false source xs

theorem lexes_escapeText (waits : Bool) (text : List Char) :
    Lexes waits (escapeText text) (text.map fun c => .atom (.set (.single c))) := by
  induction text generalizing waits with
  | nil => exact .nil waits
  | cons c rest ih =>
    rw [escapeText]
    split
    · rename_i special
      have noLetter : Fragment.special.all fun c => c.isDigit = false ∧ c.isAlpha = false := by decide
      obtain ⟨noDigit, noAlpha⟩ := of_decide_eq_true (List.all_eq_true.1 noLetter c special)
      have escaped : escaped? (c :: escapeText rest) =
          some (.atom (.set (.single c)), escapeText rest) := by
        simp [escaped?, readEscape, noDigit, noAlpha, Escape.node?, Except.toOption]
      exact .cons escaped (ih true)
    · rename_i plain
      have quantity : quantity? c = none := by
        unfold quantity?
        split <;> first | rfl | exact absurd (by decide) plain
      have node : charNode c = .set (.single c) := by
        unfold charNode
        split <;> first | rfl | exact absurd (by decide) plain
      have first : lexeme? waits c (escapeText rest) =
          some (.atom (.set (.single c)), escapeText rest) := by
        simp only [lexeme?, quantity]
        split <;> first | rw [node] | exact absurd (by decide) plain
      exact .cons first (ih true)

theorem feedAll_sets (sets : List CharSet) (l : Level) :
    ∃ level, feedAll (sets.map fun s => .atom (.set s)) ⟨l, []⟩ = .ok ⟨level, []⟩ ∧
      level.finished = l.finished ∧
      level.settle.pieces = (sets.map Node.set).reverse ++ l.settle.pieces := by
  induction sets generalizing l with
  | nil => exact ⟨l, rfl, rfl, rfl⟩
  | cons s sets ih =>
    obtain ⟨level, fed, finished, pieces⟩ := ih (l.atom (.set s))
    have settled : (l.atom (.set s)).settle.pieces = .set s :: l.settle.pieces := rfl
    refine ⟨level, fed, finished.trans (Level.settle_finished l), ?_⟩
    rw [pieces, settled]
    simp

theorem deepest_sets (sets : List CharSet) (depth : Nat) :
    deepest depth (sets.map fun s => .atom (.set s)) = depth := by
  induction sets with
  | nil => rfl
  | cons s sets ih =>
    rw [List.map_cons, deepest]
    exact (congrArg _ ih).trans (Nat.max_self depth)

theorem parse_literal (text : List Char) :
    Node.parse (literal text).source = .ok (Node.sequence (text.map fun c => .set (.single c))) := by
  obtain ⟨level, fed, finished, pieces⟩ := feedAll_sets (text.map .single) .start
  have lexes : Lexes false (literal text).source ((text.map .single).map fun s => .atom (.set s)) := by
    rw [List.map_map]
    exact lexes_escapeText false text
  have node : level.node = Node.sequence (text.map fun c => .set (.single c)) := by
    rw [Level.node_of_finished finished, pieces]
    simp [Level.start, Level.settle, Function.comp_def]
  rw [Reads.parse ⟨lexes, fed⟩, deepest_sets, if_pos (Nat.zero_le _), node]

def Standalone.literal (text : List Char) : Standalone where
  source := (Fragment.literal text).source
  tree := Node.sequence (text.map fun c => .set (.single c))
  parses := parse_literal text
  plain := ⟨_, lexes_escapeText false text⟩

end ScopeGrammar.Fragment
