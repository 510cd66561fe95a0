import ScopeGrammar.Proofs.Fragment.Standalone
import ScopeGrammar.Proofs.Regex.Advancing
import ScopeGrammar.Proofs.Regex.Matches
import ScopeGrammar.Scan.Source

set_option autoImplicit false

namespace ScopeGrammar

open Regex

theorem Regex.Reading.Literal.char {r : Reading} (literal : r.Literal) (c : Char) :
    r.char c = r.atom (.set (.single c)) := by
  rw [Reading.char, literal.anyCase]
  rfl

namespace Fragment

open Scan

theorem part_special {c : Char} (escapes : c ∈ special) (r : Reading) (length : Nat)
    (rest : List Char) : r.part length '\\' (c :: rest) = .ok (r.char c, rest) := by
  have noLetter : special.all fun c => c.isDigit = false ∧ c.isAlpha = false := by decide
  obtain ⟨noDigit, noAlpha⟩ := of_decide_eq_true (List.all_eq_true.1 noLetter c escapes)
  simp [Reading.part, readEscape, noDigit, noAlpha, bind, Except.bind, pure, Except.pure]

theorem part_plain {c : Char} (plain : c ∉ special) (r : Reading) (length : Nat)
    (rest : List Char) : r.part length c rest = .ok (r.char c, rest) := by
  unfold Reading.part
  split <;> first | rfl | exact absurd (by decide) plain

theorem lays_literal (text : List Char) :
    Lays 0 (literal text).source (text.map fun c => .set (.single c)) := by
  induction text with
  | nil => exact .nil 0
  | cons c text ih =>
    have first : Lays 0 (escapeText [c]) [.set (.single c)] := by
      rw [escapeText]
      split
      · rename_i escapes
        refine .atom (by simp) (by decide) fun r literal length rest => ?_
        exact (part_special escapes r length rest).trans (by rw [literal.char])
      · rename_i plain
        have noGroup : c ≠ '(' := by
          rintro rfl
          exact plain (by decide)
        refine .atom (by simp) noGroup fun r literal length rest => ?_
        exact (part_plain plain r length rest).trans (by rw [literal.char])
    have source : (literal (c :: text)).source = escapeText [c] ++ (literal text).source :=
      escapeText_append [c] text
    rw [source]
    exact first.append ih

theorem read_literal (text : List Char) :
    Regex.read (literal text).source = .ok ⟨.row text⟩ ∧ linePattern (literal text) = .ok ⟨.row text⟩ :=
  ((lays_literal text).mono (Nat.zero_le _)).read (Node.lookable_row text)

theorem noChoice_literal (text : List Char) : hasOpenChoice (marks (literal text).source) = false := by
  refine (hasOpenChoice_marks (lexes_escapeText false text)).trans ?_
  induction text with
  | nil => rfl
  | cons c text ih => exact ih

theorem sequence_literals (texts : List (List Char)) :
    (sequence (texts.map literal)).source = (literal texts.flatten).source := by
  induction texts with
  | nil => rfl
  | cons text texts ih =>
    have bare : (literal text).sealed = literal text := by
      rw [sealed, noChoice_literal, if_neg (by simp)]
    rw [List.map_cons, source_sequence_cons, bare, ih, List.flatten_cons]
    exact (escapeText_append text texts.flatten).symm

theorem literal_matchesAt {text before after : List Char} {found : Found} :
    MatchesAt ⟨.row text⟩ (before ++ after) before.length found ↔
      text <+: after ∧ found = ⟨⟨before.length, before.length + text.length⟩, []⟩ := by
  have inside : before.length ≤ (before ++ after).length := by simp
  have settled : (Node.row text).settled = Node.row text :=
    Node.settled_of_repeats (Node.repeats_row text)
  refine matchesAt_of_ways ⟨.row text⟩ inside (by rw [settled, Node.groups_row]) fun w => ?_
  rw [settled, Node.denotes_row text _ _ _ _ _ inside, List.drop_left]
  constructor
  · rintro ⟨_, rest, rfl, rfl, rfl⟩
    exact ⟨List.prefix_append .., rfl⟩
  · rintro ⟨⟨rest, rfl⟩, rfl⟩
    exact ⟨text, rest, rfl, rfl, rfl⟩

/-- Every literal shows no choice and is read, in a line too, as an expression without groups. It
matches where its text stands, and there that text. Literals in a row are the literal of their texts
in a row. -/
theorem literals_match_themselves :
    (∀ text : List Char, hasOpenChoice (marks (literal text).source) = false ∧
      ∃ regex : Regex, Regex.read (literal text).source = .ok regex ∧
        linePattern (literal text) = .ok regex ∧ regex.groups = 0 ∧
        ∀ before after found, regex.MatchesAt (before ++ after) before.length found ↔
          text <+: after ∧ found = ⟨⟨before.length, before.length + text.length⟩, []⟩) ∧
      ∀ texts : List (List Char),
        (sequence (texts.map literal)).source = (literal texts.flatten).source := by
  refine ⟨fun text => ⟨noChoice_literal text, ⟨.row text⟩, ?_⟩, sequence_literals⟩
  obtain ⟨alone, inLine⟩ := read_literal text
  exact ⟨alone, inLine, Node.groups_row text, fun before after found => literal_matchesAt⟩

end Fragment

end ScopeGrammar
