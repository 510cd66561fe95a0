import ScopeGrammar.Proofs.Fragment.Classes
import ScopeGrammar.Proofs.Fragment.Combining

set_option autoImplicit false

namespace ScopeGrammar.Fragment

open Regex Scan

section Reading

variable {word : List Char} {c : Fragment} {s : CharSet}

theorem not_isAtomic_literal (a b : Char) (word : List Char) :
    (literal (a :: b :: word)).isAtomic = false := by
  rw [← Bool.not_eq_true]
  intro atomic
  have plain {d : Char} (is : d ∈ ['\\', '(', '[']) : d ∈ special := by
    have among : ∀ d ∈ ['\\', '(', '['], d ∈ special := by simp [special]
    exact among d is
  have some : escapeText (b :: word) ≠ [] := by
    rw [escapeText]
    split <;> simp
  have source : (literal (a :: b :: word)).source =
      if a ∈ special then '\\' :: a :: escapeText (b :: word) else a :: escapeText (b :: word) := rfl
  rcases isAtomic_cases atomic with ⟨d, one, -⟩ | ⟨d, two⟩ | ⟨d, rest, opens, more, -⟩
  · have whole := source.symm.trans one
    split at whole <;> simp_all
  · have whole := source.symm.trans two
    split at whole
    · simp_all
    · rename_i other
      exact other (plain (by simp [(List.cons.inj whole).1]))
  · have whole := source.symm.trans more
    split at whole
    · obtain rfl := (List.cons.inj whole).1
      simp at opens
    · rename_i other
      obtain rfl := (List.cons.inj whole).1
      exact other (plain (by simp [opens]))

theorem lays_group (some : word ≠ []) : Lays 1 (group (literal word)).source [.row word] := by
  have lays := lays_literal word
  unfold group grouped
  split
  · rename_i atomic
    match word with
    | [a] => exact lays.mono (Nat.zero_le 1)
    | a :: b :: word => simp [not_isAtomic_literal] at atomic
  · refine lays.bracketed (.plain .plain) (by simp) ?_
    match word with
    | [a] => simp [Bracket.node, Node.sequence]
    | a :: b :: word => simp [Bracket.node, Node.sequence]

theorem noChoice_group (word : List Char) :
    hasOpenChoice (marks (group (literal word)).source) = false := by
  unfold group grouped
  split
  · exact noChoice_literal word
  · obtain ⟨level, reads, -⟩ := reads_of_parse (lexes_escapeText false word) (parse_literal word)
    obtain ⟨ys, reads, noBar⟩ := reads_bracketed reads (.plain .plain) ['?', ':'] rfl
    exact (hasOpenChoice_marks reads.lexes).trans noBar

theorem IsClass.noChoice (isClass : c.IsClass s) (text : List Char) (inert : Inert text) :
    hasOpenChoice (marks ('(' :: (text ++ (c.source ++ [')'])))) = false := by
  have split : marks ('(' :: (text ++ (c.source ++ [')']))) =
      .openGroup :: (marks text ++ (marks c.source ++ [.closeGroup])) := by
    simp [marks, Mark.ofCode]
  rw [split, hasOpenChoice, barFrom_unit (by decide)]
  exact (barFrom_plain inert.marks 1 _).trans isClass.barFrom_eq

theorem lays_wholeWord (isClass : c.IsClass s) (some : word ≠ []) :
    Lays 1 (wholeWord (literal word) c).source
      [.notBehind (.set s), .row word, .notAhead (.set s)] := by
  have behind : Lays 1 (negativeLookBehind c).source [.notBehind (.set s)] :=
    isClass.lays.bracketed .notBehind (by simp) (by simp [Bracket.node])
  have ahead : Lays 1 (negativeLookAhead c).source [.notAhead (.set s)] :=
    isClass.lays.bracketed .notAhead (by simp) (by simp [Bracket.node])
  have bare {f : Fragment} (noChoice : hasOpenChoice (marks f.source) = false) : f.sealed = f := by
    rw [sealed, noChoice, if_neg (by simp)]
  have source : (wholeWord (literal word) c).source =
      (negativeLookBehind c).source ++ ((group (literal word)).source ++
        (negativeLookAhead c).source) := by
    have first : (negativeLookBehind c).sealed = negativeLookBehind c :=
      bare (isClass.noChoice ['?', '<', '!'] (by decide))
    have last : (negativeLookAhead c).sealed = negativeLookAhead c :=
      bare (isClass.noChoice ['?', '!'] (by decide))
    rw [wholeWord, source_sequence_cons, source_sequence_cons, source_sequence_cons,
      source_sequence_nil, List.append_nil, first, bare (noChoice_group word), last]
  rw [source]
  exact behind.append ((lays_group some).append ahead)

theorem lookable_edged (s : CharSet) (word : List Char) :
    (Node.edged s (.row word)).lookable = some (.edged s (.row word)) := by
  simp [Node.edged, Node.lookable, Node.lookable_row, Node.notLookBehind, Node.width]

theorem read_wholeWord (isClass : c.IsClass s) (some : word ≠ []) :
    Regex.read (wholeWord (literal word) c).source = .ok ⟨.edged s (.row word)⟩ ∧
      linePattern (wholeWord (literal word) c) = .ok ⟨.edged s (.row word)⟩ :=
  ((lays_wholeWord isClass some).mono (by decide)).read (lookable_edged s word)

theorem read_lastWholeWord (isClass : c.IsClass s) (some : word ≠ []) :
    Regex.read (lastWholeWord (literal word) c).source = .ok ⟨.behind (.edged s (.row word))⟩ ∧
      linePattern (lastWholeWord (literal word) c) = .ok ⟨.behind (.edged s (.row word))⟩ := by
  have lays : Lays 2 (lastWholeWord (literal word) c).source [.behind (.edged s (.row word))] :=
    (lays_wholeWord isClass some).bracketed .behind (by simp) (by simp [Bracket.node])
  refine (lays.mono (by decide)).read ?_
  simp [Node.sequence, Node.lookable, lookable_edged, Node.lookBehind, Node.width_edged,
    Node.width_row]

end Reading

section Matching

variable {word before after : List Char} {s : CharSet} {found : Found}

theorem repeats_edged (s : CharSet) (word : List Char) :
    (Node.edged s (.row word)).repeats = false := by
  simp [Node.edged, Node.repeats, Node.repeats_row]

theorem groups_edged (s : CharSet) (word : List Char) : (Node.edged s (.row word)).groups = 0 := by
  simp [Node.edged, Node.groups, Node.groups_row]

theorem wholeWord_matchesAt :
    MatchesAt ⟨.edged s (.row word)⟩ (before ++ after) before.length found ↔
      (∃ rest, after = word ++ rest ∧ s.Edged before rest) ∧
        found = ⟨⟨before.length, before.length + word.length⟩, []⟩ := by
  have inside : before.length ≤ (before ++ after).length := by simp
  have settled := Node.settled_of_repeats (repeats_edged s word)
  refine matchesAt_of_ways ⟨.edged s (.row word)⟩ inside (by rw [settled, groups_edged])
    fun w => ?_
  rw [settled, Node.ways_edged (Node.denotes_row word)]
  constructor
  · rintro ⟨_, rest, there, rfl, edges, rfl⟩
    exact ⟨⟨rest, there, edges⟩, rfl⟩
  · rintro ⟨⟨rest, there, edges⟩, rfl⟩
    exact ⟨word, rest, there, rfl, edges, rfl⟩

theorem lastWholeWord_matchesAt :
    MatchesAt ⟨.behind (.edged s (.row word))⟩ (before ++ after) before.length found ↔
      (∃ front, before = front ++ word ∧ s.Edged front after) ∧
        found = ⟨⟨before.length, before.length⟩, []⟩ := by
  have inside : before.length ≤ (before ++ after).length := by simp
  have settled : (Node.behind (.edged s (.row word))).settled = .behind (.edged s (.row word)) :=
    Node.settled_of_repeats (repeats_edged s word)
  refine matchesAt_of_ways ⟨.behind (.edged s (.row word))⟩ inside
    (by rw [settled]; exact groups_edged s word) fun w => ?_
  rw [settled, Node.ways_behind_edged (Node.denotes_row word) (Node.width_row word)
    fun _ same => congrArg _ same]
  constructor
  · rintro ⟨front, _, there, rfl, edges, rfl⟩
    exact ⟨⟨front, there, edges⟩, rfl⟩
  · rintro ⟨⟨front, there, edges⟩, rfl⟩
    exact ⟨front, word, there, rfl, edges, rfl⟩

end Matching

/-- A word is read as one expression on its own and in a line. As a whole word it matches where it
stands with no character of the class before or behind it, and there exactly the word; as the last
whole word it matches the place where such a word ends, and there nothing. -/
theorem whole_words_match {word : List Char} (some : word ≠ []) {c : Fragment} {s : CharSet}
    (isClass : c.IsClass s) :
    ∃ whole last : Regex,
      Regex.read (wholeWord (literal word) c).source = .ok whole ∧
      linePattern (wholeWord (literal word) c) = .ok whole ∧
      Regex.read (lastWholeWord (literal word) c).source = .ok last ∧
      linePattern (lastWholeWord (literal word) c) = .ok last ∧
      ∀ before after found,
        (whole.MatchesAt (before ++ after) before.length found ↔
          (∃ rest, after = word ++ rest ∧ s.Edged before rest) ∧
            found = ⟨⟨before.length, before.length + word.length⟩, []⟩) ∧
        (last.MatchesAt (before ++ after) before.length found ↔
          (∃ front, before = front ++ word ∧ s.Edged front after) ∧
            found = ⟨⟨before.length, before.length⟩, []⟩) := by
  obtain ⟨whole, wholeInLine⟩ := read_wholeWord isClass some
  obtain ⟨last, lastInLine⟩ := read_lastWholeWord isClass some
  exact ⟨_, _, whole, wholeInLine, last, lastInLine, fun before after found =>
    ⟨wholeWord_matchesAt, lastWholeWord_matchesAt⟩⟩

/-- A word with operators in it, next to characters that are of the class and others that are not. -/
theorem whole_words_match_operators :
    "a+|".toList ≠ [] ∧ IsClass ⟨['\\', 'w']⟩ .word ∧
      ∃ whole last : Regex,
        linePattern (wholeWord (literal "a+|".toList) ⟨['\\', 'w']⟩) = .ok whole ∧
        linePattern (lastWholeWord (literal "a+|".toList) ⟨['\\', 'w']⟩) = .ok last ∧
        whole.MatchesAt "(a+|)".toList 1 ⟨⟨1, 4⟩, []⟩ ∧
        last.MatchesAt "(a+|)".toList 4 ⟨⟨4, 4⟩, []⟩ ∧
        (∀ found, ¬ whole.MatchesAt "xa+|)".toList 1 found) ∧
        ∀ found, ¬ last.MatchesAt "(a+|x".toList 4 found := by
  have some : "a+|".toList ≠ [] := by decide
  have isClass : IsClass ⟨['\\', 'w']⟩ .word := .escapedSet rfl
  obtain ⟨whole, last, -, wholeInLine, -, lastInLine, agree⟩ := whole_words_match some isClass
  have edges : CharSet.word.Edged ['('] [')'] := by
    constructor <;> (rintro _ ⟨⟩; decide)
  refine ⟨some, isClass, whole, last, wholeInLine, lastInLine, ?_, ?_, ?_, ?_⟩
  · exact (agree ['('] "a+|)".toList _).1.2 ⟨⟨[')'], rfl, edges⟩, rfl⟩
  · exact (agree "(a+|".toList [')'] _).2.2 ⟨⟨['('], rfl, edges⟩, rfl⟩
  · intro found here
    obtain ⟨⟨rest, -, edges⟩, -⟩ := (agree ['x'] "a+|)".toList found).1.1 here
    exact absurd (edges.before 'x' rfl) (by decide)
  · intro found here
    obtain ⟨⟨front, -, edges⟩, -⟩ := (agree "(a+|".toList ['x'] found).2.1 here
    exact absurd (edges.behind 'x' rfl) (by decide)

end ScopeGrammar.Fragment
