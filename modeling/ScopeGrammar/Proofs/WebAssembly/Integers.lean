import ScopeGrammar.Proofs.Regex.Matches
import ScopeGrammar.Proofs.Result
import ScopeGrammar.Proofs.WebAssembly.Openings

set_option autoImplicit false

namespace ScopeGrammar.WebAssembly

open Scan Fragment
open Regex (Node CharSet Found Repeats Way matchesAt_of_ways)

section Digits

variable {digit : Char → Bool}

/-- What goes on with digits behind a digit: another one, and at most an underscore before it. -/
def Further (digit : Char → Bool) (cs : List Char) : Prop :=
  ∃ c, digit c = true ∧ (cs = [c] ∨ cs = ['_', c])

theorem Digits.further {front rest : List Char} (digits : Digits digit front)
    (further : Further digit rest) : Digits digit (front ++ rest) := by
  obtain ⟨c, isDigit, rfl | rfl⟩ := further
  · exact .next digits isDigit
  · exact .apart digits isDigit

theorem digits_iff {cs : List Char} :
    Digits digit cs ↔ ∃ c rest, cs = c :: rest ∧ digit c = true ∧ Repeats (Further digit) rest := by
  constructor
  · intro digits
    induction digits with
    | @one c isDigit => exact ⟨c, [], rfl, isDigit, .nil⟩
    | @next cs d _ isDigit ih =>
      obtain ⟨c, rest, rfl, first, repeats⟩ := ih
      exact ⟨c, rest ++ [d], rfl, first, repeats.concat ⟨d, isDigit, .inl rfl⟩⟩
    | @apart cs d _ isDigit ih =>
      obtain ⟨c, rest, rfl, first, repeats⟩ := ih
      exact ⟨c, rest ++ ['_', d], rfl, first, repeats.concat ⟨d, isDigit, .inr rfl⟩⟩
  · rintro ⟨c, rest, rfl, first, repeats⟩
    have behind {front : List Char} (digits : Digits digit front) : Digits digit (front ++ rest) := by
      induction repeats generalizing front with
      | nil => rwa [List.append_nil]
      | next further _ ih =>
        rw [← List.append_assoc]
        exact ih (digits.further further)
    exact behind (.one first)

theorem denotes_digits (digits : CharSet) : (digitsTree digits).Denotes (Digits digits.mem) := by
  have one := Node.denotes_set digits
  have mark := (Node.denotes_single '_').optional true
  have further : (Node.seq (.many 0 (some 1) true (.set (.single '_'))) (.set digits)).Denotes
      (Further digits.mem) := by
    refine (mark.seq one).congr fun cs => ?_
    constructor
    · rintro ⟨_, _, rfl, rfl | rfl, c, rfl, isDigit⟩
      · exact ⟨c, isDigit, .inl rfl⟩
      · exact ⟨c, isDigit, .inr rfl⟩
    · rintro ⟨c, isDigit, rfl | rfl⟩
      · exact ⟨[], [c], rfl, .inl rfl, c, rfl, isDigit⟩
      · exact ⟨['_'], [c], rfl, .inr rfl, c, rfl, isDigit⟩
  refine (one.seq (further.star true)).congr fun cs => ?_
  rw [digits_iff]
  constructor
  · rintro ⟨_, rest, rfl, ⟨c, rfl, isDigit⟩, repeats⟩
    exact ⟨c, rest, rfl, isDigit, repeats⟩
  · rintro ⟨c, rest, rfl, isDigit, repeats⟩
    exact ⟨[c], rest, rfl, ⟨c, rfl, isDigit⟩, repeats⟩

theorem denotes_integer : integerTree.Denotes IsUnsigned := by
  have hexadecimal := (Node.denotes_single '0').seq
    ((Node.denotes_single 'x').seq (denotes_digits hexDigits))
  have decimal := denotes_digits (.range '0' '9')
  refine (hexadecimal.alt (decimal.alt Node.denotes_never)).congr fun cs => ?_
  constructor
  · rintro (⟨_, _, rfl, rfl, _, _, rfl, rfl, digits⟩ | digits | no)
    · exact .hexadecimal digits
    · exact .decimal digits
    · exact no.elim
  · intro number
    cases number with
    | decimal digits => exact .inr (.inl digits)
    | @hexadecimal cs digits => exact .inl ⟨['0'], _, rfl, rfl, ['x'], cs, rfl, rfl, digits⟩

end Digits

theorem edged_ids {front rest : List Char} :
    ids.Edged front rest ↔
      (∀ c ∈ front.getLast?, isIdChar c = false) ∧ ∀ c ∈ rest.head?, isIdChar c = false := by
  constructor
  · intro edges
    exact ⟨fun c last => mem_ids c ▸ edges.before c last,
      fun c first => mem_ids c ▸ edges.behind c first⟩
  · rintro ⟨before, behind⟩
    exact ⟨fun c last => (mem_ids c).trans (before c last),
      fun c first => (mem_ids c).trans (behind c first)⟩

theorem read_unsignedInteger :
    Regex.read unsignedInteger.source = .ok ⟨wholeWordTree integerTree⟩ ∧
      linePattern unsignedInteger = .ok ⟨wholeWordTree integerTree⟩ := by
  constructor <;> exact toOption_eq_some.1 (by decide +kernel)

/-- The pattern of unsigned integers is read as one expression on its own and in a line. It matches
where a run of identifier characters begins that is a number from end to end, and there the run. -/
theorem unsigned_integers_match :
    ∃ regex : Regex, Regex.read unsignedInteger.source = .ok regex ∧
      linePattern unsignedInteger = .ok regex ∧
      ∀ before after found, regex.MatchesAt (before ++ after) before.length found ↔
        ((∀ c ∈ before.getLast?, isIdChar c = false) ∧ IsUnsigned (after.takeWhile isIdChar)) ∧
          found = ⟨⟨before.length, before.length + (after.takeWhile isIdChar).length⟩, []⟩ := by
  obtain ⟨alone, inLine⟩ := read_unsignedInteger
  refine ⟨_, alone, inLine, fun before after found => ?_⟩
  have inside : before.length ≤ (before ++ after).length := by simp
  refine matchesAt_of_ways ⟨wholeWordTree integerTree⟩ inside rfl fun w => ?_
  refine (Node.ways_edged denotes_integer).trans ?_
  constructor
  · rintro ⟨word, rest, rfl, number, edges, rfl⟩
    obtain ⟨notBefore, notBehind⟩ := edged_ids.1 edges
    rw [takeWhile_word number.idChars.2 notBehind]
    exact ⟨⟨notBefore, number⟩, rfl⟩
  · rintro ⟨⟨notBefore, number⟩, rfl⟩
    have notBehind : ∀ c ∈ (after.dropWhile isIdChar).head?, isIdChar c = false := by
      intro c first
      have stops := List.head?_dropWhile_not isIdChar after
      rw [Option.mem_def.1 first] at stops
      exact stops
    exact ⟨_, _, List.takeWhile_append_dropWhile.symm, number, edged_ids.2 ⟨notBefore, notBehind⟩, rfl⟩

end ScopeGrammar.WebAssembly
