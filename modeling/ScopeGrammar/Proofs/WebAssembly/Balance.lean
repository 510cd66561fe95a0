import ScopeGrammar.Proofs.Scan.GivenUp
import ScopeGrammar.Proofs.WebAssembly.Parentheses

set_option autoImplicit false

namespace ScopeGrammar.WebAssembly

open Scan Text

/-- What a scan of a text reports about its parentheses. Before the text `n` of them are open. -/
structure Counts (number n : Nat) (cs : List Char) (result : Result) : Prop where
  stalled : result.stalledLines = []
  depth : result.openRegions.length = depthAfter n cs
  places : (marked result.tokens).map Token.place = (strays number 0 n cs).map closingAt

theorem strays_chomp {line : List Char} (inLine : '\n' ∉ line) (number column depth : Nat) :
    strays number column depth (chomp line) = strays number column depth line ∧
      depthAfter depth (chomp line) = depthAfter depth line := by
  rcases chomp_cases line with same | same
  · rw [same]
    exact ⟨rfl, rfl⟩
  · have inside : '\n' ∉ chomp line := fun member => inLine (same ▸ by simp [member])
    rw [same, strays_append inside, depthAfter_append, ← same]
    exact ⟨by simp [strays], by simp [depthBehind]⟩

theorem counts_cons {number : Nat} {line rest : List Char} (calm : ∀ c ∈ line, c ∉ loud)
    (inLine : '\n' ∉ line) (short : byteSize (chomp line) < lineBound) {stack : List Frame}
    (rounds : Rounds stack)
    (later : ∀ stack', Rounds stack' → ∃ result,
      scanPlain searchIn grammar (number + 1) (lines rest) stack' = .ok result ∧
        Counts (number + 1) stack'.length rest result) :
    ∃ result, scanPlain searchIn grammar number (chomp line :: lines rest) stack = .ok result ∧
      Counts number stack.length (line ++ '\n' :: rest) result := by
  have quiet : Quiet ⟨number, chomp line⟩ :=
    ⟨fun c member => calm c ((chomp_begins line).subset member),
      fun member => inLine ((chomp_begins line).subset member)⟩
  obtain ⟨scanned, ok, ended, rounds', depth, places⟩ := scanLine_reads quiet short rounds
  obtain ⟨result, all, counts⟩ := later scanned.stack rounds'
  obtain ⟨same, same'⟩ := strays_chomp inLine number 0 stack.length
  simp only at depth places
  rw [same'] at depth
  rw [same] at places
  refine ⟨_, scanPlain_cons ok ended all, counts.stalled, ?_, ?_⟩
  · rw [depthAfter_append, ← depth, depthAfter_cons, depthBehind_of_ne (by decide) (by decide)]
    exact counts.depth
  · rw [strays_append inLine, strays_newline, ← depth, List.map_append, ← places, ← counts.places]
    simp [marked]

theorem scanPlain_counts (cs : List Char) (calm : ∀ c ∈ cs, c ∉ loud)
    (short : ∀ line ∈ lines cs, byteSize line < lineBound) (number : Nat) {stack : List Frame}
    (rounds : Rounds stack) :
    ∃ result, scanPlain searchIn grammar number (lines cs) stack = .ok result ∧
      Counts number stack.length cs result := by
  revert calm short number stack
  refine lines_induction (motive := fun cs ls => (∀ c ∈ cs, c ∉ loud) →
    (∀ line ∈ ls, byteSize line < lineBound) → ∀ number {stack : List Frame}, Rounds stack →
      ∃ result, scanPlain searchIn grammar number ls stack = .ok result ∧
        Counts number stack.length cs result) ?_ ?_ ?_ cs
  · intro _ _ number stack _
    exact ⟨_, rfl, rfl, by simp, by simp [marked, strays]⟩
  · intro line _ inLine calm short number stack rounds
    have quiet : Quiet ⟨number, line⟩ := ⟨calm, inLine⟩
    obtain ⟨scanned, ok, ended, -, depth, places⟩ :=
      scanLine_reads quiet (short line (by simp)) rounds
    exact ⟨_, scanPlain_cons ok ended rfl, rfl, by simp [depth], by simpa using places⟩
  · intro line rest inLine ih calm short number stack rounds
    refine counts_cons (fun c member => calm c (by simp [member])) inLine
      (short _ (by simp)) rounds fun stack' rounds' => ?_
    exact ih (fun c member => calm c (by simp [member]))
      (fun line member => short line (by simp [member])) (number + 1) rounds'

/-- Unless a search is given up, the open regions are the open parentheses, and the marked tokens are
the closing parentheses without an opening one. -/
theorem scan_parentheses (source : String) (plain : ∀ c ∈ source.toList, c ≠ '"' ∧ c ≠ ';')
    (short : ∀ line ∈ lines source.toList, byteSize line < 9000) :
    ∃ r result, repository = .ok r ∧
      (∀ engine, UnlessGivenUp engine r (lines source.toList) (scanBy engine r source)
        (.ok result)) ∧
      result.stalledLines = [] ∧ result.openRegions.length = depthAfter 0 source.toList ∧
      (result.tokensWithScope unexpected).map Token.place =
        (strays 0 0 0 source.toList).map closingAt ∧
      (Balanced source.toList → result.isClosed = true) := by
  have calm : ∀ c ∈ source.toList, c ∉ loud := by
    intro c member
    simp [loud, plain c member]
  have outside : Rounds [] := ⟨known_nil, bare_nil, by simp⟩
  obtain ⟨result, scanned, counts⟩ := scanPlain_counts source.toList calm short 0 outside
  refine ⟨grammar, result, repository_eq, scanBy_of_scanPlain scanned, counts.stalled,
    counts.depth, counts.places, fun balanced => ?_⟩
  have none : result.openRegions.length = 0 := counts.depth.trans (balanced.depthAfter 0)
  rw [Result.isClosed, counts.stalled, List.eq_nil_of_length_eq_zero none]
  rfl

def unbalanced : String := "(module (func $f\n  x)))\n(@a ("

theorem scan_parentheses_unbalanced :
    (∀ c ∈ unbalanced.toList, c ≠ '"' ∧ c ≠ ';') ∧
      (∀ line ∈ lines unbalanced.toList, byteSize line < 9000) ∧
      ∃ r result, repository = .ok r ∧ scanBy .patient r unbalanced = .ok result ∧
        result.stalledLines = [] ∧ result.openRegions.length = 2 ∧
        (result.tokensWithScope unexpected).map Token.place = [(1, 5, 6, ")")] := by
  have all : (unbalanced.toList.all fun c => c ≠ '"' ∧ c ≠ ';') = true := by decide +kernel
  have plain : ∀ c ∈ unbalanced.toList, c ≠ '"' ∧ c ≠ ';' := fun c member =>
    of_decide_eq_true (List.all_eq_true.1 all c member)
  have short : ∀ line ∈ lines unbalanced.toList, byteSize line < 9000 := by decide +kernel
  have depth : depthAfter 0 unbalanced.toList = 2 := by decide +kernel
  have places : strays 0 0 0 unbalanced.toList = [(1, 5)] := by decide +kernel
  obtain ⟨r, result, built, scanned, stalled, count, marks, -⟩ :=
    scan_parentheses unbalanced plain short
  rw [depth] at count
  rw [places] at marks
  exact ⟨plain, short, r, result, built, unlessGivenUp_patient.1 (scanned .patient), stalled,
    count, marks⟩

end ScopeGrammar.WebAssembly
