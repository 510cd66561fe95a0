import ScopeGrammar.Proofs.Regex.Edges
import ScopeGrammar.Proofs.Scan.Answered
import ScopeGrammar.Proofs.Scan.Reach

/-!
What has been built can be scanned. A scan gets to fragments and names alone that have been checked;
it reads the fragments behind a flag for lines, which they can stand behind unless they begin with a
number of repetitions.
-/

set_option autoImplicit false

namespace ScopeGrammar.Scan

open Regex (opensCounted)

section Built

variable {b : Builder} {entry : List Pattern} {r : Repository}

/-- Every fragment of a leaf has been read when the repository was built. -/
theorem read_of_leaf (built : b.build entry = .ok r) {leaf : Leaf} (known : leaf ∈ leaves r)
    {f : Fragment} (member : f ∈ leaf.fragments) : ∃ regex, Regex.read f.source = .ok regex := by
  obtain ⟨⟨site, pattern⟩, among, is⟩ := List.mem_filterMap.1 known
  have clean := clean_of_build built among
  cases pattern with
  | reference name => cases is
  | inline rule =>
    cases rule with
    | anyOf children => cases is
    | single rule =>
      cases is
      simp only [Part.defects, List.append_eq_nil_iff] at clean
      obtain rfl := List.mem_singleton.1 member
      obtain ⟨regex, read, -⟩ := read_of_patternDefects clean.1.1
      exact ⟨regex, read⟩
    | region region children =>
      cases is
      simp only [Part.defects, List.append_eq_nil_iff] at clean
      obtain ⟨⟨⟨⟨⟨opening, closing⟩, -⟩, -⟩, -⟩, -⟩ := clean
      simp only [Leaf.fragments, List.mem_cons, List.not_mem_nil, or_false] at member
      rcases member with rfl | rfl
      · obtain ⟨regex, read, -⟩ := read_of_patternDefects opening
        exact ⟨regex, read⟩
      · obtain ⟨regex, read, -⟩ := read_of_patternDefects closing
        exact ⟨regex, read⟩

theorem read_of_offer (built : b.build entry = .ok r) {stack : List Frame} (known : Known r stack)
    {o : Offer} (offered : o ∈ offers r.rules (context r stack)) :
    ∃ regex, Regex.read o.pattern.source = .ok regex := by
  obtain ⟨leaf, inside, member⟩ := leaf_of_offer known offered
  exact read_of_leaf built inside member

theorem linePattern_ok_iff {f : Fragment} {regex : Regex} (read : Regex.read f.source = .ok regex) :
    (∃ lined, linePattern f = .ok lined) ↔ opensCounted f.source = false := by
  cases counted : opensCounted f.source with
  | false =>
    obtain ⟨lined, behind, -⟩ := Regex.read_lineFlag read counted
    exact iff_of_true ⟨lined, behind⟩ rfl
  | true =>
    refine iff_of_false ?_ (by simp)
    rintro ⟨lined, behind⟩
    cases (Regex.read_lineFlag_counted counted).symm.trans behind

theorem Reached.frames_live (built : b.build entry = .ok r) {search : List Char → Search}
    {lines : List (List Char)} {number made pos : Nat} {stack : List Frame}
    (reached : Reached search r lines number made pos stack) :
    ∀ frame ∈ stack, frame.Inside r.Live :=
  reached.invariant (by simp) fun inside stepped =>
    (step_inside (Repository.closed_of_build built) inside stepped).2 _ _ rfl

theorem read_of_searched (built : b.build entry = .ok r) {engine : Regex.Engine}
    {lines : List (List Char)} {f : Fragment} {text : List Char} {pos : Nat}
    (searched : Searched engine r lines f text pos) :
    ∃ regex, Regex.read f.source = .ok regex := by
  obtain ⟨number, made, stack, content, reached, -, -, -, o, offered, rfl⟩ := searched
  exact read_of_offer built reached.known offered

/-- Every name that a scan follows is registered: those of the children of a region it has opened,
and those that a registered rule refers to. Every fragment that a scan searches for has been read
when the repository was built, and can be read behind the flag for lines unless it begins with a
number of repetitions. The scan gives a result where it searches for no such fragment and the engine
gives up none of its searches, and is told that there is a bad pattern otherwise. -/
theorem scan_searches (built : b.build entry = .ok r) (engine : Regex.Engine) (source : String) :
    (∀ number made pos stack,
      Reached (searchBy engine) r (Text.lines source.toList) number made pos stack →
        ∀ name ∈ referencesOf (context r stack).children, ∃ rule, r.get? name = some rule) ∧
    (∀ name rule, r.get? name = some rule →
      ∀ other ∈ rule.references, ∃ rule, r.get? other = some rule) ∧
    (∀ f text pos, Searched engine r (Text.lines source.toList) f text pos →
      (∃ regex, Regex.read f.source = .ok regex) ∧
        ((∃ regex, linePattern f = .ok regex) ↔ opensCounted f.source = false)) ∧
    ((∃ result, scanBy engine r source = .ok result) ↔
      ∀ f text pos, Searched engine r (Text.lines source.toList) f text pos →
        opensCounted f.source = false ∧
          ∀ regex, linePattern f = .ok regex → engine.givesUp regex text pos = false) ∧
    ∀ defect, scanBy engine r source = .error defect →
      defect = .badPattern (.top .search) .whole := by
  have readable : ∀ f text pos, Searched engine r (Text.lines source.toList) f text pos →
      (∃ regex, Regex.read f.source = .ok regex) ∧
        ((∃ regex, linePattern f = .ok regex) ↔ opensCounted f.source = false) := by
    intro f text pos searched
    obtain ⟨regex, read⟩ := read_of_searched built searched
    exact ⟨⟨regex, read⟩, linePattern_ok_iff read⟩
  refine ⟨fun number made pos stack reached name member => ?_,
    fun name rule registered => registered_of_rule built registered, readable, ⟨?_, ?_⟩,
    fun defect failed => (searched_of_scan_error failed).1⟩
  · have closed := Repository.closed_of_build built
    have live := context_references closed (reached.frames_live built) name member
    obtain ⟨rule, registered, -⟩ := closed.rules name live
    exact ⟨rule, registered⟩
  · rintro ⟨result, scanned⟩ f text pos searched
    obtain ⟨regex, read, kept⟩ := answered_of_scan scanned searched
    refine ⟨(readable f text pos searched).2.1 ⟨regex, read⟩, fun other same => ?_⟩
    cases read.symm.trans same
    exact kept
  · intro answered
    cases scanned : scanBy engine r source with
    | ok result => exact ⟨result, rfl⟩
    | error defect =>
      obtain ⟨-, f, text, pos, searched, lost⟩ := searched_of_scan_error scanned
      obtain ⟨uncounted, kept⟩ := answered f text pos searched
      obtain ⟨regex, read⟩ := (readable f text pos searched).2.2 uncounted
      exact absurd (lost regex read) (by simp [kept regex read])

end Built

theorem scan_searches_bracketed :
    (bracketed .placeholder).build [.reference "list"] = .ok (bracketedRepository .placeholder) ∧
      ∀ f text pos,
        Searched .standard (bracketedRepository .placeholder) (Text.lines "[[a]".toList) f text pos →
          opensCounted f.source = false :=
  ⟨bracketed_build .placeholder (by decide +kernel), fun f text pos searched =>
    ((scan_searches (bracketed_build .placeholder (by decide +kernel)) .standard "[[a]").2.2.2.1.1
      ⟨_, scan_bracketed⟩ f text pos searched).1⟩

/-- A number of repetitions with nothing before it is read as the characters it is made of. -/
def counted : Repository :=
  ⟨⟨"Example", "source.example", []⟩,
    [.inline (.single ⟨.ofString "\x7b2\x7d", some "constant.example", .empty⟩)], .empty⟩

theorem scan_counted :
    (Builder.new counted.metadata).build counted.entry = .ok counted ∧
      scan counted "a" = .error (.badPattern (.top .search) .whole) := by
  refine ⟨?_, ?_⟩
  · rw [build_eq, show (Builder.new counted.metadata).defects counted.entry = [] by decide +kernel]
    rfl
  · have evaluated : (scanPlain (searchBy .standard) counted 0
        (Text.lines "a".toList) []).toOption = none := by
      decide +kernel
    cases scanned : scanBy .standard counted "a" with
    | ok result =>
      rw [scanBy_eq_scanPlain] at scanned
      rw [scanned] at evaluated
      cases evaluated
    | error defect => rw [scan, scanned, (searched_of_scan_error scanned).1]

end ScopeGrammar.Scan
