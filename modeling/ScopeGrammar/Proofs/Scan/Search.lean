import ScopeGrammar.Proofs.Regex.Find
import ScopeGrammar.Proofs.Scan.Step
import ScopeGrammar.Scan.Source

/-!
Looking searches up in tables of matches gives what searching gives, so that a scan can be read as
if every pattern were read and searched for anew.
-/

set_option autoImplicit false

namespace ScopeGrammar.Scan

open Regex (Found)

theorem toString_injective {f g : Fragment} (same : f.toString = g.toString) : f = g := by
  have sources := String.ofList_injective same
  cases f
  cases g
  simp_all

@[simp] theorem givesUp_patient (regex : Regex) (text : List Char) (pos : Nat) :
    Regex.Engine.patient.givesUp regex text pos = false := rfl

/-- Search a text with an engine that gives up no search. -/
def searchIn (text : List Char) : Search := searchBy .patient text

theorem searchIn_apply (text : List Char) (f : Fragment) (pos : Nat) :
    searchIn text f pos = match (linePattern f).toOption with
      | some regex => .ok (regex.find text pos)
      | none => .error (.badPattern (.top .search) .whole) := by
  simp only [searchIn, searchBy, answer, givesUp_patient]
  rfl

theorem searchBy_eq_searchIn (engine : Regex.Engine) (text : List Char) (f : Fragment) (pos : Nat)
    (kept : ∀ regex, linePattern f = .ok regex → engine.givesUp regex text pos = false) :
    searchBy engine text f pos = searchIn text f pos := by
  rw [searchIn_apply, searchBy]
  cases read : linePattern f with
  | error problem => rfl
  | ok regex => simp [answer, Except.toOption, kept regex read]

theorem searchBy_ok_iff {engine : Regex.Engine} {text : List Char} {f : Fragment} {pos : Nat} :
    (∃ answer, searchBy engine text f pos = .ok answer) ↔
      ∃ regex, linePattern f = .ok regex ∧ engine.givesUp regex text pos = false := by
  unfold searchBy answer
  cases linePattern f with
  | ok regex =>
    simp only [Except.toOption, Except.ok.injEq, exists_eq_left']
    cases engine.givesUp regex text pos <;> simp
  | error problem => simp [Except.toOption]

theorem defect_of_searchBy {engine : Regex.Engine} {text : List Char} {f : Fragment} {pos : Nat}
    {defect : Defect} (failed : searchBy engine text f pos = .error defect) :
    defect = .badPattern (.top .search) .whole := by
  unfold searchBy answer at failed
  split at failed
  · split at failed
    · exact (Except.error.inj failed).symm
    · cases failed
  · exact (Except.error.inj failed).symm

theorem searchBy_within (engine : Regex.Engine) (text : List Char) :
    (searchBy engine text).Within text.length := by
  intro f pos found inside answered
  unfold searchBy answer at answered
  split at answered
  · split at answered
    · cases answered
    · rw [Except.ok.injEq] at answered
      exact Regex.find_within inside answered
  · cases answered

theorem searchIn_within (text : List Char) : (searchIn text).Within text.length :=
  searchBy_within .patient text

/-- Every pattern that the table holds is the one of the fragment it is held under. -/
def Faithful (table : Std.HashMap String (Option Regex)) : Prop :=
  ∀ (f : Fragment) pattern, table[f.toString]? = some pattern → pattern = (linePattern f).toOption

theorem Faithful.insert {table : Std.HashMap String (Option Regex)} (faithful : Faithful table)
    (f : Fragment) : Faithful (table.insert f.toString (linePattern f).toOption) := by
  intro g pattern held
  rw [Std.HashMap.getElem?_insert] at held
  split at held
  · rename_i same
    have equal : f = g := toString_injective (beq_iff_eq.1 same)
    subst equal
    exact (Option.some.inj held).symm
  · exact faithful g pattern held

theorem Patterns.read_faithful (fragments : List Fragment) :
    Faithful (Patterns.read fragments).table := by
  unfold Patterns.read
  refine List.foldlRecOn fragments _ (motive := Faithful) ?_ fun table faithful f _ => ?_
  · intro f pattern held
    simp at held
  · split
    · exact faithful
    · exact faithful.insert f

theorem answers_getD (engine : Regex.Engine) (regex : Regex) {text : List Char} {pos : Nat}
    (inside : pos ≤ text.length) :
    (answers engine regex text).getD pos (.ok none) = answer engine (some regex) text pos := by
  simp only [answers, answer, Regex.Engine.givesUp, Array.getD_eq_getD_getElem?,
    Array.getElem?_mapIdx, List.getElem?_toArray, Regex.findAll_getElem? inside, Option.map_some,
    Option.getD_some, List.getD_eq_getElem?_getD]

/-- A look-up is a search. -/
theorem Patterns.search_matchesIn (engine : Regex.Engine) (fragments : List Fragment)
    (text : List Char) (f : Fragment) (pos : Nat) (inside : pos ≤ text.length) :
    ((Patterns.read fragments).matchesIn engine text).search f pos =
      searchBy engine text f pos := by
  unfold Matches.search Patterns.matchesIn
  simp only [Std.HashMap.getElem?_map]
  cases held : (Patterns.read fragments).table[f.toString]? with
  | none => rfl
  | some pattern =>
    have same := Patterns.read_faithful fragments f pattern held
    cases pattern with
    | none => simp only [Option.map_some, Option.map_none, searchBy, ← same]
    | some regex =>
      simp only [Option.map_some, searchBy, ← same]
      exact answers_getD engine regex inside

/-- Scan lines one after the other, searching for every pattern anew. -/
def scanPlain (search : List Char → Search) (r : Repository) :
    (number : Nat) → List (List Char) → (stack : List Frame) → Except Defect Result
  | _, [], stack => .ok ⟨[], (stack.map (·.label)).reverse, []⟩
  | number, content :: rest, stack => do
    let l : Line := ⟨number, content⟩
    let line ← scanLine (search l.text) r l stack
    let result ← scanPlain search r (number + 1) rest line.stack
    return { result with
      tokens := line.tokens ++ result.tokens
      stalledLines := if line.stalled then number :: result.stalledLines else result.stalledLines }

theorem scanPlain_cons {search : List Char → Search} {r : Repository} {number : Nat} {content : List Char}
    {rest : List (List Char)} {stack : List Frame} {line : LineResult} {result : Result}
    (scanned : scanLine (search (Line.text ⟨number, content⟩)) r ⟨number, content⟩ stack = .ok line)
    (ended : line.stalled = false)
    (later : scanPlain search r (number + 1) rest line.stack = .ok result) :
    scanPlain search r number (content :: rest) stack =
      .ok { result with tokens := line.tokens ++ result.tokens } := by
  simp only [scanPlain, bind, Except.bind, scanned, later, ended]
  rfl

theorem scanPlain_cases {search : List Char → Search} {r : Repository} {number : Nat} {content : List Char}
    {rest : List (List Char)} {stack : List Frame} {result : Result}
    (scanned : scanPlain search r number (content :: rest) stack = .ok result) :
    ∃ line later,
      scanLine (search (Line.text ⟨number, content⟩)) r ⟨number, content⟩ stack = .ok line ∧
        scanPlain search r (number + 1) rest line.stack = .ok later ∧
        result = { later with
          tokens := line.tokens ++ later.tokens
          stalledLines :=
            if line.stalled then number :: later.stalledLines else later.stalledLines } := by
  rw [scanPlain] at scanned
  cases first : scanLine (search (Line.text ⟨number, content⟩)) r ⟨number, content⟩ stack with
  | error defect => simp [first, bind, Except.bind] at scanned
  | ok line =>
    cases next : scanPlain search r (number + 1) rest line.stack with
    | error defect => simp [first, next, bind, Except.bind] at scanned
    | ok later =>
      simp only [first, next, bind, Except.bind, pure, Except.pure, Except.ok.injEq] at scanned
      exact ⟨line, later, rfl, next, scanned.symm⟩

theorem scanLines_eq_scanPlain (engine : Regex.Engine) (fragments : List Fragment) (r : Repository)
    (number : Nat) (lines : List (List Char)) (stack : List Frame) :
    scanLines engine (Patterns.read fragments) r number lines stack =
      scanPlain (searchBy engine) r number lines stack := by
  induction lines generalizing number stack with
  | nil => rfl
  | cons content rest ih =>
    have same : scanLine ((Patterns.read fragments).matchesIn engine
          (Line.text ⟨number, content⟩)).search r ⟨number, content⟩ stack =
        scanLine (searchBy engine (Line.text ⟨number, content⟩)) r ⟨number, content⟩ stack :=
      scanFrom_congr (Patterns.search_matchesIn engine fragments _) (searchBy_within engine _)
        mostSteps (Nat.zero_le _) stack
    simp only [scanLines, scanPlain, same, ih]

theorem scanBy_eq_scanPlain (engine : Regex.Engine) (r : Repository) (source : String) :
    scanBy engine r source = scanPlain (searchBy engine) r 0 (Text.lines source.toList) [] :=
  scanLines_eq_scanPlain engine _ r 0 _ []

end ScopeGrammar.Scan
