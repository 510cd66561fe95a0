import ScopeGrammar.Proofs.Fragment.Literals

set_option autoImplicit false

namespace ScopeGrammar

open Regex

theorem Regex.readClass_text {anyCase : Bool} {cs : List Char} {s : CharSet}
    (read : readClass anyCase cs = .ok (s, [])) (tail : List Char) :
    readClass anyCase (cs ++ tail) = .ok (s, tail) := by
  obtain ⟨⟨parts, rest⟩, cut, read⟩ := bind_eq_ok.1 read
  obtain ⟨set, whole, same⟩ := bind_eq_ok.1 read
  cases same
  obtain ⟨text, rfl, -, cuts⟩ := cutClass_text cut
  rw [List.append_nil]
  exact bind_eq_ok.2 ⟨(parts, tail), cuts tail, bind_eq_ok.2 ⟨s, whole, rfl⟩⟩

namespace Fragment

/-- The characters that a source does not mean by themselves where nothing stands before them. -/
def operators : List Char := ['\\', '.', '+', '*', '?', '(', ')', '|', '[', '\x7b', '^', '$']

/-- The fragment is a class: one character, a dot, an escape or a set in brackets. -/
inductive IsClass : Fragment → CharSet → Prop where
  | char {c : Char} : c ∉ operators → IsClass ⟨[c]⟩ (.single c)
  | dot : IsClass ⟨['.']⟩ (.compl (.single '\n'))
  | escapedChar {cs : List Char} {c : Char} :
    readEscape false cs = .ok (.char c, []) → IsClass ⟨'\\' :: cs⟩ (.single c)
  | escapedSet {cs : List Char} {s : CharSet} :
    readEscape false cs = .ok (.set s, []) → IsClass ⟨'\\' :: cs⟩ s
  | brackets {cs : List Char} {s : CharSet} :
    readClass false cs = .ok (s, []) → IsClass ⟨'[' :: cs⟩ s

section Lays

variable {f : Fragment} {s : CharSet}

theorem readEscape_append {cs : List Char} {escape : Escape}
    (read : readEscape false cs = .ok (escape, [])) (noNumber : ∀ n, escape ≠ .back n)
    (tail : List Char) : readEscape false (cs ++ tail) = .ok (escape, tail) := by
  obtain ⟨c, text, rfl, -, reads⟩ := readEscape_text read noNumber
  rw [List.append_nil]
  exact reads tail

theorem IsClass.lays (isClass : f.IsClass s) : Lays 0 f.source [.set s] := by
  cases isClass with
  | @char c plain =>
    have noGroup : c ≠ '(' := by
      rintro rfl
      exact plain (by decide)
    refine .atom (by simp) noGroup fun r literal length rest => ?_
    rw [← literal.char]
    unfold Reading.part
    split <;> first | rfl | exact absurd (by decide) plain
  | dot =>
    refine .atom (by simp) (by decide) fun r literal length rest => ?_
    simp [Reading.part, literal.dotAll]
  | escapedChar read =>
    refine .atom (by simp) (by decide) fun r literal length rest => ?_
    rw [Reading.part, readEscape_append read (by simp), ← literal.char]
    rfl
  | escapedSet read =>
    refine .atom (by simp) (by decide) fun r literal length rest => ?_
    rw [Reading.part, readEscape_append read (by simp)]
    rfl
  | brackets read =>
    refine .atom (by simp) (by decide) fun r literal length rest => ?_
    rw [Reading.part, literal.anyCase, readClass_text read]
    rfl

end Lays

section Hidden

theorem barFrom_ends (n : Nesting) : barFrom n [.closeGroup] = false := by
  rw [barFrom_unit (by decide)]
  rfl

theorem step_within {nest shown : Nat} (place : Place) {c : Char} (some : 1 ≤ nest)
    (le : nest ≤ shown) (notLast : ¬ (c = ']' ∧ nest = 1)) :
    1 ≤ nestBehind nest c ∧ ∃ shown' place', nestBehind nest c ≤ shown' ∧
      Nesting.step ⟨1, .some (shown, place)⟩ (Mark.ofCode c.toNat) = ⟨1, .some (shown', place')⟩ := by
  by_cases opening : c = '['
  · subst opening
    exact ⟨Nat.succ_pos nest, shown + 1, .opened, Nat.succ_le_succ le, by cases place <;> rfl⟩
  by_cases closing : c = ']'
  · subst closing
    have several : 2 ≤ nest := by
      have notOne : nest ≠ 1 := fun one => notLast ⟨rfl, one⟩
      omega
    have outer : nestBehind nest ']' = nest - 1 := rfl
    rw [outer]
    refine ⟨by omega, ?_⟩
    cases place with
    | opened | negated => exact ⟨shown, .inside, by omega, rfl⟩
    | inside =>
      refine ⟨shown - 1, .inside, by omega, ?_⟩
      have deep : ¬ shown ≤ 1 := by omega
      simp [Nesting.step, Mark.ofCode, deep]
  · have same : nestBehind nest c = nest := by rw [nestBehind, if_neg opening, if_neg closing]
    have noOpening : Mark.ofCode c.toNat ≠ .openClass := fun same =>
      opening (eq_of_mark (d := '[') (by decide) same)
    have noClosing : Mark.ofCode c.toNat ≠ .closeClass := fun same =>
      closing (eq_of_mark (d := ']') (by decide) same)
    rw [same]
    refine ⟨some, shown, ?_⟩
    generalize Mark.ofCode c.toNat = m at noOpening noClosing
    cases place <;> cases m <;> first | exact ⟨_, le, rfl⟩ | contradiction

/-- In a group the marks show no bar until the parenthesis behind a class: the classes that they show
open are at least as many as the reader has open. -/
theorem barFrom_classParts {fuel nest shown : Nat} (place : Place) {cs : List Char}
    {parts : List ClassPart} (read : classParts fuel nest cs = .ok (parts, []))
    (some : 1 ≤ nest) (le : nest ≤ shown) :
    barFrom ⟨1, .some (shown, place)⟩ (marks cs ++ [.closeGroup]) = false := by
  induction fuel generalizing nest shown place cs parts with
  | zero => simp [classParts] at read
  | succ fuel ih =>
    cases cs with
    | nil => simp [classParts] at read
    | cons c rest =>
      by_cases escapes : c = '\\'
      · subst escapes
        rw [classParts_escape] at read
        obtain ⟨⟨escape, behind⟩, escaped, read⟩ := bind_eq_ok.1 read
        obtain ⟨part, is, read⟩ := bind_eq_ok.1 read
        obtain ⟨⟨later, rest'⟩, more, same⟩ := bind_eq_ok.1 read
        cases same
        obtain ⟨d, taken, rfl, inert, -⟩ := readEscape_text escaped (classPart_ok is).1
        have split : marks ('\\' :: (d :: taken ++ behind)) ++ [.closeGroup] =
            .escape :: Mark.ofCode d.toNat :: (marks taken ++ (marks behind ++ [.closeGroup])) := by
          simp [marks, Mark.ofCode]
        rw [split]
        show barFrom ⟨1, .some (shown, .inside)⟩ _ = false
        have plain := inert.marks
        generalize marks taken = ps at plain
        induction ps with
        | nil => exact ih _ more some le
        | cons p ps skip =>
          obtain ⟨rfl, later⟩ := List.forall_mem_cons.1 plain
          exact skip later
      · have mark : Mark.ofCode c.toNat ≠ .escape := fun same =>
          escapes (eq_of_mark (d := '\\') (by decide) same)
        rw [classParts_plain _ _ escapes] at read
        rw [marks, List.map_cons, List.cons_append, barFrom_unit mark, ← marks]
        have hidden : (⟨1, .some (shown, place)⟩ : Nesting) ≠ .flat := by simp [Nesting.flat]
        rw [decide_eq_false hidden, Bool.and_false, Bool.false_or]
        split at read
        · cases read
          exact barFrom_ends _
        · rename_i notLast
          obtain ⟨⟨later, rest'⟩, more, same⟩ := bind_eq_ok.1 read
          cases same
          obtain ⟨some', shown', place', le', step⟩ :=
            step_within place some le (by simpa using notLast)
          rw [step]
          exact ih _ more some' le'

theorem barFrom_lead {lead : Char} {cs : List Char} {place : Place} (place' : Place)
    (noEscape : Mark.ofCode lead.toNat ≠ .escape)
    (step : Nesting.step ⟨1, some (1, place)⟩ (Mark.ofCode lead.toNat) = ⟨1, some (1, place')⟩)
    (behind : barFrom ⟨1, some (1, place')⟩ (marks (cutLead lead cs).2 ++ [.closeGroup]) = false)
    (without : barFrom ⟨1, some (1, place)⟩ (marks (cutLead lead cs).2 ++ [.closeGroup]) = false) :
    barFrom ⟨1, some (1, place)⟩ (marks cs ++ [.closeGroup]) = false := by
  rcases cutLead_cases lead cs with ⟨rest, rfl, cut⟩ | ⟨-, cut⟩
  · rw [cut] at behind
    rw [marks, List.map_cons, List.cons_append, barFrom_unit noEscape, step, ← marks]
    simpa [Nesting.flat] using behind
  · rw [cut] at without
    exact without

theorem IsClass.barFrom_eq {f : Fragment} {s : CharSet} (isClass : f.IsClass s) :
    barFrom ⟨1, none⟩ (marks f.source ++ [.closeGroup]) = false := by
  have shown {x : Lexeme} {c : Char} {text : List Char} (is : x.IsText c text)
      (atom : x = .atom (.set s)) : barFrom ⟨1, none⟩ (marks (c :: text) ++ [.closeGroup]) = false := by
    subst atom
    rw [(shows_of_isText is).barFrom_eq]
    rfl
  have escape {cs : List Char} {escape : Escape} (read : readEscape false cs = .ok (escape, []))
      (noNumber : ∀ n, escape ≠ .back n) :
      barFrom ⟨1, none⟩ (marks ('\\' :: cs) ++ [.closeGroup]) = false := by
    obtain ⟨c, text, rfl, inert, -⟩ := readEscape_text read noNumber
    rw [List.append_nil]
    exact shown (.escape inert) rfl
  cases isClass with
  | @char c plain =>
    refine shown (.char fun own => plain ?_) rfl
    have among : ∀ d ∈ ['\\', '(', ')', '[', '|'], d ∈ operators := by simp [operators]
    exact among c own
  | dot => exact shown (.char (by decide)) rfl
  | escapedChar read => exact escape read (by simp)
  | escapedSet read => exact escape read (by simp)
  | @brackets cs _ read =>
    obtain ⟨⟨parts, rest⟩, cut, whole⟩ := bind_eq_ok.1 read
    obtain ⟨set, -, same⟩ := bind_eq_ok.1 whole
    cases same
    rw [cutClass_eq, map_eq_ok] at cut
    obtain ⟨⟨later, rest⟩, body, same⟩ := cut
    cases same
    have inside (place : Place) := barFrom_classParts place body (Nat.le_refl 1) (Nat.le_refl 1)
    have behind {place : Place} (is : place = .opened ∨ place = .negated) :
        barFrom ⟨1, some (1, place)⟩ (marks (cutLead '^' cs).2 ++ [.closeGroup]) = false := by
      refine barFrom_lead .inside (by decide) ?_ (inside .inside) (inside place)
      rcases is with rfl | rfl <;> rfl
    show barFrom ⟨1, some (1, .opened)⟩ (marks cs ++ [.closeGroup]) = false
    exact barFrom_lead .negated (by decide) rfl (behind (.inr rfl)) (behind (.inl rfl))

end Hidden

end Fragment

end ScopeGrammar
