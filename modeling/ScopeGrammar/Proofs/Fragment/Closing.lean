import ScopeGrammar.Proofs.Regex.Lexeme

/-!
A class in a source, read by its marks. It is left at the bracket that closes it and nowhere before:
the reader of marks takes the same brackets for members, for nested classes and for ends as the
reader of classes does.
-/

set_option autoImplicit false

namespace ScopeGrammar.Fragment

open Regex

/-- The number of groups open at the deepest place, read on from a nesting. -/
def depthFrom (n : Nesting) : List Mark → Nat
  | [] | [.escape] => n.groups
  | .escape :: _ :: rest => max n.groups (depthFrom n.escaped rest)
  | m :: rest => max n.groups (depthFrom (n.step m) rest)

theorem le_depthFrom (n : Nesting) (ms : List Mark) : n.groups ≤ depthFrom n ms := by
  unfold depthFrom
  split
  · exact Nat.le_refl _
  · exact Nat.le_refl _
  · exact Nat.le_max_left ..
  · exact Nat.le_max_left ..

section Unit

variable {m : Mark} (other : m ≠ .escape) (n : Nesting) (index : Nat) (ms : List Mark)

include other

theorem depthFrom_unit : depthFrom n (m :: ms) = max n.groups (depthFrom (n.step m) ms) := by
  cases m <;> first | rfl | contradiction

theorem barFrom_unit : barFrom n (m :: ms) = ((m = .bar && n = .flat) || barFrom (n.step m) ms) := by
  cases m <;> first | rfl | contradiction

theorem closeFrom_unit :
    closeFrom n index (m :: ms) =
      if n.step m = .flat then some index else closeFrom (n.step m) (index + 1) ms := by
  cases m <;> first | rfl | contradiction

end Unit

/-- The marks end where the given number of open classes has been left, and not before. -/
inductive Closes : (nest : Nat) → Place → List Mark → Prop where
  | last {nest : Nat} {place : Place} {m : Mark} (other : m ≠ .escape)
      (leaves : ∀ groups, Nesting.step ⟨groups, some (nest, place)⟩ m = ⟨groups, none⟩) :
    Closes nest place [m]
  | unit {nest nest' : Nat} {place place' : Place} {m : Mark} {ms : List Mark} (other : m ≠ .escape)
      (stays : ∀ groups, Nesting.step ⟨groups, some (nest, place)⟩ m = ⟨groups, some (nest', place')⟩) :
    Closes nest' place' ms → Closes nest place (m :: ms)
  | escape {nest : Nat} {place : Place} {ms : List Mark} (m : Mark) :
    Closes nest .inside ms → Closes nest place (.escape :: m :: ms)

section Closes

variable {nest : Nat} {place : Place} {ms : List Mark}

theorem Closes.depthFrom_eq (closes : Closes nest place ms) (groups : Nat) (rest : List Mark) :
    depthFrom ⟨groups, some (nest, place)⟩ (ms ++ rest) = depthFrom ⟨groups, none⟩ rest := by
  induction closes with
  | last other leaves =>
    rw [List.singleton_append, depthFrom_unit other, leaves]
    exact Nat.max_eq_right (le_depthFrom ⟨groups, none⟩ rest)
  | unit other stays later ih =>
    rw [List.cons_append, depthFrom_unit other, stays, ih]
    exact Nat.max_eq_right (le_depthFrom ⟨groups, none⟩ rest)
  | @escape nest place ms m later ih =>
    have step : depthFrom ⟨groups, some (nest, place)⟩ (.escape :: m :: (ms ++ rest)) =
        max groups (depthFrom ⟨groups, some (nest, .inside)⟩ (ms ++ rest)) := rfl
    rw [List.cons_append, List.cons_append, step, ih]
    exact Nat.max_eq_right (le_depthFrom ⟨groups, none⟩ rest)

theorem Closes.barFrom_eq (closes : Closes nest place ms) (groups : Nat) (rest : List Mark) :
    barFrom ⟨groups, some (nest, place)⟩ (ms ++ rest) = barFrom ⟨groups, none⟩ rest := by
  induction closes with
  | last other leaves =>
    rw [List.singleton_append, barFrom_unit other, leaves]
    simp [Nesting.flat]
  | unit other stays later ih =>
    rw [List.cons_append, barFrom_unit other, stays, ih]
    simp [Nesting.flat]
  | escape m later ih => exact ih

theorem Closes.closeFrom_eq (closes : Closes nest place ms) (groups index : Nat) (rest : List Mark) :
    closeFrom ⟨groups, some (nest, place)⟩ index (ms ++ rest) =
      if groups = 0 then some (index + ms.length - 1)
      else closeFrom ⟨groups, none⟩ (index + ms.length) rest := by
  induction closes generalizing index with
  | last other leaves =>
    rw [List.singleton_append, closeFrom_unit other, leaves]
    simp [Nesting.flat]
  | unit other stays later ih =>
    rw [List.cons_append, closeFrom_unit other, stays, ih, if_neg (by simp [Nesting.flat]),
      List.length_cons, Nat.add_right_comm, Nat.add_assoc index]
  | @escape nest place ms m later ih =>
    have step : closeFrom ⟨groups, some (nest, place)⟩ index (.escape :: m :: (ms ++ rest)) =
        closeFrom ⟨groups, some (nest, .inside)⟩ (index + 2) (ms ++ rest) := rfl
    rw [List.cons_append, List.cons_append, step, ih, List.length_cons, List.length_cons,
      Nat.add_right_comm, Nat.add_assoc index]

theorem Closes.plain (closes : Closes nest .inside ms) {ps : List Mark}
    (plain : ∀ p ∈ ps, p = .plain) : Closes nest .inside (ps ++ ms) := by
  induction ps with
  | nil => exact closes
  | cons p ps ih =>
    obtain ⟨rfl, later⟩ := List.forall_mem_cons.1 plain
    exact .unit (by simp) (fun groups => rfl) (ih later)

theorem step_place (nest : Nat) {m : Mark} (noClose : m ≠ .closeClass)
    (noCaret : place = .opened → m ≠ .caret) (groups : Nat) :
    Nesting.step ⟨groups, some (nest, place)⟩ m = Nesting.step ⟨groups, some (nest, .inside)⟩ m := by
  cases place <;> cases m <;> first | rfl | simp_all

theorem Closes.of_inside {m : Mark} (closes : Closes nest .inside (m :: ms))
    (noClose : m ≠ .closeClass) (noCaret : place = .opened → m ≠ .caret) :
    Closes nest place (m :: ms) := by
  have same := step_place nest noClose noCaret
  cases closes with
  | last other leaves => exact .last other fun groups => (same groups).trans (leaves groups)
  | unit other stays later => exact .unit other (fun groups => (same groups).trans (stays groups)) later
  | escape m later => exact .escape m later

end Closes

theorem eq_of_mark {c d : Char} (is : d ∈ structural)
    (same : Mark.ofCode c.toNat = Mark.ofCode d.toNat) : c = d := by
  by_cases own : c ∈ structural
  · have each : structural.all fun c => structural.all fun d =>
        Mark.ofCode c.toNat = Mark.ofCode d.toNat → c = d := by decide
    exact of_decide_eq_true (List.all_eq_true.1 (List.all_eq_true.1 each c own) d is) same
  · have each : structural.all fun d => Mark.plain ≠ Mark.ofCode d.toNat := by decide
    exact absurd (mark_of_not_structural own ▸ same) (of_decide_eq_true (List.all_eq_true.1 each d is))

/-- However the parts of a class are written, the marks end where the class does. -/
def PartsClose (nest : Nat) (place : Place) (parts : List ClassPart) : Prop :=
  ∀ text, ClassText parts text → Closes nest place (marks text)

namespace PartsClose

variable {nest nest' : Nat} {place place' : Place} {parts : List ClassPart}

theorem plain {c : Char} (closes : PartsClose nest' place' parts)
    (stays : ∀ groups, Nesting.step ⟨groups, some (nest, place)⟩ (Mark.ofCode c.toNat) =
      ⟨groups, some (nest', place')⟩) :
    PartsClose nest place (.plain c :: parts) := by
  intro text written
  cases written with
  | plain noEscape later =>
    exact .unit (fun same => noEscape (eq_of_mark (by decide) same)) stays (closes _ later)
  | escaped d given => exact absurd rfl (given c)

theorem escaped {part : ClassPart} (closes : PartsClose nest .inside parts)
    (given : ∀ d, part ≠ .plain d) : PartsClose nest place (part :: parts) := by
  intro text written
  cases written with
  | @plain c => exact absurd rfl (given c)
  | @escaped _ _ text more d _ inert later =>
    have whole : marks ('\\' :: d :: more ++ text) =
        .escape :: Mark.ofCode d.toNat :: (marks more ++ marks text) := by
      simp [marks, Mark.ofCode]
    rw [whole]
    exact .escape _ ((closes text later).plain inert.marks)

theorem other {part : ClassPart} (closes : PartsClose nest .inside parts)
    (noOpen : part ≠ .plain '[') (noClose : part ≠ .plain ']')
    (noCaret : place = .opened → part ≠ .plain '^') : PartsClose nest place (part :: parts) := by
  cases part with
  | plain c =>
    have differs (d : Char) (is : d ∈ structural) (not : ClassPart.plain c ≠ .plain d) :
        Mark.ofCode c.toNat ≠ Mark.ofCode d.toNat := fun same => not (by rw [eq_of_mark is same])
    refine closes.plain fun groups => ?_
    have caret (first : place = .opened) : Mark.ofCode c.toNat ≠ .caret :=
      differs '^' (by decide) (noCaret first)
    have opens : Mark.ofCode c.toNat ≠ .openClass := differs '[' (by decide) noOpen
    have ends : Mark.ofCode c.toNat ≠ .closeClass := differs ']' (by decide) noClose
    rw [step_place nest ends caret]
    generalize Mark.ofCode c.toNat = m at opens ends
    cases m <;> first | rfl | contradiction
  | member c => exact closes.escaped (by simp)
  | set s => exact closes.escaped (by simp)

theorem twice {c : Char} (closes : PartsClose nest .inside parts) (plain : c ∉ structural) :
    PartsClose nest .inside (.plain c :: .plain c :: parts) := by
  have noOpen : ClassPart.plain c ≠ .plain '[' := by
    rintro ⟨⟩
    exact plain (by decide)
  have noClose : ClassPart.plain c ≠ .plain ']' := by
    rintro ⟨⟩
    exact plain (by decide)
  exact (closes.other noOpen noClose (by simp)).other noOpen noClose (by simp)

theorem opening (closes : PartsClose (nest + 1) .opened parts) :
    PartsClose nest place (.plain '[' :: parts) :=
  closes.plain fun groups => by cases place <;> rfl

theorem closing (closes : PartsClose nest .inside parts) (inner : 0 < nest) :
    PartsClose (nest + 1) .inside (.plain ']' :: parts) := by
  refine closes.plain fun groups => ?_
  have deeper : ¬ nest + 1 ≤ 1 := by omega
  show Nesting.mk groups (if nest + 1 ≤ 1 then none else some (nest + 1 - 1, .inside)) = _
  rw [if_neg deeper, Nat.add_sub_cancel]

theorem last : PartsClose 1 .inside [.plain ']'] := by
  intro text written
  cases written with
  | plain noEscape later =>
    cases later
    exact .last (by decide) fun groups => rfl
  | escaped d given => exact absurd rfl (given ']')

theorem lead (closes : PartsClose nest .inside parts) (first : place ≠ .inside) :
    PartsClose nest place (.plain ']' :: parts) :=
  closes.plain fun groups => by cases place <;> first | rfl | contradiction

theorem negated (closes : PartsClose nest .negated parts) :
    PartsClose nest .opened (.plain '^' :: parts) :=
  closes.plain fun _ => rfl

theorem of_inside (closes : PartsClose nest .inside parts)
    (noClose : parts.head? ≠ some (.plain ']'))
    (noCaret : place = .opened → parts.head? ≠ some (.plain '^')) : PartsClose nest place parts := by
  intro text written
  have inside := closes text written
  cases written with
  | nil => cases inside
  | @plain c parts text noEscape later =>
    refine inside.of_inside (fun same => noClose ?_) fun first same => noCaret first ?_
    · rw [eq_of_mark (d := ']') (by decide) same]
      rfl
    · rw [eq_of_mark (d := '^') (by decide) same]
      rfl
  | escaped c given inert later => exact inside.of_inside (by decide) fun _ => by decide

end PartsClose

section Class

variable {nest : Nat} {place : Place} {parts rest : List ClassPart} {anyCase : Bool}

theorem leadingHyphens_cases (parts : List ClassPart) (o : OpenClass) :
    leadingHyphens parts o = (o, parts) ∨
      (∃ behind, parts = .plain '-' :: behind) ∧ (leadingHyphens parts o).1.members ≠ .empty ∧
        ∀ nest, PartsClose nest .inside (leadingHyphens parts o).2 → PartsClose nest .inside parts := by
  induction parts generalizing o with
  | nil => exact .inl rfl
  | cons part behind ih =>
    by_cases hyphen : part = .plain '-'
    · subst hyphen
      have added : (o.add (.single '-')).members ≠ .empty := by
        unfold OpenClass.add
        dsimp only
        split <;> simp [CharSet.single]
      have goes : leadingHyphens (.plain '-' :: behind) o =
          leadingHyphens behind (o.add (.single '-')) := rfl
      have covers {nest : Nat} (closes : PartsClose nest .inside behind) :
          PartsClose nest .inside (.plain '-' :: behind) :=
        closes.other (by decide) (by decide) (by decide)
      rw [goes]
      refine .inr ⟨⟨behind, rfl⟩, ?_⟩
      rcases ih (o.add (.single '-')) with same | ⟨-, some, closes⟩
      · rw [same]
        exact ⟨added, fun nest => covers⟩
      · exact ⟨some, fun nest inside => covers (closes nest inside)⟩
    · left
      unfold leadingHyphens
      split
      · simp_all
      · rfl

theorem openLead_closes (negated : Bool) (first : place ≠ .inside)
    (noCaret : place = .opened → parts.head? ≠ some (.plain '^'))
    (closes : PartsClose nest .inside (openLead negated parts).2) : PartsClose nest place parts := by
  unfold openLead at closes
  rcases leadingHyphens_cases parts ⟨negated, none, .empty⟩ with same | ⟨⟨behind, rfl⟩, some, covers⟩
  · rw [same] at closes
    split at closes
    · rename_i o rest is
      cases is
      exact PartsClose.lead (by simpa using closes) first
    · rename_i o parts' other is
      cases is
      refine closes.of_inside (fun bracket => ?_) noCaret
      obtain ⟨rest, rfl⟩ := List.head?_eq_some_iff.1 bracket
      exact other rest rfl
  · refine PartsClose.of_inside (covers nest ?_) (by simp) (by simp)
    split at closes
    · rename_i o rest is
      rw [is] at some ⊢
      simpa [some] using closes
    · rename_i o parts' other is
      rw [is]
      exact closes

theorem openClass_closes (closes : PartsClose nest .inside (openClass parts).2) :
    PartsClose nest .opened parts := by
  unfold openClass at closes
  split at closes
  · exact (openLead_closes true (by simp) (by simp) closes).negated
  · rename_i noCaret
    refine openLead_closes false (by simp) (fun _ caret => ?_) closes
    obtain ⟨rest, rfl⟩ := List.head?_eq_some_iff.1 caret
    exact noCaret rest rfl

theorem letters_close
    (closes : PartsClose nest .inside (parts.drop (parts.takeWhile (·.isLower)).length)) :
    PartsClose nest .inside parts := by
  induction parts with
  | nil => exact closes
  | cons part parts ih =>
    rw [List.takeWhile_cons] at closes
    cases letter : part.isLower with
    | false => simpa [letter] using closes
    | true =>
      rw [letter] at closes
      refine (ih closes).other ?_ ?_ (by simp)
      · rintro rfl
        exact absurd letter (by decide)
      · rintro rfl
        exact absurd letter (by decide)

theorem className?_closes {s : CharSet} (is : className? anyCase parts = some (s, rest))
    (closes : PartsClose nest .inside rest) (inner : 0 < nest) :
    PartsClose (nest + 1) .inside parts := by
  unfold className? at is
  dsimp only at is
  split at is
  · rename_i behind ends
    simp only [Option.map_eq_some_iff, Prod.mk.injEq] at is
    obtain ⟨_, -, -, rfl⟩ := is
    refine letters_close ?_
    rw [ends]
    exact (closes.closing inner).other (by decide) (by decide) (by simp)
  · simp at is

theorem namedClass?_closes {s : CharSet} (is : namedClass? anyCase parts = some (s, rest))
    (closes : PartsClose nest .inside rest) (inner : 0 < nest) :
    PartsClose (nest + 1) .opened parts := by
  unfold namedClass? at is
  split at is
  · simp only [Option.map_eq_some_iff] at is
    obtain ⟨⟨_, rest'⟩, named, same⟩ := is
    cases same
    have behind := className?_closes named closes inner
    have caret : PartsClose (nest + 1) .inside (.plain '^' :: _) :=
      behind.other (by decide) (by decide) (by simp)
    exact caret.other (by decide) (by decide) (by simp)
  · exact (className?_closes is closes inner).other (by decide) (by decide) (by simp)
  · simp at is

/-- Parts that begin with an item close a class where those behind it do. -/
def ItemCloses (nest : Nat) (parts rest : List ClassPart) : ClassItem → Prop
  | .closing => parts = .plain ']' :: rest
  | .opening _ => PartsClose (nest + 1) .inside rest → PartsClose nest .inside parts
  | _ => PartsClose nest .inside rest → PartsClose nest .inside parts

theorem classItem?_closes {item : ClassItem} (is : classItem? anyCase parts = some (item, rest))
    (plain : item.isPlain = true) (inner : 0 < nest) : ItemCloses nest parts rest item := by
  unfold classItem? at is
  split at is
  · simp at is
  · rename_i behind
    cases named : namedClass? anyCase behind with
    | some found =>
      rw [named] at is
      cases is
      exact fun closes => (namedClass?_closes named closes inner).opening
    | none =>
      rw [named] at is
      cases is
      exact fun closes => (openClass_closes closes).opening
  · cases is
    rfl
  · cases is
    exact fun closes => closes.twice (by decide)
  · cases is
    exact fun closes => closes.twice (by decide)
  · cases is
    exact fun closes => closes.twice (by decide)
  · rename_i first second behind noOpen noClose _
    split at is
    · cases is
      exact fun closes => closes.other noOpen noClose (by simp)
    · rename_i high
      cases is
      have ends : second ≠ .plain ']' ∧ second ≠ .plain '[' := by
        simp_all [ClassItem.isPlain]
      intro closes
      have hyphen : PartsClose nest .inside (.plain '-' :: second :: rest) :=
        (closes.other ends.2 ends.1 (by simp)).other (by decide) (by decide) (by simp)
      exact hyphen.other noOpen noClose (by simp)
  · rename_i part behind noOpen noClose _ _ _ _
    cases is
    exact fun closes => closes.other noOpen noClose (by simp)

theorem readClassParts_closes {fuel : Nat} {o : OpenClass} {outer : List OpenClass} {s : CharSet}
    (read : readClassParts false fuel parts o outer = .ok s) (plain : plainItems fuel parts = true) :
    PartsClose (outer.length + 1) .inside parts := by
  induction fuel generalizing parts o outer with
  | zero => simp [readClassParts] at read
  | succ fuel ih =>
    rw [readClassParts] at read
    rw [plainItems] at plain
    cases is : classItem? false parts with
    | none => simp [is] at read
    | some found =>
      obtain ⟨item, rest⟩ := found
      rw [is] at plain read
      obtain ⟨plainItem, later⟩ := Bool.and_eq_true_iff.1 plain
      have covers := classItem?_closes is plainItem (Nat.succ_pos outer.length)
      cases item with
      | members s => exact covers (ih read later)
      | opening inner => exact covers (ih read later)
      | operation op => exact covers (ih read later)
      | range low high =>
        obtain ⟨s, -, read⟩ := bind_eq_ok.1 read
        exact covers (ih read later)
      | closing =>
        obtain rfl : parts = .plain ']' :: rest := covers
        cases outer with
        | nil =>
          cases rest with
          | nil => exact .last
          | cons part rest => simp at read
        | cons parent outer => exact (ih read later).closing (Nat.succ_pos _)

theorem readPlainClass?_closes {s : CharSet} {text : List Char}
    (read : readPlainClass? text = some (s, [])) : Closes 1 .opened (marks text) := by
  obtain ⟨parts, cut, plain, whole⟩ := readPlainClass?_eq_some.1 read
  obtain ⟨text, rfl, written, -⟩ := cutClass_text cut
  rw [List.append_nil]
  exact openClass_closes (readClassParts_closes whole plain) _ written

end Class

end ScopeGrammar.Fragment
