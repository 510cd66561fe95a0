import ScopeGrammar.Proofs.Fragment.Structure

/-!
Sources whose delimiters match, told without a reader of marks: a class runs to its own bracket, which
is no member and closes no class inside it, and outside the classes the parentheses are balanced. The
reader of marks goes through such a source as it is told, and where it finds a closing delimiter the
source is such up to there.
-/

set_option autoImplicit false

namespace ScopeGrammar.Fragment

open Regex (structural)

/-- What stands in a class from a place on, up to the bracket that closes it. -/
inductive Members : Place → List Char → Prop where
  | nil : Members .inside []
  | caret {cs : List Char} (rest : Members .negated cs) : Members .opened ('^' :: cs)
  | bracket {place : Place} {cs : List Char} (first : place ≠ .inside) (rest : Members .inside cs) :
    Members place (']' :: cs)
  | escape {place : Place} {cs : List Char} (c : Char) (rest : Members .inside cs) :
    Members place ('\\' :: c :: cs)
  | nested {place : Place} {inner cs : List Char} (inside : Members .opened inner)
      (rest : Members .inside cs) : Members place ('[' :: inner ++ ']' :: cs)
  | plain {place : Place} {c : Char} {cs : List Char} (other : c ∉ ['\\', '[', ']'])
      (noCaret : place = .opened → c ≠ '^') (rest : Members .inside cs) : Members place (c :: cs)

inductive Leads : Nat → List Char → Nat → Prop where
  | nil (depth : Nat) : Leads depth [] depth
  | escape {depth after : Nat} {cs : List Char} (c : Char) (rest : Leads depth cs after) :
    Leads depth ('\\' :: c :: cs) after
  | set {depth after : Nat} {inner cs : List Char} (inside : Members .opened inner)
      (rest : Leads depth cs after) : Leads depth ('[' :: inner ++ ']' :: cs) after
  | opening {depth after : Nat} {cs : List Char} (rest : Leads (depth + 1) cs after) :
    Leads depth ('(' :: cs) after
  | closing {depth after : Nat} {cs : List Char} (rest : Leads depth cs after) :
    Leads (depth + 1) (')' :: cs) after
  | plain {depth after : Nat} {c : Char} {cs : List Char} (other : c ∉ ['\\', '[', '(', ')'])
      (rest : Leads depth cs after) : Leads depth (c :: cs) after

/-- Every class is closed, and every parenthesis outside the classes has its partner. -/
def IsBalanced (cs : List Char) : Prop := Leads 0 cs 0

/-- A reader of marks comes from one nesting to another, and something is open all the way. -/
inductive Passes : Nesting → List Mark → Nesting → Prop where
  | nil (n : Nesting) : Passes n [] n
  | unit {n mid n' : Nesting} {m : Mark} {ms : List Mark} (other : m ≠ .escape) (step : n.step m = mid)
      (deep : mid ≠ .flat) (rest : Passes mid ms n') : Passes n (m :: ms) n'
  | escape {n n' : Nesting} {ms : List Mark} (m : Mark) (rest : Passes n.escaped ms n') :
    Passes n (.escape :: m :: ms) n'

section Passes

variable {n n' : Nesting} {ms : List Mark} (passes : Passes n ms n')

include passes

theorem Passes.trans {n'' : Nesting} {ms' : List Mark} (behind : Passes n' ms' n'') :
    Passes n (ms ++ ms') n'' := by
  induction passes with
  | nil n => exact behind
  | unit other step deep rest ih => exact .unit other step deep (ih behind)
  | escape m rest ih => exact .escape m (ih behind)

theorem Passes.closeFrom_eq (index : Nat) (rest : List Mark) :
    closeFrom n index (ms ++ rest) = closeFrom n' (index + ms.length) rest := by
  induction passes generalizing index with
  | nil n => rfl
  | unit other step deep later ih =>
    rw [List.cons_append, closeFrom_unit other, step, if_neg deep, ih, List.length_cons,
      Nat.add_right_comm, Nat.add_assoc]
  | @escape n n' ms m later ih =>
    have step : closeFrom n index (.escape :: m :: (ms ++ rest)) =
        closeFrom n.escaped (index + 2) (ms ++ rest) := rfl
    rw [List.cons_append, List.cons_append, step, ih, List.length_cons, List.length_cons,
      Nat.add_right_comm, Nat.add_assoc index]

theorem Passes.barFrom_eq (inner : n ≠ .flat) (rest : List Mark) :
    barFrom n (ms ++ rest) = barFrom n' rest := by
  induction passes with
  | nil n => rfl
  | unit other step deep later ih =>
    rw [List.cons_append, barFrom_unit other, step, ih deep]
    simp [inner]
  | @escape n n' ms m later ih =>
    refine ih fun flat => inner ?_
    obtain ⟨groups, classes⟩ := n
    simpa [Nesting.escaped, Nesting.flat] using flat

end Passes

section Reading

variable {place : Place} {inner cs : List Char} {c : Char}

theorem mark_ne {d : Char} (own : d ∈ structural) (other : c ≠ d) :
    Mark.ofCode c.toNat ≠ Mark.ofCode d.toNat := fun same => other (eq_of_mark own same)

theorem step_of_plain (other : c ∉ ['\\', '[', '(', ')']) (groups : Nat) :
    Mark.ofCode c.toNat ≠ .escape ∧
      Nesting.step ⟨groups, none⟩ (Mark.ofCode c.toNat) = ⟨groups, none⟩ := by
  simp only [List.mem_cons, List.not_mem_nil, or_false, not_or] at other
  have escape : Mark.ofCode c.toNat ≠ .escape := mark_ne (d := '\\') (by decide) other.1
  have set : Mark.ofCode c.toNat ≠ .openClass := mark_ne (d := '[') (by decide) other.2.1
  have opening : Mark.ofCode c.toNat ≠ .openGroup := mark_ne (d := '(') (by decide) other.2.2.1
  have closing : Mark.ofCode c.toNat ≠ .closeGroup := mark_ne (d := ')') (by decide) other.2.2.2
  generalize Mark.ofCode c.toNat = m at escape set opening closing
  cases m <;> first | contradiction | exact ⟨escape, rfl⟩

theorem step_of_member (other : c ∉ ['\\', '[', ']']) (noCaret : place = .opened → c ≠ '^')
    (groups nest : Nat) :
    Mark.ofCode c.toNat ≠ .escape ∧
      Nesting.step ⟨groups, some (nest, place)⟩ (Mark.ofCode c.toNat) =
        ⟨groups, some (nest, .inside)⟩ := by
  simp only [List.mem_cons, List.not_mem_nil, or_false, not_or] at other
  have escape : Mark.ofCode c.toNat ≠ .escape := mark_ne (d := '\\') (by decide) other.1
  have opens : Mark.ofCode c.toNat ≠ .openClass := mark_ne (d := '[') (by decide) other.2.1
  have ends : Mark.ofCode c.toNat ≠ .closeClass := mark_ne (d := ']') (by decide) other.2.2
  have caret (first : place = .opened) : Mark.ofCode c.toNat ≠ .caret :=
    mark_ne (d := '^') (by decide) (noCaret first)
  rw [step_place nest ends caret]
  generalize Mark.ofCode c.toNat = m at escape opens ends
  cases m <;> first | contradiction | exact ⟨escape, rfl⟩

variable (groups nest : Nat)

theorem deep_class {n : Nat × Place} : (⟨groups, some n⟩ : Nesting) ≠ .flat := by simp [Nesting.flat]

theorem deep_group : (⟨groups + 1, none⟩ : Nesting) ≠ .flat := by simp [Nesting.flat]

theorem marks_cons (c : Char) (cs : List Char) : marks (c :: cs) = Mark.ofCode c.toNat :: marks cs := rfl

theorem length_marks (cs : List Char) : (marks cs).length = cs.length := List.length_map ..

theorem marks_class (inner cs : List Char) :
    marks ('[' :: inner ++ ']' :: cs) = .openClass :: (marks inner ++ .closeClass :: marks cs) := by
  simp [marks, Mark.ofCode]

theorem Members.passes (members : Members place inner) :
    Passes ⟨groups, some (nest + 1, place)⟩ (marks inner) ⟨groups, some (nest + 1, .inside)⟩ := by
  induction members generalizing nest with
  | nil => exact .nil _
  | caret rest ih => exact .unit (by decide) rfl (deep_class _) (ih nest)
  | @bracket place cs first rest ih =>
    refine .unit (by decide) ?_ (deep_class _) (ih nest)
    cases place <;> first | rfl | contradiction
  | escape c rest ih => exact .escape _ (ih nest)
  | @nested place inner cs inside rest ihInside ihRest =>
    have out : Nesting.step ⟨groups, some (nest + 1 + 1, .inside)⟩ .closeClass =
        ⟨groups, some (nest + 1, .inside)⟩ := by
      simp [Nesting.step]
    have behind := Passes.unit (by decide) out (deep_class _) (ihRest nest)
    rw [marks_class]
    refine .unit (by decide) ?_ (deep_class _) ((ihInside (nest + 1)).trans behind)
    cases place <;> rfl
  | plain other noCaret rest ih =>
    have step := step_of_member other noCaret groups (nest + 1)
    exact .unit step.1 step.2 (deep_class _) (ih nest)

theorem Members.barFrom_class (members : Members .opened inner) (ms : List Mark) :
    barFrom ⟨groups, none⟩ (.openClass :: (marks inner ++ .closeClass :: ms)) =
      barFrom ⟨groups, none⟩ ms := by
  have into : Nesting.step ⟨groups, none⟩ .openClass = ⟨groups, some (0 + 1, .opened)⟩ := rfl
  have out : Nesting.step ⟨groups, some (0 + 1, .inside)⟩ .closeClass = ⟨groups, none⟩ := rfl
  rw [barFrom_unit (by decide), into, (members.passes groups 0).barFrom_eq (deep_class _),
    barFrom_unit (by decide), out]
  rfl

end Reading

section Leads

variable {depth after : Nat} {cs : List Char} (leads : Leads depth cs after)

include leads

theorem Leads.append {later : Nat} {ds : List Char} (behind : Leads after ds later) :
    Leads depth (cs ++ ds) later := by
  induction leads with
  | nil depth => exact behind
  | escape c rest ih => exact .escape c (ih behind)
  | set inside rest ih => simpa using Leads.set inside (ih behind)
  | opening rest ih => exact .opening (ih behind)
  | closing rest ih => exact .closing (ih behind)
  | plain other rest ih => exact .plain other (ih behind)

theorem Leads.inside (more : Nat) : Leads (depth + more) cs (after + more) := by
  induction leads with
  | nil depth => exact .nil _
  | escape c rest ih => exact .escape c ih
  | set inside rest ih => exact .set inside ih
  | opening rest ih => exact .opening (by rwa [Nat.add_right_comm] at ih)
  | closing rest ih => rw [Nat.add_right_comm]; exact .closing ih
  | plain other rest ih => exact .plain other ih

theorem Leads.passes : Passes ⟨depth + 1, none⟩ (marks cs) ⟨after + 1, none⟩ := by
  induction leads with
  | nil depth => exact .nil _
  | escape c rest ih => exact .escape _ ih
  | @set depth after inner cs inside rest ih =>
    have behind := Passes.unit (n := ⟨depth + 1, some (0 + 1, .inside)⟩) (m := .closeClass) (by decide)
      rfl (deep_group _) ih
    rw [marks_class]
    exact .unit (by decide) rfl (deep_class _) ((inside.passes (depth + 1) 0).trans behind)
  | opening rest ih => exact .unit (by decide) rfl (deep_group _) ih
  | closing rest ih => exact .unit (by decide) rfl (deep_group _) ih
  | @plain depth after c cs other rest ih =>
    have step := step_of_plain other (depth + 1)
    exact .unit step.1 step.2 (deep_group _) ih

theorem Leads.barFrom_append (ms : List Mark) :
    barFrom ⟨depth, none⟩ (marks cs ++ ms) =
      (barFrom ⟨depth, none⟩ (marks cs) || barFrom ⟨after, none⟩ ms) := by
  induction leads with
  | nil depth => rfl
  | escape c rest ih => exact ih
  | set inside rest ih =>
    rw [marks_class, List.cons_append, List.append_assoc, List.cons_append, inside.barFrom_class,
      inside.barFrom_class, ih]
  | opening rest ih => exact ih
  | closing rest ih => exact ih
  | @plain depth after c cs other rest ih =>
    have step := step_of_plain other depth
    rw [marks_cons, List.cons_append, barFrom_unit step.1, barFrom_unit step.1, step.2, ih, Bool.or_assoc]

end Leads

section Unmatched

inductive Unclosed : Place → List Char → Prop where
  | nil (place : Place) : Unclosed place []
  | hanging (place : Place) : Unclosed place ['\\']
  | caret {cs : List Char} (rest : Unclosed .negated cs) : Unclosed .opened ('^' :: cs)
  | bracket {place : Place} {cs : List Char} (first : place ≠ .inside) (rest : Unclosed .inside cs) :
    Unclosed place (']' :: cs)
  | escape {place : Place} {cs : List Char} (c : Char) (rest : Unclosed .inside cs) :
    Unclosed place ('\\' :: c :: cs)
  | nested {place : Place} {cs : List Char} (inside : Unclosed .opened cs) : Unclosed place ('[' :: cs)
  | behind {place : Place} {inner cs : List Char} (inside : Members .opened inner)
      (rest : Unclosed .inside cs) : Unclosed place ('[' :: inner ++ ']' :: cs)
  | plain {place : Place} {c : Char} {cs : List Char} (other : c ∉ ['\\', '[', ']'])
      (noCaret : place = .opened → c ≠ '^') (rest : Unclosed .inside cs) : Unclosed place (c :: cs)

/-- What stands in a parenthesis that has no partner, with so many more open. -/
inductive Unended : Nat → List Char → Prop where
  | nil (depth : Nat) : Unended depth []
  | hanging (depth : Nat) : Unended depth ['\\']
  | escape {depth : Nat} {cs : List Char} (c : Char) (rest : Unended depth cs) :
    Unended depth ('\\' :: c :: cs)
  | unclosed {depth : Nat} {cs : List Char} (inside : Unclosed .opened cs) : Unended depth ('[' :: cs)
  | set {depth : Nat} {inner cs : List Char} (inside : Members .opened inner) (rest : Unended depth cs) :
    Unended depth ('[' :: inner ++ ']' :: cs)
  | opening {depth : Nat} {cs : List Char} (rest : Unended (depth + 1) cs) : Unended depth ('(' :: cs)
  | closing {depth : Nat} {cs : List Char} (rest : Unended depth cs) : Unended (depth + 1) (')' :: cs)
  | plain {depth : Nat} {c : Char} {cs : List Char} (other : c ∉ ['\\', '[', '(', ')'])
      (rest : Unended depth cs) : Unended depth (c :: cs)

theorem members_or_unclosed (place : Place) (cs : List Char) :
    (∃ inner rest, cs = inner ++ ']' :: rest ∧ Members place inner) ∨ Unclosed place cs := by
  match cs with
  | [] => exact .inr (.nil place)
  | c :: cs =>
    by_cases escape : c = '\\'
    · subst escape
      match cs with
      | [] => exact .inr (.hanging place)
      | c :: cs =>
        rcases members_or_unclosed .inside cs with ⟨inner, rest, rfl, members⟩ | unclosed
        · exact .inl ⟨'\\' :: c :: inner, rest, rfl, .escape c members⟩
        · exact .inr (.escape c unclosed)
    by_cases opens : c = '['
    · subst opens
      rcases members_or_unclosed .opened cs with ⟨inner, rest, rfl, inside⟩ | unclosed
      · rcases members_or_unclosed .inside rest with ⟨inner', rest, rfl, members⟩ | unclosed
        · exact .inl ⟨'[' :: inner ++ ']' :: inner', rest, by simp, .nested inside members⟩
        · exact .inr (.behind inside unclosed)
      · exact .inr (.nested unclosed)
    by_cases ends : c = ']'
    · subst ends
      by_cases first : place = .inside
      · exact .inl ⟨[], cs, rfl, first ▸ .nil⟩
      · rcases members_or_unclosed .inside cs with ⟨inner, rest, rfl, members⟩ | unclosed
        · exact .inl ⟨']' :: inner, rest, rfl, .bracket first members⟩
        · exact .inr (.bracket first unclosed)
    by_cases negates : place = .opened ∧ c = '^'
    · obtain ⟨rfl, rfl⟩ := negates
      rcases members_or_unclosed .negated cs with ⟨inner, rest, rfl, members⟩ | unclosed
      · exact .inl ⟨'^' :: inner, rest, rfl, .caret members⟩
      · exact .inr (.caret unclosed)
    have other : c ∉ ['\\', '[', ']'] := by simp [escape, opens, ends]
    have noCaret : place = .opened → c ≠ '^' := fun first caret => negates ⟨first, caret⟩
    rcases members_or_unclosed .inside cs with ⟨inner, rest, rfl, members⟩ | unclosed
    · exact .inl ⟨c :: inner, rest, rfl, .plain other noCaret members⟩
    · exact .inr (.plain other noCaret unclosed)
termination_by cs.length

theorem leads_or_unended (depth : Nat) (cs : List Char) :
    (∃ body rest, cs = body ++ ')' :: rest ∧ Leads depth body 0) ∨ Unended depth cs := by
  match cs with
  | [] => exact .inr (.nil depth)
  | c :: cs =>
    by_cases escape : c = '\\'
    · subst escape
      match cs with
      | [] => exact .inr (.hanging depth)
      | c :: cs =>
        rcases leads_or_unended depth cs with ⟨body, rest, rfl, leads⟩ | unended
        · exact .inl ⟨'\\' :: c :: body, rest, rfl, .escape c leads⟩
        · exact .inr (.escape c unended)
    by_cases opens : c = '['
    · subst opens
      rcases members_or_unclosed .opened cs with ⟨inner, rest, rfl, inside⟩ | unclosed
      · rcases leads_or_unended depth rest with ⟨body, rest, rfl, leads⟩ | unended
        · exact .inl ⟨'[' :: inner ++ ']' :: body, rest, by simp, .set inside leads⟩
        · exact .inr (.set inside unended)
      · exact .inr (.unclosed unclosed)
    by_cases groups : c = '('
    · subst groups
      rcases leads_or_unended (depth + 1) cs with ⟨body, rest, rfl, leads⟩ | unended
      · exact .inl ⟨'(' :: body, rest, rfl, .opening leads⟩
      · exact .inr (.opening unended)
    by_cases ends : c = ')'
    · subst ends
      cases depth with
      | zero => exact .inl ⟨[], cs, rfl, .nil 0⟩
      | succ depth =>
        rcases leads_or_unended depth cs with ⟨body, rest, rfl, leads⟩ | unended
        · exact .inl ⟨')' :: body, rest, rfl, .closing leads⟩
        · exact .inr (.closing unended)
    have other : c ∉ ['\\', '[', '(', ')'] := by simp [escape, opens, groups, ends]
    rcases leads_or_unended depth cs with ⟨body, rest, rfl, leads⟩ | unended
    · exact .inl ⟨c :: body, rest, rfl, .plain other leads⟩
    · exact .inr (.plain other unended)
termination_by cs.length

def Endless (n : Nesting) (cs : List Char) : Prop :=
  ∃ front last n', cs = front ++ last ∧ (last = [] ∨ last = ['\\']) ∧ Passes n (marks front) n'

variable {n mid : Nesting} {cs : List Char}

theorem endless_nil (n : Nesting) : Endless n [] := ⟨[], [], n, rfl, .inl rfl, .nil n⟩

theorem endless_hanging (n : Nesting) : Endless n ['\\'] := ⟨[], ['\\'], n, rfl, .inr rfl, .nil n⟩

theorem Endless.behind {ds : List Char} (rest : Endless mid ds) (passes : Passes n (marks cs) mid) :
    Endless n (cs ++ ds) := by
  obtain ⟨front, last, n', rfl, ends, later⟩ := rest
  refine ⟨cs ++ front, last, n', (List.append_assoc ..).symm, ends, ?_⟩
  rw [marks_append]
  exact passes.trans later

theorem Endless.cons {c : Char} (rest : Endless mid cs) (other : Mark.ofCode c.toNat ≠ .escape)
    (step : n.step (Mark.ofCode c.toNat) = mid) (deep : mid ≠ .flat) : Endless n (c :: cs) :=
  have passes : Passes n (marks [c]) mid := .unit other step deep (.nil mid)
  rest.behind passes

theorem Endless.escape (c : Char) (rest : Endless n.escaped cs) : Endless n ('\\' :: c :: cs) :=
  have passes : Passes n (marks ['\\', c]) n.escaped := .escape _ (.nil _)
  rest.behind passes

theorem Endless.closeFrom_eq (endless : Endless n cs) (index : Nat) : closeFrom n index (marks cs) = none := by
  obtain ⟨front, last, n', rfl, rfl | rfl, passes⟩ := endless <;> rw [marks_append, passes.closeFrom_eq] <;>
    rfl

theorem Endless.barFrom_eq (endless : Endless n cs) (inner : n ≠ .flat) : barFrom n (marks cs) = false := by
  obtain ⟨front, last, n', rfl, rfl | rfl, passes⟩ := endless <;>
    rw [marks_append, passes.barFrom_eq inner] <;> rfl

theorem Unclosed.endless {place : Place} (unclosed : Unclosed place cs) (groups nest : Nat) :
    Endless ⟨groups, some (nest + 1, place)⟩ cs := by
  induction unclosed generalizing nest with
  | nil place => exact endless_nil _
  | hanging place => exact endless_hanging _
  | caret rest ih => exact (ih nest).cons (by decide) rfl (deep_class _)
  | @bracket place cs first rest ih =>
    refine (ih nest).cons (by decide) ?_ (deep_class _)
    cases place <;> first | rfl | contradiction
  | escape c rest ih => exact Endless.escape c (ih nest)
  | @nested place cs inside ih =>
    refine (ih (nest + 1)).cons (by decide) ?_ (deep_class _)
    cases place <;> rfl
  | @behind place inner cs inside rest ih =>
    have out : Nesting.step ⟨groups, some (nest + 1 + 1, .inside)⟩ .closeClass =
        ⟨groups, some (nest + 1, .inside)⟩ := by
      simp [Nesting.step]
    have last := (ih nest).cons (c := ']') (by decide) out (deep_class _)
    refine (last.behind (inside.passes groups (nest + 1))).cons (by decide) ?_ (deep_class _)
    cases place <;> rfl
  | plain other noCaret rest ih =>
    have step := step_of_member other noCaret groups (nest + 1)
    exact (ih nest).cons step.1 step.2 (deep_class _)

theorem Unended.endless {depth : Nat} (unended : Unended depth cs) : Endless ⟨depth + 1, none⟩ cs := by
  induction unended with
  | nil depth => exact endless_nil _
  | hanging depth => exact endless_hanging _
  | escape c rest ih => exact Endless.escape c ih
  | @unclosed depth cs inside => exact (inside.endless (depth + 1) 0).cons (by decide) rfl (deep_class _)
  | @set depth inner cs inside rest ih =>
    have last := ih.cons (c := ']') (n := ⟨depth + 1, some (0 + 1, .inside)⟩) (by decide) rfl (deep_group _)
    exact (last.behind (inside.passes (depth + 1) 0)).cons (by decide) rfl (deep_class _)
  | opening rest ih => exact ih.cons (by decide) rfl (deep_group _)
  | closing rest ih => exact ih.cons (by decide) rfl (deep_group _)
  | @plain depth c cs other rest ih =>
    have step := step_of_plain other (depth + 1)
    exact ih.cons step.1 step.2 (deep_group _)

end Unmatched

/-- What stands between the delimiter that a source begins with and the one that closes it. -/
inductive Encloses : List Char → List Char → Prop where
  | group {body : List Char} (balanced : IsBalanced body) (rest : List Char) :
    Encloses ('(' :: body ++ ')' :: rest) body
  | set {inner : List Char} (members : Members .opened inner) (rest : List Char) :
    Encloses ('[' :: inner ++ ']' :: rest) inner

theorem Encloses.closingIndex_eq {cs body : List Char} (encloses : Encloses cs body) :
    closingIndex (marks cs) = some (body.length + 1) := by
  cases encloses with
  | group balanced rest =>
    have reads : closingIndex (marks ('(' :: body ++ ')' :: rest)) =
        closeFrom ⟨0 + 1, none⟩ 1 (marks body ++ marks (')' :: rest)) := by
      rw [← marks_append]
      rfl
    rw [reads, balanced.passes.closeFrom_eq, length_marks, Nat.add_comm 1 body.length]
    rfl
  | set members rest =>
    have reads : closingIndex (marks ('[' :: body ++ ']' :: rest)) =
        closeFrom ⟨0, some (0 + 1, .opened)⟩ 1 (marks body ++ marks (']' :: rest)) := by
      rw [← marks_append]
      rfl
    rw [reads, (members.passes 0 0).closeFrom_eq, length_marks, Nat.add_comm 1 body.length]
    rfl

/-- A source that begins with no delimiter, or with one that nothing closes. -/
inductive Unmatched : List Char → Prop where
  | nil : Unmatched []
  | other {c : Char} (other : c ∉ ['(', '[']) (cs : List Char) : Unmatched (c :: cs)
  | group {cs : List Char} (unended : Unended 0 cs) : Unmatched ('(' :: cs)
  | set {cs : List Char} (unclosed : Unclosed .opened cs) : Unmatched ('[' :: cs)

theorem encloses_or_unmatched (cs : List Char) : (∃ body, Encloses cs body) ∨ Unmatched cs := by
  cases cs with
  | nil => exact .inr .nil
  | cons c cs =>
    by_cases group : c = '('
    · subst group
      rcases leads_or_unended 0 cs with ⟨body, rest, rfl, leads⟩ | unended
      · exact .inl ⟨body, .group leads rest⟩
      · exact .inr (.group unended)
    by_cases set : c = '['
    · subst set
      rcases members_or_unclosed .opened cs with ⟨inner, rest, rfl, members⟩ | unclosed
      · exact .inl ⟨inner, .set members rest⟩
      · exact .inr (.set unclosed)
    exact .inr (.other (by simp [group, set]) cs)

theorem Unmatched.closingIndex_eq {cs : List Char} (unmatched : Unmatched cs) :
    closingIndex (marks cs) = none := by
  cases unmatched with
  | nil => rfl
  | group unended => exact unended.endless.closeFrom_eq 1
  | set unclosed => exact (unclosed.endless 0 0).closeFrom_eq 1
  | @other c other cs =>
    simp only [List.mem_cons, List.not_mem_nil, or_false, not_or] at other
    have noGroup : Mark.ofCode c.toNat ≠ .openGroup := mark_ne (d := '(') (by decide) other.1
    have noClass : Mark.ofCode c.toNat ≠ .openClass := mark_ne (d := '[') (by decide) other.2
    rw [marks_cons]
    generalize Mark.ofCode c.toNat = m at noGroup noClass
    cases m <;> first | rfl | contradiction

/-- The reader of marks finds the closing delimiter of a source if it has one, and nothing else. -/
theorem closingIndex_marks (cs : List Char) :
    (∃ body, Encloses cs body) ∨ closingIndex (marks cs) = none :=
  (encloses_or_unmatched cs).imp_right Unmatched.closingIndex_eq

theorem isAtomic_whole {cs : List Char} (atomic : isAtomic ⟨cs⟩ = true) :
    (∃ c, cs = [c] ∧ c ∉ ['\\', '|', '(', ')', '[', ']']) ∨ (∃ c, cs = ['\\', c]) ∨
      (∃ body, cs = '(' :: body ++ [')'] ∧ IsBalanced body) ∨
      ∃ inner, cs = '[' :: inner ++ [']'] ∧ Members .opened inner := by
  rcases isAtomic_cases atomic with one | two | ⟨c, rest, -, source, closes⟩
  · exact .inl one
  · exact .inr (.inl two)
  rcases closingIndex_marks cs with ⟨body, encloses⟩ | endless
  · have length : body.length + 1 = rest.length :=
      Option.some.inj (encloses.closingIndex_eq.symm.trans closes)
    have whole : cs.length = body.length + 2 := by simp [source, ← length]
    cases encloses with
    | group balanced behind =>
      obtain rfl : behind = [] := by simpa using whole
      exact .inr (.inr (.inl ⟨body, rfl, balanced⟩))
    | set members behind =>
      obtain rfl : behind = [] := by simpa using whole
      exact .inr (.inr (.inr ⟨body, rfl, members⟩))
  · rw [endless] at closes
    cases closes

theorem group_of_isAtomic {cs : List Char} (atomic : isAtomic ⟨'(' :: cs⟩ = true) :
    ∃ body, cs = body ++ [')'] ∧ IsBalanced body := by
  rcases isAtomic_whole atomic with ⟨c, one, other⟩ | ⟨c, two⟩ | ⟨body, source, balanced⟩ | ⟨_, source, _⟩
  · cases one
    simp at other
  · simp at two
  · exact ⟨body, (List.cons.inj source).2, balanced⟩
  · simp at source

theorem IsBalanced.of_plain {c : Char} {cs : List Char} (other : c ∉ ['\\', '[', '(', ')'])
    (balanced : IsBalanced (c :: cs)) : IsBalanced cs := by
  generalize source : c :: cs = text at balanced
  unfold IsBalanced at balanced
  cases balanced with
  | plain _ rest =>
    cases source
    exact rest
  | _ => simp_all

theorem wrapped_of_isAtomic {cs : List Char} (atomic : isAtomic ⟨'(' :: '?' :: ':' :: cs⟩ = true) :
    ∃ body, cs = body ++ [')'] ∧ IsBalanced body := by
  obtain ⟨inner, source, balanced⟩ := group_of_isAtomic atomic
  match inner with
  | [] => simp at source
  | [_] => simp at source
  | _ :: _ :: body =>
    obtain ⟨rfl, rfl, rfl⟩ := by simpa using source
    exact ⟨body, rfl, (balanced.of_plain (by decide)).of_plain (by decide)⟩

theorem capture_cases (f : Fragment) :
    (∃ body, f = wrapped ⟨body⟩ ∧ IsBalanced body ∧ f.capture.source = '(' :: body ++ [')']) ∨
      f.capture.source = '(' :: f.source ++ [')'] := by
  obtain ⟨source⟩ := f
  unfold capture
  split
  · rename_i body is
    obtain rfl : source = '(' :: '?' :: ':' :: body := is
    split
    · rename_i atomic
      obtain ⟨inner, rfl, inside⟩ := wrapped_of_isAtomic atomic
      exact .inl ⟨inner, rfl, inside, rfl⟩
    · exact .inr rfl
  · exact .inr rfl

/-- A source is balanced just if parentheses around it are partners. -/
theorem isBalanced_iff (cs : List Char) :
    IsBalanced cs ↔ closingIndex (marks ('(' :: cs ++ [')'])) = some (cs.length + 1) := by
  constructor
  · intro balanced
    exact (Encloses.group balanced []).closingIndex_eq
  · intro closes
    rcases closingIndex_marks ('(' :: cs ++ [')']) with ⟨body, encloses⟩ | endless
    · rw [encloses.closingIndex_eq] at closes
      have length : body.length = cs.length := Nat.succ.inj (Option.some.inj closes)
      generalize source : '(' :: cs ++ [')'] = text at encloses
      cases encloses with
      | group balanced rest =>
        have same : cs ++ [')'] = body ++ ')' :: rest := (List.cons.inj source).2
        obtain ⟨rfl, -⟩ := List.append_inj same length.symm
        exact balanced
      | set members rest => simp at source
    · rw [endless] at closes
      cases closes

instance (cs : List Char) : Decidable (IsBalanced cs) := decidable_of_iff _ (isBalanced_iff cs).symm

end ScopeGrammar.Fragment
