import ScopeGrammar.Fragment.Basic
import ScopeGrammar.Proofs.Fragment.Closing
import ScopeGrammar.Proofs.Regex.Joining

set_option autoImplicit false

namespace ScopeGrammar.Fragment

open Regex

def depth (f : Fragment) : Nat := depthFrom .flat (marks f.source)

theorem marks_append (cs ds : List Char) : marks (cs ++ ds) = marks cs ++ marks ds := List.map_append

theorem eq_flat {groups : Nat} : (⟨groups, none⟩ : Nesting) = .flat ↔ groups = 0 := by
  simp [Nesting.flat]

section Plain

variable {ps : List Mark} (plain : ∀ p ∈ ps, p = .plain) (groups index : Nat) (rest : List Mark)

include plain

theorem depthFrom_plain : depthFrom ⟨groups, none⟩ (ps ++ rest) = depthFrom ⟨groups, none⟩ rest := by
  induction ps with
  | nil => rfl
  | cons p ps ih =>
    obtain ⟨rfl, later⟩ := List.forall_mem_cons.1 plain
    have step : Nesting.step ⟨groups, none⟩ .plain = ⟨groups, none⟩ := rfl
    rw [List.cons_append, depthFrom_unit (by simp), step, ih later]
    exact Nat.max_eq_right (le_depthFrom ⟨groups, none⟩ rest)

theorem barFrom_plain : barFrom ⟨groups, none⟩ (ps ++ rest) = barFrom ⟨groups, none⟩ rest := by
  induction ps with
  | nil => rfl
  | cons p ps ih =>
    obtain ⟨rfl, later⟩ := List.forall_mem_cons.1 plain
    exact ih later

theorem closeFrom_plain (inner : 0 < groups) :
    closeFrom ⟨groups, none⟩ index (ps ++ rest) =
      closeFrom ⟨groups, none⟩ (index + ps.length) rest := by
  induction ps generalizing index with
  | nil => rfl
  | cons p ps ih =>
    obtain ⟨rfl, later⟩ := List.forall_mem_cons.1 plain
    rw [List.cons_append, closeFrom_unit (by simp)]
    have step : Nesting.step ⟨groups, none⟩ .plain = ⟨groups, none⟩ := rfl
    have deep : (⟨groups, none⟩ : Nesting) ≠ .flat := fun flat => Nat.ne_of_gt inner (eq_flat.1 flat)
    rw [step, if_neg deep, ih later, List.length_cons, Nat.add_right_comm, Nat.add_assoc]

end Plain

/-- The marks that a lexeme shows. -/
inductive Shows : Lexeme → List Mark → Prop where
  | unit {x : Lexeme} {m : Mark} {ps : List Mark} (other : m ≠ .escape) (bar : m = .bar ↔ x = .bar)
      (step : ∀ depth, Nesting.step ⟨depth, none⟩ m = ⟨x.depthBehind depth, none⟩)
      (plain : ∀ p ∈ ps, p = .plain) : Shows x (m :: ps)
  | escape {node : Node} {ps : List Mark} (m : Mark) (plain : ∀ p ∈ ps, p = .plain) :
    Shows (.atom node) (.escape :: m :: ps)
  | set {s : CharSet} {ms : List Mark} (closes : Closes 1 .opened ms) :
    Shows (.atom (.set s)) (.openClass :: ms)

theorem shows_of_isText {x : Lexeme} {c : Char} {text : List Char} (is : x.IsText c text) :
    Shows x (marks (c :: text)) := by
  cases is with
  | bar => exact .unit (by decide) (by decide) (fun _ => rfl) (by simp)
  | closing => exact .unit (by decide) (by decide) (fun _ => rfl) (by simp)
  | opening inert => exact .unit (by decide) (by simp [Mark.ofCode]) (fun _ => rfl) inert.marks
  | quantifier inert =>
    obtain ⟨first, later⟩ := List.forall_mem_cons.1 inert
    have is := mark_of_not_structural first
    refine .unit ?_ ?_ (fun depth => ?_) (Inert.marks later) <;> simp only [is]
    · simp
    · simp
    · rfl
  | char plain =>
    have differs (d : Char) (own : d ∈ structural) (is : d ∈ ['\\', '(', ')', '[', '|']) :
        Mark.ofCode c.toNat ≠ Mark.ofCode d.toNat := fun same => plain (eq_of_mark own same ▸ is)
    have escape : Mark.ofCode c.toNat ≠ .escape := differs '\\' (by decide) (by decide)
    have opening : Mark.ofCode c.toNat ≠ .openGroup := differs '(' (by decide) (by decide)
    have closing : Mark.ofCode c.toNat ≠ .closeGroup := differs ')' (by decide) (by decide)
    have set : Mark.ofCode c.toNat ≠ .openClass := differs '[' (by decide) (by decide)
    have bar : Mark.ofCode c.toNat ≠ .bar := differs '|' (by decide) (by decide)
    rw [marks, List.map_cons]
    generalize Mark.ofCode c.toNat = m at escape opening closing set bar
    refine .unit escape (iff_of_false bar (by simp)) (fun depth => ?_) (by simp)
    cases m <;> first | rfl | contradiction
  | escape inert => exact .escape _ inert.marks
  | set reads => exact .set (readPlainClass?_closes reads)

section Shows

variable {x : Lexeme} {ms : List Mark} (shows : Shows x ms) (depth : Nat) (rest : List Mark)

include shows

theorem Shows.depthFrom_eq :
    depthFrom ⟨depth, none⟩ (ms ++ rest) = max depth (depthFrom ⟨x.depthBehind depth, none⟩ rest) := by
  cases shows with
  | unit other bar step plain =>
    rw [List.cons_append, depthFrom_unit other, step, depthFrom_plain plain]
  | @escape node ps m plain =>
    have step : depthFrom ⟨depth, none⟩ (.escape :: m :: (ps ++ rest)) =
        max depth (depthFrom ⟨depth, none⟩ (ps ++ rest)) := rfl
    rw [List.cons_append, List.cons_append, step, depthFrom_plain plain]
    rfl
  | @set s ms closes =>
    have step : depthFrom ⟨depth, none⟩ (.openClass :: (ms ++ rest)) =
        max depth (depthFrom ⟨depth, some (1, .opened)⟩ (ms ++ rest)) := rfl
    rw [List.cons_append, step, closes.depthFrom_eq]
    rfl

theorem Shows.barFrom_eq :
    barFrom ⟨depth, none⟩ (ms ++ rest) =
      ((x = .bar && depth = 0) || barFrom ⟨x.depthBehind depth, none⟩ rest) := by
  cases shows with
  | unit other bar step plain =>
    rw [List.cons_append, barFrom_unit other, step, barFrom_plain plain]
    simp only [bar, eq_flat]
  | escape m plain => exact barFrom_plain plain depth rest
  | set closes => exact closes.barFrom_eq depth rest

theorem Shows.closeFrom_eq (inner : 0 < depth) (index : Nat) :
    closeFrom ⟨depth, none⟩ index (ms ++ rest) =
      if x.depthBehind depth = 0 then some index
      else closeFrom ⟨x.depthBehind depth, none⟩ (index + ms.length) rest := by
  cases shows with
  | unit other bar step plain =>
    rw [List.cons_append, closeFrom_unit other, step]
    simp only [eq_flat]
    split
    · rfl
    · rename_i deeper
      rw [closeFrom_plain plain _ _ _ (Nat.pos_of_ne_zero deeper), List.length_cons,
        Nat.add_right_comm, Nat.add_assoc]
  | @escape node ps m plain =>
    have step : closeFrom ⟨depth, none⟩ index (.escape :: m :: (ps ++ rest)) =
        closeFrom ⟨depth, none⟩ (index + 2) (ps ++ rest) := rfl
    have same : Lexeme.depthBehind depth (.atom node) = depth := rfl
    rw [List.cons_append, List.cons_append, step, closeFrom_plain plain _ _ _ inner, same,
      if_neg (Nat.ne_of_gt inner), List.length_cons, List.length_cons, Nat.add_right_comm, Nat.add_assoc]
  | @set s ms closes =>
    have step : closeFrom ⟨depth, none⟩ index (.openClass :: (ms ++ rest)) =
        closeFrom ⟨depth, some (1, .opened)⟩ (index + 1) (ms ++ rest) :=
      (closeFrom_unit (by decide) ..).trans (if_neg (by simp [Nesting.flat, Nesting.step]))
    have same : Lexeme.depthBehind depth (.atom (.set s)) = depth := rfl
    rw [List.cons_append, step, closes.closeFrom_eq, same, if_neg (Nat.ne_of_gt inner),
      if_neg (Nat.ne_of_gt inner), List.length_cons, Nat.add_right_comm, Nat.add_assoc]

end Shows

section Lexes

variable {waits : Bool} {cs : List Char} {xs : List Lexeme}

theorem depthFrom_marks (lexes : Lexes waits cs xs) (depth : Nat) :
    depthFrom ⟨depth, none⟩ (marks cs) = deepest depth xs := by
  induction lexes generalizing depth with
  | nil waits => rfl
  | @cons waits c cs rest x xs first later ih =>
    obtain ⟨text, rfl, is, -⟩ := lexeme?_text first
    rw [← List.cons_append, marks_append, (shows_of_isText is).depthFrom_eq, ih, deepest]

theorem barFrom_marks (lexes : Lexes waits cs xs) (depth : Nat) :
    barFrom ⟨depth, none⟩ (marks cs) = openBar depth xs := by
  induction lexes generalizing depth with
  | nil waits => rfl
  | @cons waits c cs rest x xs first later ih =>
    obtain ⟨text, rfl, is, -⟩ := lexeme?_text first
    rw [← List.cons_append, marks_append, (shows_of_isText is).barFrom_eq, ih, openBar]

theorem closeFrom_marks (lexes : Lexes waits cs xs) {depth index last : Nat}
    (closes : closeFrom ⟨depth + 1, none⟩ index (marks cs) = some last)
    (ends : last + 1 = index + cs.length) :
    ∃ body ys, cs = body ++ [')'] ∧ xs = ys ++ [.closing] ∧ Lexes waits body ys ∧
      stays depth ys = true := by
  induction lexes generalizing depth index with
  | nil waits => cases closes
  | @cons waits c cs rest x xs first later ih =>
    obtain ⟨text, rfl, is, reads⟩ := lexeme?_text first
    rw [← List.cons_append, marks_append,
      (shows_of_isText is).closeFrom_eq _ _ (Nat.succ_pos depth)] at closes
    have length : (c :: (text ++ rest)).length = (marks (c :: text)).length + rest.length := by
      simp [marks, Nat.add_right_comm]
    split at closes
    · rename_i out
      cases closes
      obtain ⟨rfl, rfl⟩ : x = .closing ∧ depth = 0 := by
        cases x with
        | closing => exact ⟨rfl, out⟩
        | _ => simp [Lexeme.depthBehind] at out
      cases is
      obtain rfl : rest = [] := by
        rw [← List.length_eq_zero_iff]
        simp only [List.nil_append, List.length_cons] at ends
        omega
      cases later
      exact ⟨[], [], rfl, rfl, .nil _, rfl⟩
    · rename_i inner
      have opened : x = .closing → depth ≠ 0 := by
        rintro rfl
        simpa [Lexeme.depthBehind] using inner
      rw [Lexeme.depthBehind_succ opened] at closes
      obtain ⟨body, ys, rfl, rfl, inside, stay⟩ := ih closes (by omega)
      refine ⟨c :: (text ++ body), x :: ys, by simp, rfl, .cons (reads body (.inr ?_)) inside, ?_⟩
      · rintro mark - head
        obtain ⟨behind, rfl⟩ := List.head?_eq_some_iff.1 head
        rfl
      · rw [stays, stay]
        by_cases is : x = .closing
        · simp [is, opened is]
        · simp [is]

theorem hasOpenChoice_marks (lexes : Lexes false cs xs) : hasOpenChoice (marks cs) = openBar 0 xs :=
  barFrom_marks lexes 0

theorem depth_eq (lexes : Lexes false cs xs) : depth ⟨cs⟩ = deepest 0 xs := depthFrom_marks lexes 0

end Lexes

section Atomic

variable {cs : List Char} {xs : List Lexeme} {level : Level}

/-- A group that reaches to the end of a source encloses a source in its own right. -/
theorem reads_of_closing (closes : closingIndex (marks ('(' :: cs)) = some cs.length)
    (reads : Reads ('(' :: cs) xs level) :
    ∃ bracket inside ys m, bracket? cs = some (bracket, inside ++ [')']) ∧ Reads inside ys m ∧
      level = ⟨[], [], some (bracket.node m.node)⟩ := by
  cases lexes : reads.lexes with
  | @cons _ _ _ rest x xs first later =>
    obtain ⟨⟨bracket, rest⟩, opens, same⟩ := Option.map_eq_some_iff.1 first
    cases same
    obtain ⟨text, rfl, inert, -, -⟩ := bracket?_text opens
    have behind : closeFrom ⟨0 + 1, none⟩ (1 + (marks text).length) (marks rest) =
        some (text ++ rest).length := by
      rw [← closeFrom_plain inert.marks _ _ _ Nat.one_pos, ← marks_append]
      exact closes
    have length : (text ++ rest).length + 1 = 1 + (marks text).length + rest.length := by
      rw [List.length_append, marks, List.length_map]
      omega
    obtain ⟨inside, ys, rfl, rfl, alone, stay⟩ := closeFrom_marks later behind length
    obtain ⟨m, fed, rfl⟩ := reads.of_bracketed stay
    exact ⟨bracket, inside, ys, m, opens, ⟨alone, fed⟩, rfl⟩

theorem isAtomic_cases (atomic : isAtomic ⟨cs⟩ = true) :
    (∃ c, cs = [c] ∧ c ∉ ['\\', '|', '(', ')', '[', ']']) ∨ (∃ c, cs = ['\\', c]) ∨
      ∃ c rest, (c = '(' ∨ c = '[') ∧ cs = c :: rest ∧ closingIndex (marks cs) = some rest.length := by
  unfold isAtomic at atomic
  split at atomic
  · simp at atomic
  · rename_i c is
    exact .inl ⟨c, is, by simpa using atomic⟩
  · rename_i c is
    exact .inr (.inl ⟨c, is⟩)
  · rename_i some _ _
    have closes : closingIndex (marks cs) = .some (cs.length - 1) := by simpa using atomic
    cases cs with
    | nil => exact absurd rfl some
    | cons c rest =>
      refine .inr (.inr ⟨c, rest, ?_, rfl, closes⟩)
      unfold closingIndex at closes
      split at closes
      · rename_i is
        exact .inl (eq_of_mark (by decide) (List.cons.inj is).1)
      · rename_i is
        exact .inr (eq_of_mark (by decide) (List.cons.inj is).1)
      · cases closes

theorem reads_atom {node : Node} (reads : Reads cs (.atom node :: xs) level)
    (last : Lexes true [] xs) : ∃ node, level = ⟨[], [], some node⟩ := by
  cases last
  cases reads.fed
  exact ⟨node, rfl⟩

theorem reads_char {c : Char} (plain : c ∉ ['\\', '|', '(', ')', '[', ']'])
    (reads : Reads [c] xs level) : ∃ node, level = ⟨[], [], some node⟩ := by
  cases reads.lexes with
  | cons first later =>
    obtain ⟨text, whole, is, -⟩ := lexeme?_text first
    obtain ⟨rfl, rfl⟩ := List.append_eq_nil_iff.1 whole.symm
    cases is with
    | char => exact reads_atom reads later
    | quantifier => exact absurd rfl (reads.first _ _ _ _)
    | bar | closing | opening | set => simp at plain

theorem reads_escape {c : Char} (reads : Reads ['\\', c] xs level) :
    ∃ node, level = ⟨[], [], some node⟩ := by
  cases reads.lexes with
  | cons first later =>
    obtain ⟨text, whole, is, -⟩ := lexeme?_text first
    cases is with
    | char plain => simp at plain
    | quantifier => exact absurd rfl (reads.first _ _ _ _)
    | escape =>
      obtain ⟨-, behind⟩ := List.cons.inj whole
      obtain ⟨rfl, rfl⟩ := List.append_eq_nil_iff.1 behind.symm
      exact reads_atom reads later

theorem reads_class (closes : closingIndex (marks ('[' :: cs)) = some cs.length)
    (reads : Reads ('[' :: cs) xs level) : ∃ node, level = ⟨[], [], some node⟩ := by
  cases reads.lexes with
  | @cons _ _ _ rest _ _ first later =>
    obtain ⟨text, rfl, is, -⟩ := lexeme?_text first
    cases is with
    | char plain => simp at plain
    | quantifier => exact absurd rfl (reads.first _ _ _ _)
    | set plain =>
      have ends : closeFrom ⟨0, some (1, .opened)⟩ 1 (marks text ++ marks rest) =
          some (text ++ rest).length := by
        rw [← marks_append]
        exact closes
      rw [(readPlainClass?_closes plain).closeFrom_eq, if_pos rfl] at ends
      have lengths := Option.some.inj ends
      rw [List.length_append, marks, List.length_map] at lengths
      obtain rfl : rest = [] := List.length_eq_zero_iff.1 (by omega)
      exact reads_atom reads later

/-- What a source is read as that passes for one part waits for a quantifier as a whole. -/
theorem isAtomic_reads (atomic : isAtomic ⟨cs⟩ = true) (reads : Reads cs xs level) :
    ∃ node, level = ⟨[], [], some node⟩ := by
  rcases isAtomic_cases atomic with ⟨c, rfl, plain⟩ | ⟨c, rfl⟩ | ⟨c, rest, rfl | rfl, rfl, closes⟩
  · exact reads_char plain reads
  · exact reads_escape reads
  · obtain ⟨bracket, inside, ys, m, -, -, rfl⟩ := reads_of_closing closes reads
    exact ⟨_, rfl⟩
  · exact reads_class closes reads

end Atomic

end ScopeGrammar.Fragment
