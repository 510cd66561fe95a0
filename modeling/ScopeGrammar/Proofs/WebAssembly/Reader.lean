import ScopeGrammar.Proofs.Regex.Criteria
import ScopeGrammar.Proofs.Text.Lines

/-!
A reader of the text format that knows parentheses, comments and strings alone. It goes through a
line from left to right, and from one line to the next with the numbers of the parentheses and block
comments that are open.
-/

set_option autoImplicit false

namespace ScopeGrammar.WebAssembly

open Regex (piece piece_append piece_succ)

/-- What the reader of a line is in: code and block comments, a string, or the rest of the line
behind a line comment's mark. -/
inductive Mode where
  | code
  | string
  | rest
  deriving DecidableEq, Repr

def read : Mode → (parens comments : Nat) → List Char → Nat × Nat
  | _, n, m, [] => (n, m)
  | .rest, n, m, _ :: _ => (n, m)
  | .string, n, m, '\\' :: _ :: cs => read .string n m cs
  | .string, n, m, '"' :: cs => read .code n m cs
  | .string, n, m, _ :: cs => read .string n m cs
  | .code, n, m, '(' :: ';' :: cs => read .code n (m + 1) cs
  | .code, n, m + 1, ';' :: ')' :: cs => read .code n m cs
  | .code, n, m + 1, _ :: cs => read .code n (m + 1) cs
  | .code, n, 0, ';' :: ';' :: cs => read .rest n 0 cs
  | .code, n, 0, '"' :: cs => read .string n 0 cs
  | .code, n, 0, '(' :: cs => read .code (n + 1) 0 cs
  | .code, n, 0, ')' :: cs => read .code (n - 1) 0 cs
  | .code, n, 0, _ :: cs => read .code n 0 cs

/-- The numbers behind a text, read line by line with the given numbers before it. -/
def readFrom (start : Nat × Nat) (cs : List Char) : Nat × Nat :=
  (Text.lines cs).foldl (fun counts line => read .code counts.1 counts.2 line) start

def readText (cs : List Char) : Nat × Nat := readFrom (0, 0) cs

variable {n m : Nat} {cs : List Char} {c d : Char}

@[simp] theorem read_nil (mode : Mode) : read mode n m [] = (n, m) := by
  cases mode <;> rfl

@[simp] theorem read_rest : read .rest n m cs = (n, m) := by
  cases cs <;> rfl

theorem readFrom_of_not_mem {start : Nat × Nat} (inLine : '\n' ∉ cs) :
    readFrom start cs = read .code start.1 start.2 cs := by
  rw [readFrom, Text.lines_of_not_mem inLine]
  split
  · rename_i empty
    rw [empty, read_nil]
    rfl
  · rfl

theorem readFrom_append {start : Nat × Nat} (inLine : '\n' ∉ cs) (rest : List Char) :
    readFrom start (cs ++ '\n' :: rest) =
      readFrom (read .code start.1 start.2 (Text.chomp cs)) rest := by
  rw [readFrom, Text.lines_append inLine]
  rfl

theorem readFrom_take (start : Nat × Nat) {line : List Char} {k : Nat}
    (first : (Text.lines cs).head? = some line) (lt : k < line.length) :
    readFrom start (line.take k) = read .code start.1 start.2 (line.take k) ∧
      ∃ back, back ≠ [] ∧ cs = line.take k ++ back := by
  obtain ⟨⟨behind, whole⟩, inLine⟩ := Text.prefix_of_head_lines first
  refine ⟨readFrom_of_not_mem fun member => inLine (List.mem_of_mem_take member),
    line.drop k ++ behind, ?_, by rw [← List.append_assoc, List.take_append_drop, whole]⟩
  intro none
  have few := congrArg List.length (List.append_eq_nil_iff.1 none).1
  rw [List.length_drop, List.length_nil] at few
  omega

theorem read_comment_open : read .code n m ('(' :: ';' :: cs) = read .code n (m + 1) cs := rfl

theorem read_comment_close : read .code n (m + 1) (';' :: ')' :: cs) = read .code n m cs := rfl

theorem read_line_comment : read .code n 0 (';' :: ';' :: cs) = read .rest n 0 cs := rfl

theorem read_quote : read .code n 0 ('"' :: cs) = read .string n 0 cs := rfl

theorem read_close : read .code n 0 (')' :: cs) = read .code (n - 1) 0 cs := rfl

theorem read_open (alone : cs.head? ≠ some ';') :
    read .code n 0 ('(' :: cs) = read .code (n + 1) 0 cs := by
  cases cs with
  | nil => rfl
  | cons c cs =>
    simp only [List.head?_cons, ne_eq, Option.some.injEq] at alone
    rw [read]
    simp [alone]

theorem read_plain (notOpen : c ≠ '(') (notClose : c ≠ ')') (notQuote : c ≠ '"')
    (alone : c = ';' → cs.head? ≠ some ';') : read .code n 0 (c :: cs) = read .code n 0 cs := by
  rw [read]
  all_goals
    intros
    simp_all

theorem read_in_comment (noOpen : c = '(' → cs.head? ≠ some ';')
    (noClose : c = ';' → cs.head? ≠ some ')') :
    read .code n (m + 1) (c :: cs) = read .code n (m + 1) cs := by
  rw [read]
  all_goals
    rintro rest rfl rfl
    simp_all

theorem read_string_quote : read .string n m ('"' :: cs) = read .code n m cs := rfl

theorem read_escaped : read .string n m ('\\' :: c :: cs) = read .string n m cs := rfl

theorem read_string_plain (notQuote : c ≠ '"') (notEscape : c ≠ '\\') :
    read .string n m (c :: cs) = read .string n m cs := by
  rw [read]
  all_goals
    intros
    simp_all

theorem read_in_string (notQuote : c ≠ '"')
    (plain : c = '\\' → cs.head? ≠ some '"' ∧ cs.head? ≠ some '\\') :
    read .string n m (c :: cs) = read .string n m cs := by
  by_cases escape : c = '\\'
  · subst escape
    cases cs with
    | nil => rfl
    | cons d cs =>
      have next := plain rfl
      simp only [List.head?_cons, ne_eq, Option.some.injEq] at next
      rw [read_escaped, read_string_plain next.1 next.2]
  · exact read_string_plain notQuote escape

structure Reading where
  mode : Mode
  parens : Nat
  comments : Nat

def Reading.read (s : Reading) (cs : List Char) : Nat × Nat :=
  WebAssembly.read s.mode s.parens s.comments cs

/-- Reading the characters between two positions leads from one state to the other, however much of
the line follows. -/
def Moves (cs : List Char) (p q : Nat) (s s' : Reading) : Prop :=
  ∀ ahead, ahead <+: cs.drop q → s.read (piece cs p q ++ ahead) = s'.read ahead

section Moves

variable {p q q' : Nat} {s s' s'' : Reading}

theorem Moves.refl (cs : List Char) (p : Nat) (s : Reading) : Moves cs p p s s := by
  intro ahead _
  rw [Regex.piece_self, List.nil_append]

theorem drop_eq_piece_append (cs : List Char) (le : p ≤ q) :
    cs.drop p = piece cs p q ++ cs.drop q := by
  have whole := List.take_append_drop (q - p) (cs.drop p)
  rw [List.drop_drop, Nat.add_sub_cancel' le] at whole
  exact whole.symm

theorem Moves.trans (le : p ≤ q) (le' : q ≤ q') (first : Moves cs p q s s')
    (second : Moves cs q q' s' s'') : Moves cs p q' s s'' := by
  intro ahead isAhead
  have longer : piece cs q q' ++ ahead <+: cs.drop q := by
    rw [drop_eq_piece_append cs le']
    exact (List.prefix_append_right_inj _).2 isAhead
  rw [piece_append cs le le', List.append_assoc, first _ longer, second _ isAhead]

theorem moves_one (here : cs[p]? = some c)
    (one : ∀ ahead, ahead <+: cs.drop (p + 1) → s.read (c :: ahead) = s'.read ahead) :
    Moves cs p (p + 1) s s' := by
  intro ahead isAhead
  rw [piece_succ here]
  exact one ahead isAhead

theorem moves_two (here : cs[p]? = some c) (next : cs[p + 1]? = some d)
    (two : ∀ ahead, s.read (c :: d :: ahead) = s'.read ahead) : Moves cs p (p + 2) s s' := by
  intro ahead _
  rw [piece_append cs (Nat.le_succ p) (Nat.le_succ (p + 1)), piece_succ here, piece_succ next]
  exact two ahead

theorem head?_ahead {ahead : List Char} (isAhead : ahead <+: cs.drop q) (other : cs[q]? ≠ some c) :
    ahead.head? ≠ some c := by
  intro same
  obtain ⟨behind, whole⟩ := isAhead
  have first := congrArg List.head? whole
  rw [List.head?_append, same, List.head?_drop] at first
  exact other first.symm

theorem moves_gap (le : p ≤ q)
    (idle : ∀ i c, p ≤ i → i < q → cs[i]? = some c →
      ∀ ahead, ahead <+: cs.drop (i + 1) → s.read (c :: ahead) = s.read ahead) :
    Moves cs p q s s := by
  induction le with
  | refl => exact Moves.refl cs p s
  | @step q le ih =>
    have first := ih fun i c ge lt => idle i c ge (Nat.lt_succ_of_lt lt)
    refine first.trans le (Nat.le_succ q) ?_
    cases here : cs[q]? with
    | some c => exact moves_one here (idle q c le (Nat.lt_succ_self q) here)
    | none =>
      intro ahead isAhead
      have full : cs.length ≤ q := List.getElem?_eq_none_iff.1 here
      simp [piece, List.drop_eq_nil_of_le full]

theorem moves_line_end {n m : Nat} (full : cs.length ≤ q) :
    Moves cs p q ⟨.rest, n, m⟩ ⟨.code, n, m⟩ := by
  intro ahead isAhead
  rw [List.drop_eq_nil_of_le full, List.prefix_nil] at isAhead
  subst isAhead
  simp [Reading.read]

theorem Moves.read_take (moves : Moves cs 0 q s s') :
    s.read (cs.take q) = (s'.parens, s'.comments) := by
  have whole := moves [] List.nil_prefix
  simpa [piece, Reading.read] using whole

end Moves

end ScopeGrammar.WebAssembly
