import ScopeGrammar.Regex.Reader

set_option autoImplicit false

namespace ScopeGrammar.Regex.Level

variable {l m : Level}

theorem settle_of_last (waits : l.last = none) : l.settle = l := by
  obtain ⟨finished, pieces, last⟩ := l
  subst waits
  rfl

theorem settle_last (l : Level) : l.settle.last = none := by
  unfold settle
  split <;> rfl

@[simp] theorem settle_settle (l : Level) : l.settle.settle = l.settle :=
  settle_of_last (settle_last l)

@[simp] theorem settle_finished (l : Level) : l.settle.finished = l.finished := by
  unfold settle
  split <;> rfl

@[simp] theorem current_settle (l : Level) : l.settle.current = l.current := by
  rw [current, settle_settle, current]

@[simp] theorem node_settle (l : Level) : l.settle.node = l.node := by
  rw [node, current_settle, settle_finished, node]

theorem node_last (node : Node) : (⟨[], [], some node⟩ : Level).node = node := by
  cases node <;> rfl

theorem node_of_finished (finished : l.finished = []) :
    l.node = Node.sequence l.settle.pieces.reverse := by
  rw [node, finished]
  rfl

def branches (l : Level) : List Node := (l.current :: l.finished).reverse

theorem node_of_branches (l : Level) : l.node = Node.alternatives l.branches := rfl

def join (l m : Level) : Level := ⟨m.finished ++ l.finished, m.pieces ++ l.pieces, m.last⟩

theorem start_join (l : Level) : start.join l = l := by
  simp [join, start]

theorem join_start (waits : l.last = none) : l.join start = l := by
  obtain ⟨finished, pieces, last⟩ := l
  subst waits
  rfl

theorem join_settle (l m : Level) : (l.join m).settle = l.join m.settle := by
  unfold settle join
  cases m.last with
  | none => rfl
  | some node => cases node <;> rfl

theorem join_atom (l m : Level) (node : Node) : (l.join m).atom node = l.join (m.atom node) := by
  rw [atom, join_settle]
  rfl

theorem join_bar (empty : l.pieces = []) : (l.join m).bar = l.join m.bar := by
  rw [bar, current, join_settle]
  simp [join, bar, current, empty]

theorem node_join (finished : l.finished = []) (finished' : m.finished = []) :
    (l.settle.join m).node = Node.sequence (l.settle.pieces.reverse ++ m.settle.pieces.reverse) := by
  rw [node_of_finished (by simp [join, finished, finished']), join_settle]
  simp [join]

theorem branches_bar_join (l m : Level) : (l.bar.join m).branches = l.branches ++ m.branches := by
  have current : (l.bar.join m).current = m.current := by
    rw [Level.current, join_settle]
    simp [join, bar, Level.current]
  rw [branches, current]
  simp [join, bar, branches]

end ScopeGrammar.Regex.Level
