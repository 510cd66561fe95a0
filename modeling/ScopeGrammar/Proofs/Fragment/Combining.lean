import ScopeGrammar.Proofs.Fragment.Structure
import ScopeGrammar.Proofs.Regex.Flat

set_option autoImplicit false

namespace ScopeGrammar

open Regex

theorem Regex.Bracket.flat_node (bracket : Bracket) {a b : Node} (same : a.flat = b.flat) :
    (bracket.node a).flat = (bracket.node b).flat := by
  cases bracket <;> simp only [Bracket.node, Node.flat, same]

namespace Fragment

/-- The source is read as the tree, up to groups that capture nothing. -/
def ReadsAs (f : Fragment) (tree : Node) : Prop :=
  ∃ xs level, Reads f.source xs level ∧ level.node.flat = tree.flat

def ReadsAlong (f : Fragment) (tree : Node) : Prop :=
  ∃ xs level, Reads f.source xs level ∧ openBar 0 xs = false ∧ level.node.flat = tree.flat

def ReadsWhole (f : Fragment) (tree : Node) : Prop :=
  ∃ xs node, Reads f.source xs ⟨[], [], some node⟩ ∧ node.flat = tree.flat

variable {f : Fragment} {tree : Node}

theorem ReadsAlong.readsAs (reads : f.ReadsAlong tree) : f.ReadsAs tree := by
  obtain ⟨xs, level, reads, -, same⟩ := reads
  exact ⟨xs, level, reads, same⟩

theorem ReadsWhole.readsAs (reads : f.ReadsWhole tree) : f.ReadsAs tree := by
  obtain ⟨xs, node, reads, same⟩ := reads
  exact ⟨xs, _, reads, by rw [Level.node_last, same]⟩

theorem reads_bracketed {cs : List Char} {xs : List Lexeme} {level : Level} (reads : Reads cs xs level)
    (bracket : Bracket) (text : List Char)
    (opens : bracket? (text ++ (cs ++ [')'])) = some (bracket, cs ++ [')'])) :
    ∃ ys, Reads ('(' :: text ++ (cs ++ [')'])) ys ⟨[], [], some (bracket.node level.node)⟩ ∧
      openBar 0 ys = false :=
  ⟨_, reads.bracketed bracket text opens,
    (openBar_concat (by simp) 1 xs).trans (openBar_inner reads.fed)⟩

theorem ReadsAs.bracketed (reads : f.ReadsAs tree) (bracket : Bracket) (text : List Char)
    (opens : bracket? (text ++ (f.source ++ [')'])) = some (bracket, f.source ++ [')'])) :
    ReadsWhole ⟨'(' :: text ++ (f.source ++ [')'])⟩ (bracket.node tree) := by
  obtain ⟨xs, level, reads, same⟩ := reads
  obtain ⟨ys, reads, -⟩ := reads_bracketed reads bracket text opens
  exact ⟨ys, _, reads, bracket.flat_node same⟩

theorem ReadsAs.grouped (reads : f.ReadsAs tree) : f.grouped.ReadsWhole tree := by
  unfold Fragment.grouped
  split
  · rename_i atomic
    obtain ⟨xs, level, reads, same⟩ := reads
    obtain ⟨node, rfl⟩ := isAtomic_reads atomic reads
    exact ⟨xs, node, reads, by rw [← Level.node_last node, same]⟩
  · exact reads.bracketed (.plain .plain) ['?', ':'] rfl

theorem ReadsAs.sealed (reads : f.ReadsAs tree) : f.sealed.ReadsAlong tree := by
  obtain ⟨xs, level, reads, same⟩ := reads
  unfold Fragment.sealed
  split
  · obtain ⟨ys, reads, noBar⟩ := reads_bracketed reads (.plain .plain) ['?', ':'] rfl
    exact ⟨ys, _, reads, noBar, by rw [Level.node_last]; exact same⟩
  · rename_i noChoice
    rw [hasOpenChoice_marks reads.lexes] at noChoice
    exact ⟨xs, level, reads, by simpa using noChoice, same⟩

theorem ReadsAs.enclosed (reads : f.ReadsAs tree) :
    ReadsAs ⟨'(' :: f.source ++ [')']⟩ (.group tree) := by
  have calm : (f.source ++ [')']).head? ≠ some '?' := by
    obtain ⟨xs, level, reads, -⟩ := reads
    cases source : f.source with
    | nil => decide
    | cons c rest =>
      rintro ⟨⟩
      exact absurd (reads.calm '?' (by decide) (by rw [source]; rfl)) (by simp)
  exact (reads.bracketed .capture [] (bracket?_of_calm calm)).readsAs

theorem ReadsAs.capture (reads : f.ReadsAs tree) : f.capture.ReadsAs (.group tree) := by
  obtain ⟨source⟩ := f
  unfold Fragment.capture
  split
  · rename_i body is
    obtain rfl : source = '(' :: '?' :: ':' :: body := is
    split
    · rename_i atomic
      obtain ⟨xs, level, reads, same⟩ := reads
      have closes : closingIndex (marks ('(' :: '?' :: ':' :: body)) =
          some ('?' :: ':' :: body).length := by
        rcases isAtomic_cases atomic with ⟨c, one, -⟩ | ⟨c, two⟩ | ⟨c, rest, -, same, closes⟩
        · cases one
        · cases two
        · cases same
          exact closes
      obtain ⟨bracket, inside, ys, m, opens, alone, rfl⟩ := reads_of_closing closes reads
      obtain ⟨rfl, rfl⟩ : .plain .plain = bracket ∧ body = inside ++ [')'] := by
        simpa [bracket?] using opens
      have whole : ReadsAs ⟨inside⟩ tree := ⟨ys, m, alone, by rw [← same, Level.node_last]; rfl⟩
      exact whole.enclosed
    · exact reads.enclosed
  · exact reads.enclosed

theorem ReadsAlong.append {g : Fragment} {trees : List Node} (first : f.ReadsAlong tree)
    (second : g.ReadsAlong (Node.sequence trees)) :
    ReadsAlong ⟨f.source ++ g.source⟩ (Node.sequence (tree :: trees)) := by
  obtain ⟨xs, l, reads, noBar, same⟩ := first
  obtain ⟨ys, m, reads', noBar', same'⟩ := second
  obtain ⟨level, whole, settled⟩ := reads.append reads' noBar'
  have finished : l.finished = [] := feedAll_outermost reads.fed noBar
  have finished' : m.finished = [] := feedAll_outermost reads'.fed noBar'
  have node : level.node = Node.sequence (l.settle.pieces.reverse ++ m.settle.pieces.reverse) := by
    rw [← Level.node_settle, settled, Level.node_settle, Level.node_join finished finished']
  have strands : level.node.flat.strand = l.node.flat.strand ++ m.node.flat.strand := by
    rw [node, Node.strand_flat_sequence, List.flatMap_append, ← Node.strand_flat_sequence,
      ← Node.strand_flat_sequence, ← Level.node_of_finished finished, ← Level.node_of_finished finished']
  refine ⟨xs ++ ys, level, whole, ?_, Node.flat_eq_of_strand ?_⟩
  · exact (openBar_append reads.fed ys).trans (by rw [Bool.or_eq_false_iff]; exact ⟨noBar, noBar'⟩)
  · rw [strands, same, same', Node.strand_flat_sequence, Node.strand_flat_sequence, List.flatMap_cons]

section Lists

variable {α : Type} {es : List α} {fragment : α → Fragment} {tree : α → Node}

theorem readsAlong_sequence (each : ∀ e ∈ es, (fragment e).ReadsAs (tree e)) :
    (sequence (es.map fragment)).ReadsAlong (Node.sequence (es.map tree)) := by
  induction es with
  | nil => exact ⟨[], .start, .nil, rfl, rfl⟩
  | cons e es ih =>
    obtain ⟨first, later⟩ := List.forall_mem_cons.1 each
    exact first.sealed.append (ih later)

theorem reads_choice {e : α} (each : ∀ e' ∈ e :: es, (fragment e').ReadsAs (tree e')) :
    ∃ xs level, Reads (List.intercalate ['|'] (((e :: es).map fragment).map source)) xs level ∧
      es.length < level.branches.length ∧
      (level.branches.flatMap fun node => node.flat.options) =
        ((e :: es).map tree).flatMap fun node => node.flat.options := by
  induction es generalizing e with
  | nil =>
    obtain ⟨xs, level, reads, same⟩ := each e (List.mem_singleton.2 rfl)
    refine ⟨xs, level, by simpa using reads, by simp [Level.branches], ?_⟩
    rw [← Node.options_flat_alternatives, ← Level.node_of_branches, same]
    simp
  | cons e' es ih =>
    obtain ⟨first, later⟩ := List.forall_mem_cons.1 each
    obtain ⟨xs, l, reads, same⟩ := first
    obtain ⟨ys, m, reads', several, options⟩ := ih later
    refine ⟨xs ++ .bar :: ys, l.bar.join m, ?_, ?_, ?_⟩
    · have whole := reads.bar reads'
      simpa [List.intercalate_cons_cons] using whole
    · rw [Level.branches_bar_join, List.length_append]
      have one : l.branches.length = l.finished.length + 1 := by simp [Level.branches]
      simp only [List.length_cons]
      omega
    · rw [Level.branches_bar_join, List.flatMap_append, options, ← Node.options_flat_alternatives,
        ← Level.node_of_branches, same]
      rfl

theorem readsAs_alternative (some : es ≠ []) (each : ∀ e ∈ es, (fragment e).ReadsAs (tree e)) :
    (alternative (es.map fragment)).ReadsAs (Node.alternatives (es.map tree)) := by
  match es, some with
  | [e], _ => exact ((each e (List.mem_singleton.2 rfl)).sealed).readsAs
  | e :: e' :: es, _ =>
    obtain ⟨xs, level, reads, several, options⟩ := reads_choice each
    have choice : ReadsAs ⟨List.intercalate ['|'] (((e :: e' :: es).map fragment).map source)⟩
        (Node.alternatives ((e :: e' :: es).map tree)) := by
      refine ⟨xs, level, reads, ?_⟩
      have two : 1 < level.branches.length := Nat.lt_of_le_of_lt (by simp) several
      rw [Level.node_of_branches, Node.flat_alternatives two, options, Node.flat_alternatives (by simp)]
    exact (choice.bracketed (.plain .plain) ['?', ':'] rfl).readsAs

end Lists

theorem ReadsAs.quantified (reads : f.ReadsAs tree) (repeats : tree.flat.repeatable = true)
    {least : Nat} {most : Option Nat} (ordered : most.any (· < least) = false) {c : Char}
    (is : lexeme? false c [] = some (.quantifier least most true false, [])) :
    ReadsAs ⟨f.grouped.source ++ [c]⟩ (.many least most true tree) := by
  obtain ⟨xs, node, reads, same⟩ := reads.grouped
  have quantified := reads.quantified (Node.repeatable_of_flat (same ▸ repeats)) ordered is
  exact ⟨_, _, quantified, congrArg (Node.many least most true) same⟩

end Fragment

end ScopeGrammar
