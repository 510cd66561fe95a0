import ScopeGrammar.Regex.Node

/-!
Trees in which sequences and choices are spread out: a sequence inside a sequence and a choice inside
a choice are taken apart, and nothing is left out of a sequence. Two trees have one flat form where
they differ in groups that capture nothing.
-/

set_option autoImplicit false

namespace ScopeGrammar.Regex.Node

def strand : Node → List Node
  | .empty => []
  | .seq a b => a.strand ++ b.strand
  | node => [node]

def options : Node → List Node
  | .never => []
  | .alt a b => a.options ++ b.options
  | node => [node]

def flat : Node → Node
  | .seq a b => sequence (a.flat.strand ++ b.flat.strand)
  | .alt a b => branches (a.flat.options ++ b.flat.options)
  | .group a => .group a.flat
  | .many least most greedy a => .many least most greedy a.flat
  | .ahead a => .ahead a.flat
  | .notAhead a => .notAhead a.flat
  | .behind a => .behind a.flat
  | .notBehind a => .notBehind a.flat
  | .atomic a => .atomic a.flat
  | node => node

/-- What the capturing groups capture, in the order of their opening. -/
def captured : Node → List Node
  | .seq a b | .alt a b => a.captured ++ b.captured
  | .group a => a :: a.captured
  | .many _ _ _ a | .ahead a | .notAhead a | .behind a | .notBehind a | .atomic a => a.captured
  | .empty | .never | .set _ | .anchor _ | .back _ => []

theorem length_captured (node : Node) : node.captured.length = node.groups := by
  induction node <;> simp_all [captured, groups]

def IsPart (node : Node) : Prop := node.strand = [node]

theorem isPart_of_mem_strand (node : Node) : ∀ part ∈ node.strand, part.IsPart := by
  induction node with
  | seq a b iha ihb => exact List.forall_mem_append.2 ⟨iha, ihb⟩
  | _ => simp [strand, IsPart]

theorem sequence_cons_cons (a b : Node) (rest : List Node) :
    sequence (a :: b :: rest) = .seq a (sequence (b :: rest)) := rfl

theorem strand_sequence {parts : List Node} (each : ∀ part ∈ parts, part.IsPart) :
    (sequence parts).strand = parts := by
  induction parts with
  | nil => rfl
  | cons part rest ih =>
    obtain ⟨first, later⟩ := List.forall_mem_cons.1 each
    cases rest with
    | nil => exact first
    | cons next rest => rw [sequence_cons_cons, strand, ih later, first, List.singleton_append]

theorem sequence_append_strand (a b : Node) :
    (sequence (a.strand ++ b.strand)).strand = a.strand ++ b.strand :=
  strand_sequence (List.forall_mem_append.2 ⟨isPart_of_mem_strand a, isPart_of_mem_strand b⟩)

theorem sequence_strand_flat (node : Node) : sequence node.flat.strand = node.flat := by
  cases node with
  | seq a b => rw [flat, sequence_append_strand]
  | alt a b =>
    rw [flat]
    cases a.flat.options ++ b.flat.options <;> rfl
  | _ => rfl

theorem flat_eq_of_strand {a b : Node} (same : a.flat.strand = b.flat.strand) : a.flat = b.flat := by
  rw [← sequence_strand_flat a, same, sequence_strand_flat]

theorem isPart_of_mem_flatMap {nodes : List Node} :
    ∀ part ∈ nodes.flatMap fun node => node.flat.strand, part.IsPart := by
  intro part member
  obtain ⟨node, -, inside⟩ := List.mem_flatMap.1 member
  exact isPart_of_mem_strand _ part inside

theorem flat_sequence (nodes : List Node) :
    (sequence nodes).flat = sequence (nodes.flatMap fun node => node.flat.strand) := by
  induction nodes with
  | nil => rfl
  | cons node rest ih =>
    cases rest with
    | nil => simp [sequence, sequence_strand_flat]
    | cons next rest =>
      rw [sequence_cons_cons, flat, ih, strand_sequence isPart_of_mem_flatMap]
      rfl

theorem strand_flat_sequence (nodes : List Node) :
    (sequence nodes).flat.strand = nodes.flatMap fun node => node.flat.strand := by
  rw [flat_sequence, strand_sequence isPart_of_mem_flatMap]

theorem options_branches {nodes : List Node} (each : ∀ node ∈ nodes, node.options = [node]) :
    (branches nodes).options = nodes := by
  induction nodes with
  | nil => rfl
  | cons node rest ih =>
    obtain ⟨first, later⟩ := List.forall_mem_cons.1 each
    rw [branches, options, ih later, first, List.singleton_append]

theorem options_of_mem_options (node : Node) : ∀ option ∈ node.options, option.options = [option] := by
  induction node with
  | alt a b iha ihb => exact List.forall_mem_append.2 ⟨iha, ihb⟩
  | _ => simp [options]

theorem options_of_mem_flatMap {nodes : List Node} :
    ∀ option ∈ nodes.flatMap fun node => node.flat.options, option.options = [option] := by
  intro option member
  obtain ⟨node, -, inside⟩ := List.mem_flatMap.1 member
  exact options_of_mem_options _ option inside

theorem flat_branches (nodes : List Node) :
    (branches nodes).flat = branches (nodes.flatMap fun node => node.flat.options) := by
  induction nodes with
  | nil => rfl
  | cons node rest ih =>
    rw [branches, flat, ih, options_branches options_of_mem_flatMap, List.flatMap_cons]

theorem flat_alternatives {nodes : List Node} (several : 1 < nodes.length) :
    (alternatives nodes).flat = branches (nodes.flatMap fun node => node.flat.options) := by
  match nodes, several with
  | a :: b :: rest, _ => exact flat_branches (a :: b :: rest)

theorem options_flat_alternatives (nodes : List Node) :
    (alternatives nodes).flat.options = nodes.flatMap fun node => node.flat.options := by
  match nodes with
  | [] => rfl
  | [node] => simp [alternatives]
  | a :: b :: rest =>
    rw [flat_alternatives (by simp), options_branches options_of_mem_flatMap]

theorem captured_sequence (nodes : List Node) :
    (sequence nodes).captured = nodes.flatMap captured := by
  induction nodes with
  | nil => rfl
  | cons node rest ih =>
    cases rest with
    | nil => simp [sequence]
    | cons next rest => rw [sequence_cons_cons, captured, ih, ← List.flatMap_cons]

theorem captured_branches (nodes : List Node) :
    (branches nodes).captured = nodes.flatMap captured := by
  induction nodes with
  | nil => rfl
  | cons node rest ih => rw [branches, captured, ih, List.flatMap_cons]

theorem captured_alternatives (nodes : List Node) :
    (alternatives nodes).captured = nodes.flatMap captured := by
  match nodes with
  | [] => rfl
  | [node] => simp [alternatives]
  | a :: b :: rest => exact captured_branches (a :: b :: rest)

theorem flatMap_captured_strand (node : Node) : node.strand.flatMap captured = node.captured := by
  induction node with
  | seq a b iha ihb => rw [strand, List.flatMap_append, iha, ihb, captured]
  | _ => simp [strand, captured]

theorem flatMap_captured_options (node : Node) : node.options.flatMap captured = node.captured := by
  induction node with
  | alt a b iha ihb => rw [options, List.flatMap_append, iha, ihb, captured]
  | _ => simp [options, captured]

theorem captured_flat (node : Node) : node.flat.captured = node.captured.map flat := by
  induction node with
  | seq a b iha ihb =>
    rw [flat, captured_sequence, List.flatMap_append, flatMap_captured_strand,
      flatMap_captured_strand, iha, ihb, captured, List.map_append]
  | alt a b iha ihb =>
    rw [flat, captured_branches, List.flatMap_append, flatMap_captured_options,
      flatMap_captured_options, iha, ihb, captured, List.map_append]
  | _ => simp_all [flat, captured]

theorem groups_flat (node : Node) : node.flat.groups = node.groups := by
  rw [← length_captured, captured_flat, List.length_map, length_captured]

theorem repeatable_of_flat {node : Node} (flat : node.flat.repeatable = true) :
    node.repeatable = true := by
  cases node with
  | empty | anchor | ahead | notAhead | behind | notBehind => simp [Node.flat, repeatable] at flat
  | _ => rfl

end ScopeGrammar.Regex.Node
