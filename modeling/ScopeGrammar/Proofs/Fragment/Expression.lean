import ScopeGrammar.Proofs.Fragment.Combining
import ScopeGrammar.Proofs.Fragment.Standalone

/-!
Expressions that put fragments together. The source of an expression is read as the tree that its
combinators make of the trees of its operands: the brackets that they add and leave out change
neither what an operand is read as nor the order of the groups.
-/

set_option autoImplicit false

namespace ScopeGrammar.Fragment

open Regex

inductive Repetition where
  | optional
  | oneOrMore
  | zeroOrMore
  deriving DecidableEq, Repr

namespace Repetition

def fragment : Repetition → Fragment → Fragment
  | .optional => Fragment.optional
  | .oneOrMore => Fragment.oneOrMore
  | .zeroOrMore => Fragment.zeroOrMore

def node : Repetition → Node → Node
  | .optional => .many 0 (some 1) true
  | .oneOrMore => .many 1 none true
  | .zeroOrMore => .many 0 none true

end Repetition

inductive Look where
  | ahead
  | notAhead
  | behind
  | notBehind
  deriving DecidableEq, Repr

namespace Look

def fragment : Look → Fragment → Fragment
  | .ahead => lookAhead
  | .notAhead => negativeLookAhead
  | .behind => lookBehind
  | .notBehind => negativeLookBehind

def node : Look → Node → Node
  | .ahead => .ahead
  | .notAhead => .notAhead
  | .behind => .behind
  | .notBehind => .notBehind

end Look

inductive Expr where
  | leaf (part : Standalone)
  | sequence (parts : List Expr)
  | alternative (options : List Expr)
  | group (e : Expr)
  | capture (e : Expr)
  | repetition (r : Repetition) (e : Expr)
  | look (side : Look) (e : Expr)

namespace Expr

mutual

def fragment : Expr → Fragment
  | .leaf part => ⟨part.source⟩
  | .sequence parts => Fragment.sequence (fragments parts)
  | .alternative options => Fragment.alternative (fragments options)
  | .group e => e.fragment.group
  | .capture e => e.fragment.capture
  | .repetition r e => r.fragment e.fragment
  | .look side e => side.fragment e.fragment

def fragments : List Expr → List Fragment
  | [] => []
  | e :: rest => e.fragment :: fragments rest

end

mutual

/-- The tree that the combinators make of the trees of the leaves. -/
def tree : Expr → Node
  | .leaf part => part.tree
  | .sequence parts => Node.sequence (trees parts)
  | .alternative options => Node.alternatives (trees options)
  | .group e => e.tree
  | .capture e => .group e.tree
  | .repetition r e => r.node e.tree
  | .look side e => side.node e.tree

def trees : List Expr → List Node
  | [] => []
  | e :: rest => e.tree :: trees rest

end

theorem fragments_eq (es : List Expr) : fragments es = es.map fragment := by
  induction es with
  | nil => rfl
  | cons e es ih => rw [fragments, ih, List.map_cons]

theorem trees_eq (es : List Expr) : trees es = es.map tree := by
  induction es with
  | nil => rfl
  | cons e es ih => rw [trees, ih, List.map_cons]

/-- There is something to choose from wherever there is a choice, and something to repeat, other
than nothing or a bare assertion, wherever there is a repetition. -/
inductive Sound : Expr → Prop where
  | leaf (part : Standalone) : Sound (.leaf part)
  | sequence {parts : List Expr} (each : ∀ e ∈ parts, Sound e) : Sound (.sequence parts)
  | alternative {options : List Expr} (nonempty : options ≠ []) (each : ∀ e ∈ options, Sound e) :
    Sound (.alternative options)
  | group {e : Expr} (inner : Sound e) : Sound (.group e)
  | capture {e : Expr} (inner : Sound e) : Sound (.capture e)
  | repetition {e : Expr} (r : Repetition) (repeats : e.tree.flat.repeatable = true) (inner : Sound e) :
    Sound (.repetition r e)
  | look {e : Expr} (side : Look) (inner : Sound e) : Sound (.look side e)

/-- The operand stands in an expression behind so many groups of it. -/
inductive At (operand : Expr) : (offset : Nat) → Expr → Prop where
  | here : At operand 0 operand
  | sequence {offset : Nat} {e : Expr} (before after : List Expr) (inner : At operand offset e) :
    At operand ((before.flatMap fun part => part.tree.captured).length + offset)
      (.sequence (before ++ e :: after))
  | alternative {offset : Nat} {e : Expr} (before after : List Expr) (inner : At operand offset e) :
    At operand ((before.flatMap fun part => part.tree.captured).length + offset)
      (.alternative (before ++ e :: after))
  | group {offset : Nat} {e : Expr} (inner : At operand offset e) : At operand offset (.group e)
  | capture {offset : Nat} {e : Expr} (inner : At operand offset e) :
    At operand (offset + 1) (.capture e)
  | repetition {offset : Nat} {e : Expr} (r : Repetition) (inner : At operand offset e) :
    At operand offset (.repetition r e)
  | look {offset : Nat} {e : Expr} (side : Look) (inner : At operand offset e) :
    At operand offset (.look side e)

theorem Sound.readsAs {e : Expr} (sound : e.Sound) : e.fragment.ReadsAs e.tree := by
  induction sound with
  | leaf part =>
    obtain ⟨xs, lexes⟩ := part.plain
    obtain ⟨level, reads, same⟩ := reads_of_parse lexes part.parses
    exact ⟨xs, level, reads, congrArg Node.flat same⟩
  | sequence each ih =>
    rw [fragment, tree, fragments_eq, trees_eq]
    exact (readsAlong_sequence ih).readsAs
  | alternative nonempty each ih =>
    rw [fragment, tree, fragments_eq, trees_eq]
    exact readsAs_alternative nonempty ih
  | group inner ih => exact ih.grouped.readsAs
  | capture inner ih => exact ih.capture
  | repetition r repeats inner ih => cases r <;> exact ih.quantified repeats rfl rfl
  | look side inner ih =>
    cases side with
    | ahead => exact (ih.bracketed .ahead ['?', '='] rfl).readsAs
    | notAhead => exact (ih.bracketed .notAhead ['?', '!'] rfl).readsAs
    | behind => exact (ih.bracketed .behind ['?', '<', '='] rfl).readsAs
    | notBehind => exact (ih.bracketed .notBehind ['?', '<', '!'] rfl).readsAs

variable {operand e : Expr} {offset : Nat}

theorem At.captured (place : operand.At offset e) :
    ∃ before after, e.tree.captured = before ++ operand.tree.captured ++ after ∧
      before.length = offset := by
  have listed {before after : List Expr} {e : Expr} {captured behind : List Node}
      (inner : e.tree.captured = captured ++ operand.tree.captured ++ behind) :
      ((before ++ e :: after).map tree).flatMap Node.captured =
        ((before.map tree).flatMap Node.captured ++ captured) ++ operand.tree.captured ++
          (behind ++ (after.map tree).flatMap Node.captured) := by
    simp [inner]
  have counted (before : List Expr) : ((before.map tree).flatMap Node.captured).length =
      (before.flatMap fun part => part.tree.captured).length := by
    rw [List.flatMap_map]
  induction place with
  | here => exact ⟨[], [], by simp, rfl⟩
  | sequence before after inner ih =>
    obtain ⟨captured, behind, split, rfl⟩ := ih
    rw [tree, trees_eq, Node.captured_sequence, listed split]
    exact ⟨_, _, rfl, by rw [List.length_append, counted]⟩
  | alternative before after inner ih =>
    obtain ⟨captured, behind, split, rfl⟩ := ih
    rw [tree, trees_eq, Node.captured_alternatives, listed split]
    exact ⟨_, _, rfl, by rw [List.length_append, counted]⟩
  | group inner ih => exact ih
  | @capture offset e inner ih =>
    obtain ⟨captured, behind, split, rfl⟩ := ih
    exact ⟨e.tree :: captured, behind, by rw [tree, Node.captured, split]; rfl, rfl⟩
  | repetition r inner ih => cases r <;> exact ih
  | look side inner ih => cases side <;> exact ih

/-- A group of an operand is a group of the expression, behind those that are opened before it. -/
theorem At.captured_eq (place : operand.At offset e) {tree own : Node} (flat : tree.flat = e.tree.flat)
    (flat' : own.flat = operand.tree.flat) {k : Nat} (group : k < own.groups) :
    (tree.captured[offset + k]?).map Node.flat = (own.captured[k]?).map Node.flat := by
  obtain ⟨before, after, split, rfl⟩ := place.captured
  have inside : k < operand.tree.captured.length := by
    rw [Node.length_captured, ← Node.groups_flat, ← flat', Node.groups_flat]
    exact group
  rw [← List.getElem?_map, ← List.getElem?_map, ← Node.captured_flat, ← Node.captured_flat, flat, flat',
    Node.captured_flat, Node.captured_flat, List.getElem?_map, List.getElem?_map, split,
    List.append_assoc, List.getElem?_append_right (Nat.le_add_right ..), Nat.add_sub_cancel_left,
    List.getElem?_append_left inside]

/-- The source of an expression is read as its tree, unless more groups lie inside one another than
the reader takes. A group of an operand is found behind those that are opened before the operand. -/
theorem parse_fragment (sound : e.Sound) :
    (deepestNesting < e.fragment.depth → Node.parse e.fragment.source = .error .tooDeep) ∧
    (e.fragment.depth ≤ deepestNesting →
      ∃ tree, Node.parse e.fragment.source = .ok tree ∧ tree.flat = e.tree.flat ∧
        (∀ operand, e = .capture operand → tree.groups = operand.tree.groups + 1) ∧
        ∀ (operand : Expr) (offset : Nat) (own : Node),
          operand.At offset e → own.flat = operand.tree.flat →
          ∀ k < own.groups,
            (tree.captured[offset + k]?).map Node.flat = (own.captured[k]?).map Node.flat) := by
  obtain ⟨xs, level, reads, same⟩ := sound.readsAs
  have parse : Node.parse e.fragment.source =
      if e.fragment.depth ≤ deepestNesting then .ok level.node else .error .tooDeep := by
    rw [reads.parse, ← depth_eq reads.lexes]
  refine ⟨fun deep => by rw [parse, if_neg (Nat.not_le_of_gt deep)], fun shallow => ?_⟩
  refine ⟨level.node, by rw [parse, if_pos shallow], same, ?_, ?_⟩
  · rintro operand rfl
    rw [← Node.groups_flat level.node, same, Node.groups_flat]
    rfl
  · exact fun operand offset own place flat k group => place.captured_eq same flat group

/-- The one group of the second operand is the second group of `(ab|c)(d)+`. -/
theorem parse_fragment_choice_run :
    ∃ e : Expr, e.Sound ∧ e.fragment.source = "(ab|c)(d)+".toList ∧
      ∃ tree, Node.parse e.fragment.source = .ok tree ∧ tree.flat = e.tree.flat ∧
        (tree.captured[1]?).map Node.flat = some (.set (.single 'd')) := by
  let choice : Expr := .capture (.alternative [.leaf (.literal ['a', 'b']), .leaf (.literal ['c'])])
  let run : Expr := .capture (.leaf (.literal ['d']))
  have sound : (Expr.sequence [choice, .repetition .oneOrMore run]).Sound := by
    refine .sequence (List.forall_mem_cons.2 ⟨.capture (.alternative (by simp) ?_),
      List.forall_mem_singleton.2 (.repetition _ rfl (.capture (.leaf _)))⟩)
    exact List.forall_mem_cons.2 ⟨.leaf _, List.forall_mem_singleton.2 (.leaf _)⟩
  have place : run.At 1 (.sequence [choice, .repetition .oneOrMore run]) :=
    .sequence [choice] [] (.repetition .oneOrMore .here)
  obtain ⟨tree, parsed, flat, -, groups⟩ := (parse_fragment sound).2 (by decide)
  exact ⟨_, sound, by decide, tree, parsed, flat, groups run 1 run.tree place rfl 0 (by decide)⟩

/-- Not every expression is read: 64 groups inside one another are too many. A class with a range that
ends in an opening bracket is no part of a leaf: it ends later by its marks than it is read to, which
hides the bar behind it. -/
theorem parse_fragment_limits :
    ((Nat.repeat Expr.capture 64 (.leaf (.literal ['a']))).Sound ∧
      Node.parse (Nat.repeat Expr.capture 64 (.leaf (.literal ['a']))).fragment.source =
        .error .tooDeep) ∧
    ∃ first second whole, Node.parse "[+-[[]]]|b".toList = .ok first ∧
      Node.parse "c".toList = .ok second ∧
      Node.parse (Fragment.sequence [.ofString "[+-[[]]]|b", .ofString "c"]).source = .ok whole ∧
      whole.flat ≠ (Node.sequence [first, second]).flat := by
  have nested (depth : Nat) : (Nat.repeat Expr.capture depth (.leaf (.literal ['a']))).Sound := by
    induction depth with
    | zero => exact .leaf _
    | succ depth ih => exact .capture ih
  have deep : Node.parse (Nat.repeat Expr.capture 64 (.leaf (.literal ['a']))).fragment.source =
      .error .tooDeep := by
    obtain ⟨xs, level, reads, -⟩ := (nested 64).readsAs
    have deeper : ¬ deepest 0 xs ≤ deepestNesting := by
      rw [← depth_eq reads.lexes]
      decide +kernel
    rw [reads.parse, if_neg deeper]
  refine ⟨⟨nested 64, deep⟩, ?_⟩
  let range : Node := .set (.union (.range '+' '[') (.single ']'))
  let letter (c : Char) : Node := .set (.single c)
  exact ⟨.branches [range, letter 'b'], letter 'c', .branches [range, .sequence [letter 'b', letter 'c']],
    by rfl, by rfl, by rfl, by decide⟩

end Expr

end ScopeGrammar.Fragment
