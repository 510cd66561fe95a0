import ScopeGrammar.Regex.Matching

/-!
The ways through a tree as a list. The matcher follows each way by a continuation; here the ways
from a position are listed in the order the matcher tries them, and the matcher is shown to take the
first one that its continuation accepts.
-/

set_option autoImplicit false

namespace ScopeGrammar.Regex

namespace Cursor

/-- The cursor before the character of the text with the given index. -/
def place (text : List Char) (p : Nat) : Cursor := ⟨(text.take p).reverse, text.drop p, p⟩

theorem start_eq_place (text : List Char) : start text = place text 0 := by simp [start, place]

theorem text_place (text : List Char) (p : Nat) : (place text p).text = text := by
  simp [Cursor.text, place]

theorem next?_place (text : List Char) (p : Nat) :
    (place text p).next? = (text[p]?).map fun x => (x, place text (p + 1)) := by
  by_cases inside : p < text.length
  · have rest : text.drop p = text[p] :: text.drop (p + 1) := List.drop_eq_getElem_cons inside
    have front : text.take (p + 1) = text.take p ++ [text[p]] := by
      rw [List.take_add_one, List.getElem?_eq_getElem inside]
      rfl
    simp only [next?, place, rest, front, List.getElem?_eq_getElem inside, Option.map_some,
      List.reverse_append, List.reverse_cons, List.reverse_nil, List.nil_append, List.singleton_append]
  · have rest : text.drop p = [] := List.drop_eq_nil_of_le (by omega)
    simp [next?, place, rest, List.getElem?_eq_none (by omega : text.length ≤ p)]

theorem next?_place_of_lt {text : List Char} {p : Nat} (inside : p < text.length) :
    (place text p).next? = some (text[p], place text (p + 1)) := by
  rw [next?_place, List.getElem?_eq_getElem inside, Option.map_some]

theorem back?_place (text : List Char) (n p : Nat) (inside : p ≤ text.length) :
    (place text p).back? n = if n ≤ p then some (place text (p - n)) else none := by
  induction n generalizing p with
  | zero => simp [back?]
  | succ n ih =>
    cases p with
    | zero => simp [back?, place]
    | succ p =>
      have front : text.take (p + 1) = text.take p ++ [text[p]] := by
        rw [List.take_add_one, List.getElem?_eq_getElem inside]
        rfl
      have rest : text.drop p = text[p] :: text.drop (p + 1) := List.drop_eq_getElem_cons inside
      have step : (place text (p + 1)).back? (n + 1) = (place text p).back? n := by
        simp only [back?, place, front, rest, List.reverse_append, List.reverse_cons,
          List.reverse_nil, List.nil_append, List.singleton_append, Nat.add_sub_cancel]
      rw [step, ih p (by omega)]
      simp [Nat.add_sub_add_right]

theorem forward_place (text : List Char) (n p : Nat) (inside : p + n ≤ text.length) :
    (place text p).forward n = place text (p + n) := by
  induction n generalizing p with
  | zero => rfl
  | succ n ih =>
    have here : p < text.length := by omega
    simp only [forward, next?_place_of_lt here]
    rw [ih (p + 1) (by omega)]
    congr 1
    omega

theorem over?_place (text w : List Char) (p : Nat) :
    (place text p).over? w =
      if w.isPrefixOf (text.drop p) then some (place text (p + w.length)) else none := by
  induction w generalizing p with
  | nil => simp [over?]
  | cons x w ih =>
    by_cases inside : p < text.length
    · have rest : text.drop p = text[p] :: text.drop (p + 1) := List.drop_eq_getElem_cons inside
      simp only [over?, next?_place_of_lt inside, ih, rest, List.isPrefixOf, List.length_cons,
        Bool.and_eq_true, beq_iff_eq]
      by_cases same : x = text[p] <;> simp [same, Nat.add_comm, Nat.add_left_comm]
    · have rest : text.drop p = [] := List.drop_eq_nil_of_le (by omega)
      simp [over?, next?_place, List.getElem?_eq_none (by omega : text.length ≤ p), rest]

end Cursor

/-- A way to a position, with what the groups matched on it. -/
abbrev Way := Nat × Saved

def inOrder (first : Bool) (a b : List Way) : List Way := if first then a ++ b else b ++ a

def exactlyWays (round : Nat → Saved → List Way) : Nat → Nat → Saved → List Way
  | 0, p, s => [(p, s)]
  | n + 1, p, s => (round p s).flatMap fun w => exactlyWays round n w.1 w.2

def upToWays (greedy : Bool) (round : Nat → Saved → List Way) : Nat → Nat → Saved → List Way
  | 0, p, s => [(p, s)]
  | n + 1, p, s =>
    inOrder greedy ((round p s).flatMap fun w => upToWays greedy round n w.1 w.2) [(p, s)]

def anyWays (greedy : Bool) (round : Nat → Saved → List Way) : Nat → Nat → Saved → List Way
  | 0, p, s => [(p, s)]
  | room + 1, p, s =>
    inOrder greedy
      ((round p s).flatMap fun w => if w.1 = p then [] else anyWays greedy round room w.1 w.2)
      [(p, s)]

/-- The ways through a tree from a position of a text. -/
def Node.ways (text : List Char) : Node → (opened : Nat) → Nat → Saved → List Way
  | .empty, _, p, s => [(p, s)]
  | .never, _, _, _ => []
  | .set chars, _, p, s => if (text[p]?).any chars.mem then [(p + 1, s)] else []
  | .anchor a, _, p, s => if a.holds (.place text p) then [(p, s)] else []
  | .seq a b, opened, p, s =>
    (a.ways text opened p s).flatMap fun w => b.ways text (opened + a.groups) w.1 w.2
  | .alt a b, opened, p, s => a.ways text opened p s ++ b.ways text (opened + a.groups) p s
  | .group a, opened, p, s =>
    (a.ways text (opened + 1) p s).map fun w => (w.1, (opened + 1, ⟨p, w.1⟩) :: w.2)
  | .many least most greedy a, opened, p, s =>
    (exactlyWays (a.ways text opened) least p s).flatMap fun w =>
      match most with
      | some most => upToWays greedy (a.ways text opened) (most - least) w.1 w.2
      | none => anyWays greedy (a.ways text opened) (text.length - w.1) w.1 w.2
  | .ahead a, opened, p, s => ((a.ways text opened p s).take 1).map fun w => (p, w.2)
  | .notAhead a, opened, p, s => if (a.ways text opened p s).isEmpty then [(p, s)] else []
  | .behind a, opened, p, s =>
    match a.width with
    | some n =>
      if n ≤ p then ((a.ways text opened (p - n) s).take 1).map fun w => (p, w.2) else []
    | none => []
  | .notBehind a, opened, p, s =>
    match a.width with
    | some n => if n ≤ p && !(a.ways text opened (p - n) s).isEmpty then [] else [(p, s)]
    | none => [(p, s)]
  | .atomic a, opened, p, s => (a.ways text opened p s).take 1
  | .back n, _, p, s =>
    match s.lookup n with
    | some span =>
      let w := (text.drop span.start).take (span.stop - span.start)
      if w.isPrefixOf (text.drop p) then [(p + w.length, s)] else []
    | none => []

theorem mem_inOrder {first : Bool} {a b : List Way} {w : Way} :
    w ∈ inOrder first a b ↔ w ∈ a ∨ w ∈ b := by
  cases first <;> simp [inOrder, or_comm]

namespace Node

variable {text : List Char} {opened p : Nat} {s : Saved} {w : Way} {a : Node}

theorem mem_ways_set {chars : CharSet} :
    w ∈ (set chars).ways text opened p s ↔
      ∃ c, text[p]? = some c ∧ chars.mem c = true ∧ w = (p + 1, s) := by
  rw [ways]
  cases text[p]? <;> simp

theorem mem_ways_anchor {edge : Anchor} :
    w ∈ (anchor edge).ways text opened p s ↔ edge.holds (.place text p) = true ∧ w = (p, s) := by
  simp [ways]

theorem mem_ways_notAhead :
    w ∈ (notAhead a).ways text opened p s ↔ a.ways text opened p s = [] ∧ w = (p, s) := by
  simp [ways]

theorem mem_ways_behind :
    w ∈ (behind a).ways text opened p s ↔
      ∃ n, a.width = some n ∧ n ≤ p ∧ ∃ v ∈ (a.ways text opened (p - n) s).take 1, (p, v.2) = w := by
  rw [ways]
  cases a.width with
  | none => simp
  | some n =>
    by_cases room : n ≤ p
    · simp only [room, if_true, List.mem_map, Option.some.injEq, exists_eq_left', true_and]
    · simp [room]

theorem mem_ways_notBehind :
    w ∈ (notBehind a).ways text opened p s ↔
      (∀ n, a.width = some n → n ≤ p → a.ways text opened (p - n) s = []) ∧ w = (p, s) := by
  rw [ways]
  cases a.width with
  | none => simp
  | some n => by_cases room : n ≤ p <;> simp [room]

theorem mem_ways_back {group : Nat} :
    w ∈ (back group).ways text opened p s ↔
      ∃ span front, s.lookup group = some span ∧
        (text.drop span.start).take (span.stop - span.start) = front ∧ front <+: text.drop p ∧
        w = (p + front.length, s) := by
  rw [ways]
  cases s.lookup group <;> simp

end Node

/-- A relation between positions of a text that any number of rounds keeps if one does. -/
structure Linked (text : List Char) (R : Nat → Nat → Prop) : Prop where
  inside {p q : Nat} : R p q → q ≤ text.length
  refl {p : Nat} : p ≤ text.length → R p p
  trans {p q q' : Nat} : R p q → R q q' → R p q'

def Leads (text : List Char) (R : Nat → Nat → Prop) (round : Nat → Saved → List Way) : Prop :=
  ∀ p s, p ≤ text.length → ∀ w ∈ round p s, R p w.1

section Rounds

variable {text : List Char} {R : Nat → Nat → Prop} {round : Nat → Saved → List Way}

theorem exactlyWays_leads (linked : Linked text R) (leads : Leads text R round) (n : Nat) :
    Leads text R (exactlyWays round n) := by
  induction n with
  | zero =>
    intro p s inside w member
    rw [exactlyWays, List.mem_singleton] at member
    exact member ▸ linked.refl inside
  | succ n ih =>
    intro p s inside w member
    obtain ⟨v, first, rest⟩ := List.mem_flatMap.1 member
    have hv := leads p s inside v first
    exact linked.trans hv (ih v.1 v.2 (linked.inside hv) w rest)

theorem upToWays_leads (linked : Linked text R) (leads : Leads text R round) (greedy : Bool)
    (n : Nat) : Leads text R (upToWays greedy round n) := by
  induction n with
  | zero =>
    intro p s inside w member
    rw [upToWays, List.mem_singleton] at member
    exact member ▸ linked.refl inside
  | succ n ih =>
    intro p s inside w member
    rcases mem_inOrder.1 member with more | none
    · obtain ⟨v, first, rest⟩ := List.mem_flatMap.1 more
      have hv := leads p s inside v first
      exact linked.trans hv (ih v.1 v.2 (linked.inside hv) w rest)
    · rw [List.mem_singleton] at none
      exact none ▸ linked.refl inside

theorem anyWays_leads (linked : Linked text R) (leads : Leads text R round) (greedy : Bool)
    (room : Nat) : Leads text R (anyWays greedy round room) := by
  induction room with
  | zero =>
    intro p s inside w member
    rw [anyWays, List.mem_singleton] at member
    exact member ▸ linked.refl inside
  | succ room ih =>
    intro p s inside w member
    rcases mem_inOrder.1 member with more | none
    · obtain ⟨v, first, rest⟩ := List.mem_flatMap.1 more
      have hv := leads p s inside v first
      split at rest
      · simp at rest
      · exact linked.trans hv (ih v.1 v.2 (linked.inside hv) w rest)
    · rw [List.mem_singleton] at none
      exact none ▸ linked.refl inside

end Rounds

theorem manyWays_leads {text : List Char} {R : Nat → Nat → Prop} (linked : Linked text R)
    {a : Node} {opened : Nat} (leads : Leads text R (a.ways text opened)) {least : Nat}
    {most : Option Nat} {greedy : Bool} :
    Leads text R ((Node.many least most greedy a).ways text opened) := by
  intro p s inside w member
  obtain ⟨v, first, rest⟩ := List.mem_flatMap.1 member
  have hv := exactlyWays_leads linked leads least p s inside v first
  refine linked.trans hv ?_
  split at rest
  · exact upToWays_leads linked leads greedy _ v.1 v.2 (linked.inside hv) w rest
  · exact anyWays_leads linked leads greedy _ v.1 v.2 (linked.inside hv) w rest

abbrev Forward (text : List Char) : (Nat → Saved → List Way) → Prop :=
  Leads text fun p q => p ≤ q ∧ q ≤ text.length

theorem forward_linked (text : List Char) :
    Linked text fun p q => p ≤ q ∧ q ≤ text.length where
  inside h := h.2
  refl h := ⟨Nat.le_refl _, h⟩
  trans h h' := ⟨Nat.le_trans h.1 h'.1, h'.2⟩

theorem exactlyWays_forward {text : List Char} {round : Nat → Saved → List Way}
    (forward : Forward text round) (n : Nat) : Forward text (exactlyWays round n) :=
  exactlyWays_leads (forward_linked text) forward n

theorem Node.ways_of_not_repeatable {node : Node} (still : node.repeatable = false)
    {text : List Char} {opened p : Nat} {s : Saved} {w : Way}
    (member : w ∈ node.ways text opened p s) : w.1 = p := by
  cases node with
  | empty =>
    rw [ways, List.mem_singleton] at member
    exact congrArg Prod.fst member
  | anchor edge => exact congrArg Prod.fst (mem_ways_anchor.1 member).2
  | ahead a =>
    obtain ⟨v, -, rfl⟩ := List.mem_map.1 member
    rfl
  | notAhead a => exact congrArg Prod.fst (mem_ways_notAhead.1 member).2
  | behind a =>
    obtain ⟨n, -, -, v, -, rfl⟩ := mem_ways_behind.1 member
    rfl
  | notBehind a => exact congrArg Prod.fst (mem_ways_notBehind.1 member).2
  | never | set | seq | alt | group | many | atomic | back => simp [repeatable] at still

theorem Node.ways_forward (text : List Char) (node : Node) (opened : Nat) :
    Forward text (node.ways text opened) := by
  induction node generalizing opened with
  | never => simp [Leads, ways]
  | set chars =>
    intro p s inside w member
    obtain ⟨c, here, -, rfl⟩ := mem_ways_set.1 member
    exact ⟨Nat.le_succ p, (List.getElem?_eq_some_iff.1 here).1⟩
  | seq a b iha ihb =>
    intro p s inside w member
    obtain ⟨v, first, rest⟩ := List.mem_flatMap.1 member
    have hv := iha opened p s inside v first
    have hw := ihb _ v.1 v.2 hv.2 w rest
    exact ⟨Nat.le_trans hv.1 hw.1, hw.2⟩
  | alt a b iha ihb =>
    intro p s inside w member
    rcases List.mem_append.1 member with first | second
    · exact iha opened p s inside w first
    · exact ihb _ p s inside w second
  | group a ih =>
    intro p s inside w member
    obtain ⟨v, first, rfl⟩ := List.mem_map.1 member
    exact ih _ p s inside v first
  | many least most greedy a ih => exact manyWays_leads (forward_linked text) (ih opened)
  | atomic a ih =>
    intro p s inside w member
    exact ih opened p s inside w (List.mem_of_mem_take member)
  | back group =>
    intro p s inside w member
    obtain ⟨span, front, -, -, starts, rfl⟩ := mem_ways_back.1 member
    have fits := starts.length_le
    rw [List.length_drop] at fits
    exact ⟨Nat.le_add_right p _, by simp only; omega⟩
  | empty | anchor | ahead | notAhead | behind | notBehind =>
    intro p s inside w member
    have same : w.1 = p := ways_of_not_repeatable (by rfl) member
    exact same ▸ ⟨Nat.le_refl _, same ▸ inside⟩

theorem findSome?_flatMap {α β γ : Type} (l : List α) (f : α → List β) (k : β → Option γ) :
    (l.flatMap f).findSome? k = l.findSome? fun x => (f x).findSome? k := by
  induction l with
  | nil => rfl
  | cons x l ih =>
    rw [List.flatMap_cons, List.findSome?_append, ih, List.findSome?_cons]
    cases (f x).findSome? k <;> rfl

theorem findSome?_congr {α β : Type} {l : List α} {f g : α → Option β}
    (same : ∀ x ∈ l, f x = g x) : l.findSome? f = l.findSome? g := by
  induction l with
  | nil => rfl
  | cons x l ih =>
    rw [List.findSome?_cons, List.findSome?_cons, same x (by simp),
      ih fun y member => same y (by simp [member])]

theorem findSome?_some {α β : Type} (l : List α) (f : α → β) :
    (l.findSome? fun x => some (f x)) = l.head?.map f := by
  cases l <;> rfl

/-- The rounds of the matcher go through the listed ways. -/
def Follows (text : List Char) (round : Continuation → Continuation)
    (ways : Nat → Saved → List Way) : Prop :=
  ∀ k p s, p ≤ text.length →
    round k (.place text p) s = (ways p s).findSome? fun w => k (.place text w.1) w.2

section Rounds

variable {text : List Char} {round : Continuation → Continuation} {ways : Nat → Saved → List Way}

theorem prefer_eq (first : Bool) (a b : List Way) (k : Way → Option (Cursor × Saved)) :
    prefer first (fun _ => a.findSome? k) (fun _ => b.findSome? k) =
      (inOrder first a b).findSome? k := by
  cases first <;> simp [prefer, inOrder]

theorem exactly_follows (follows : Follows text round ways) (forward : Forward text ways)
    (n : Nat) : Follows text (exactly round n) (exactlyWays ways n) := by
  induction n with
  | zero => simp [Follows, exactly, exactlyWays]
  | succ n ih =>
    intro k p s inside
    rw [exactly, follows _ p s inside, exactlyWays, findSome?_flatMap]
    refine findSome?_congr fun w member => ?_
    exact ih k w.1 w.2 (forward p s inside w member).2

theorem upTo_follows (follows : Follows text round ways) (forward : Forward text ways)
    (greedy : Bool) (n : Nat) :
    Follows text (upTo greedy round n) (upToWays greedy ways n) := by
  induction n with
  | zero => simp [Follows, upTo, upToWays]
  | succ n ih =>
    intro k p s inside
    have more : round (upTo greedy round n k) (.place text p) s =
        ((ways p s).flatMap fun w => upToWays greedy ways n w.1 w.2).findSome?
          fun w => k (.place text w.1) w.2 := by
      rw [follows _ p s inside, findSome?_flatMap]
      exact findSome?_congr fun w member => ih k w.1 w.2 (forward p s inside w member).2
    simp only [upTo, upToWays]
    rw [more, ← prefer_eq]
    simp

theorem anyNumber_follows (follows : Follows text round ways) (forward : Forward text ways)
    (greedy : Bool) (room : Nat) :
    Follows text (anyNumber greedy round room) (anyWays greedy ways room) := by
  induction room with
  | zero => simp [Follows, anyNumber, anyWays]
  | succ room ih =>
    intro k p s inside
    have more : round
          (fun d t => if d.index = p then none else anyNumber greedy round room k d t)
          (.place text p) s =
        ((ways p s).flatMap fun w =>
          if w.1 = p then [] else anyWays greedy ways room w.1 w.2).findSome?
          fun w => k (.place text w.1) w.2 := by
      rw [follows _ p s inside, findSome?_flatMap]
      refine findSome?_congr fun w member => ?_
      by_cases idle : w.1 = p
      · simp [idle, Cursor.place]
      · rw [if_neg idle]
        exact (if_neg idle).trans (ih k w.1 w.2 (forward p s inside w member).2)
    rw [anyWays, ← prefer_eq, ← more, List.findSome?_singleton]
    rfl

end Rounds

/-- The matcher takes the first of the ways that its continuation accepts. -/
theorem Node.run_follows (text : List Char) (node : Node) (opened : Nat) :
    Follows text (node.run opened) (node.ways text opened) := by
  induction node generalizing opened with
  | empty => simp [Follows, run, ways]
  | never => simp [Follows, run, ways]
  | set chars =>
    intro k p s inside
    rw [run, ways, Cursor.next?_place]
    cases text[p]? with
    | none => rfl
    | some x => by_cases member : chars.mem x <;> simp [member]
  | anchor a =>
    intro k p s inside
    rw [run, ways]
    split <;> simp
  | seq a b iha ihb =>
    intro k p s inside
    rw [run, iha opened _ p s inside, ways, findSome?_flatMap]
    refine findSome?_congr fun w member => ?_
    exact ihb _ k w.1 w.2 (a.ways_forward text opened p s inside w member).2
  | alt a b iha ihb =>
    intro k p s inside
    rw [run, iha opened _ p s inside, ihb _ _ p s inside, prefer_eq, ways]
    rfl
  | group a ih =>
    intro k p s inside
    rw [run, ih _ _ p s inside, ways, List.findSome?_map]
    rfl
  | many least most greedy a ih =>
    intro k p s inside
    have forward := a.ways_forward text opened
    rw [ways, findSome?_flatMap]
    cases most with
    | some most =>
      simp only [run]
      rw [exactly_follows (ih opened) forward least _ p s inside]
      refine findSome?_congr fun w member => ?_
      have room := (exactlyWays_forward forward least p s inside w member).2
      exact upTo_follows (ih opened) forward greedy _ k w.1 w.2 room
    | none =>
      simp only [run]
      rw [exactly_follows (ih opened) forward least _ p s inside]
      refine findSome?_congr fun w member => ?_
      have room := (exactlyWays_forward forward least p s inside w member).2
      simp only [Cursor.place, List.length_drop]
      exact anyNumber_follows (ih opened) forward greedy _ k w.1 w.2 room
  | ahead a ih =>
    intro k p s inside
    rw [run, ih opened _ p s inside, findSome?_some, ways]
    cases a.ways text opened p s <;> simp
  | notAhead a ih =>
    intro k p s inside
    rw [run, ih opened _ p s inside, findSome?_some, ways]
    cases a.ways text opened p s <;> simp
  | behind a ih =>
    intro k p s inside
    rw [run, ways]
    cases a.width with
    | none => rfl
    | some n =>
      simp only [Option.bind_some, Cursor.back?_place text n p inside]
      by_cases room : n ≤ p
      · simp only [room, if_true, Option.bind_some, ih opened _ (p - n) s (by omega),
          findSome?_some]
        cases a.ways text opened (p - n) s <;> simp
      · simp [room]
  | notBehind a ih =>
    intro k p s inside
    rw [run, ways]
    cases a.width with
    | none => simp
    | some n =>
      simp only [Option.bind_some, Cursor.back?_place text n p inside]
      by_cases room : n ≤ p
      · simp only [room, if_true, Option.bind_some, ih opened _ (p - n) s (by omega),
          findSome?_some]
        cases a.ways text opened (p - n) s <;> simp
      · simp [room]
  | atomic a ih =>
    intro k p s inside
    rw [run, ih opened _ p s inside, findSome?_some, ways]
    cases a.ways text opened p s <;> simp
  | back n =>
    intro k p s inside
    rw [run, ways]
    cases s.lookup n with
    | none => rfl
    | some span =>
      simp only [Cursor.slice, Cursor.text_place, Cursor.over?_place]
      split <;> simp_all

theorem Node.matchAt_place (node : Node) (text : List Char) (p : Nat) (inside : p ≤ text.length) :
    node.matchAt (.place text p) =
      (node.ways text 0 p []).head?.map fun w =>
        ⟨⟨p, w.1⟩, (List.range node.groups).map fun i => w.2.lookup (i + 1)⟩ := by
  rw [matchAt, node.run_follows text 0 _ p [] inside, findSome?_some]
  cases node.ways text 0 p [] <;> rfl

end ScopeGrammar.Regex
