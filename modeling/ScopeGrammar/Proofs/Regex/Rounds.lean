import ScopeGrammar.Proofs.Regex.Ways

/-!
What a tree without groups and lookarounds reads, as a form of texts: its ways are exactly those
along the texts of the form that stand at the position. Repetition without a bound reads any number
of texts of the form that its body reads.
-/

set_option autoImplicit false

namespace ScopeGrammar.Regex

inductive Rounds (round : Nat → Saved → List Way) : Nat → Saved → Way → Prop where
  | none {p : Nat} {s : Saved} : Rounds round p s (p, s)
  | next {p : Nat} {s : Saved} {v w : Way} :
    v ∈ round p s → v.1 ≠ p → Rounds round v.1 v.2 w → Rounds round p s w

section

variable {text : List Char} {round : Nat → Saved → List Way} {greedy : Bool} {p : Nat} {s : Saved}
  {w : Way}

theorem rounds_of_mem_anyWays {room : Nat} (member : w ∈ anyWays greedy round room p s) :
    Rounds round p s w := by
  induction room generalizing p s with
  | zero =>
    rw [anyWays, List.mem_singleton] at member
    exact member ▸ .none
  | succ room ih =>
    rcases mem_inOrder.1 member with more | last
    · obtain ⟨v, first, rest⟩ := List.mem_flatMap.1 more
      split at rest
      · simp at rest
      · rename_i moved
        exact .next first moved (ih rest)
    · rw [List.mem_singleton] at last
      exact last ▸ .none

theorem mem_anyWays (forward : Forward text round) (rounds : Rounds round p s w) {room : Nat}
    (inside : p ≤ text.length) (enough : text.length ≤ p + room) :
    w ∈ anyWays greedy round room p s := by
  induction rounds generalizing room with
  | none => cases room <;> simp [anyWays, mem_inOrder]
  | @next p s v w first moved _ ih =>
    obtain ⟨ge, inside'⟩ := forward p s inside v first
    obtain ⟨room, rfl⟩ : ∃ n, room = n + 1 := ⟨room - 1, by omega⟩
    refine mem_inOrder.2 (.inl (List.mem_flatMap.2 ⟨v, first, ?_⟩))
    rw [if_neg moved]
    exact ih inside' (by omega)

theorem Node.mem_ways_star {a : Node} {opened : Nat} (inside : p ≤ text.length) :
    w ∈ (Node.many 0 Option.none greedy a).ways text opened p s ↔
      Rounds (a.ways text opened) p s w := by
  have ways : (Node.many 0 Option.none greedy a).ways text opened p s =
      anyWays greedy (a.ways text opened) (text.length - p) p s := by simp [Node.ways, exactlyWays]
  rw [ways]
  exact ⟨rounds_of_mem_anyWays, fun rounds =>
    mem_anyWays (a.ways_forward text opened) rounds inside (by omega)⟩

end

theorem drop_behind {text front rest : List Char} {p : Nat} (there : text.drop p = front ++ rest) :
    text.drop (p + front.length) = rest := by
  rw [← List.drop_drop, there, List.drop_left]

theorem le_of_drop {text front rest : List Char} {p : Nat} (inside : p ≤ text.length)
    (there : text.drop p = front ++ rest) : p + front.length ≤ text.length := by
  have size := congrArg List.length there
  rw [List.length_drop, List.length_append] at size
  omega

/-- Any number of texts of a form, one behind the other. -/
inductive Repeats (form : List Char → Prop) : List Char → Prop where
  | nil : Repeats form []
  | next {front rest : List Char} : form front → Repeats form rest → Repeats form (front ++ rest)

theorem Repeats.concat {form : List Char → Prop} {front last : List Char} (repeats : Repeats form front)
    (is : form last) : Repeats form (front ++ last) := by
  induction repeats with
  | nil => simpa using Repeats.next is .nil
  | next first _ ih =>
    rw [List.append_assoc]
    exact .next first ih

namespace Node

/-- The ways through a tree are those along the texts of a form, and nothing is saved on them. -/
def Denotes (a : Node) (form : List Char → Prop) : Prop :=
  ∀ text opened p s w, p ≤ text.length →
    (w ∈ a.ways text opened p s ↔
      ∃ front rest, text.drop p = front ++ rest ∧ form front ∧ w = (p + front.length, s))

variable {a b : Node} {form other : List Char → Prop}

theorem Denotes.congr (denotes : a.Denotes form) (same : ∀ cs, form cs ↔ other cs) : a.Denotes other := by
  intro text opened p s w inside
  simp only [denotes text opened p s w inside, same]

theorem denotes_empty : Node.empty.Denotes (· = []) := by
  intro text opened p s w inside
  rw [ways, List.mem_singleton]
  constructor
  · rintro rfl
    exact ⟨[], text.drop p, rfl, rfl, rfl⟩
  · rintro ⟨front, rest, -, rfl, same⟩
    exact same

theorem denotes_never : Node.never.Denotes fun _ => False := by
  intro text opened p s w inside
  simp [ways]

theorem denotes_set (set : CharSet) :
    (Node.set set).Denotes fun cs => ∃ c, cs = [c] ∧ set.mem c = true := by
  intro text opened p s w inside
  rw [mem_ways_set]
  constructor
  · rintro ⟨c, here, is, rfl⟩
    obtain ⟨inside', rfl⟩ := List.getElem?_eq_some_iff.1 here
    exact ⟨[text[p]], text.drop (p + 1), List.drop_eq_getElem_cons inside', ⟨_, rfl, is⟩, rfl⟩
  · rintro ⟨_, rest, there, ⟨c, rfl, is⟩, rfl⟩
    exact ⟨c, by rw [← List.head?_drop, there]; rfl, is, rfl⟩

theorem denotes_single (c : Char) : (Node.set (.single c)).Denotes (· = [c]) := by
  refine (denotes_set _).congr fun cs => ?_
  simp only [CharSet.mem_single, decide_eq_true_eq]
  constructor
  · rintro ⟨d, rfl, rfl⟩
    rfl
  · rintro rfl
    exact ⟨c, rfl, rfl⟩

theorem Denotes.seq (first : a.Denotes form) (second : b.Denotes other) :
    (Node.seq a b).Denotes fun cs => ∃ front back, cs = front ++ back ∧ form front ∧ other back := by
  intro text opened p s w inside
  rw [ways, List.mem_flatMap]
  constructor
  · rintro ⟨v, inFirst, inSecond⟩
    obtain ⟨front, rest, there, is, rfl⟩ := (first text _ p s v inside).1 inFirst
    obtain ⟨back, behind, there', is', rfl⟩ :=
      (second text _ _ _ w (le_of_drop inside there)).1 inSecond
    refine ⟨front ++ back, behind, ?_, ⟨front, back, rfl, is, is'⟩, ?_⟩
    · rw [there, List.append_assoc, ← there', drop_behind there]
    · rw [List.length_append, Nat.add_assoc]
  · rintro ⟨_, behind, there, ⟨front, back, rfl, is, is'⟩, rfl⟩
    rw [List.append_assoc] at there
    refine ⟨_, (first text _ p s _ inside).2 ⟨front, _, there, is, rfl⟩, ?_⟩
    refine (second text _ _ _ _ (le_of_drop inside there)).2 ⟨back, behind, drop_behind there, is', ?_⟩
    rw [List.length_append, Nat.add_assoc]

theorem Denotes.alt (first : a.Denotes form) (second : b.Denotes other) :
    (Node.alt a b).Denotes fun cs => form cs ∨ other cs := by
  intro text opened p s w inside
  rw [ways, List.mem_append, first text _ p s w inside, second text _ p s w inside]
  constructor
  · rintro (⟨front, rest, there, is, same⟩ | ⟨front, rest, there, is, same⟩)
    · exact ⟨front, rest, there, .inl is, same⟩
    · exact ⟨front, rest, there, .inr is, same⟩
  · rintro ⟨front, rest, there, is | is, same⟩
    · exact .inl ⟨front, rest, there, is, same⟩
    · exact .inr ⟨front, rest, there, is, same⟩

theorem Denotes.star (denotes : a.Denotes form) (greedy : Bool) :
    (Node.many 0 none greedy a).Denotes (Repeats form) := by
  intro text opened p s w inside
  rw [mem_ways_star inside]
  constructor
  · intro rounds
    induction rounds with
    | @none p s => exact ⟨[], text.drop p, rfl, .nil, rfl⟩
    | @next p s v w first _ _ ih =>
      obtain ⟨front, rest, there, is, rfl⟩ := (denotes text _ p s v inside).1 first
      obtain ⟨back, behind, there', more, rfl⟩ := ih (le_of_drop inside there)
      refine ⟨front ++ back, behind, ?_, .next is more, ?_⟩
      · rw [there, List.append_assoc, ← there', drop_behind there]
      · rw [List.length_append, Nat.add_assoc]
  · rintro ⟨all, behind, there, repeats, rfl⟩
    induction repeats generalizing p with
    | nil => exact .none
    | @next front rest is _ ih =>
      rw [List.append_assoc] at there
      have later := ih (p := p + front.length) (le_of_drop inside there) (drop_behind there)
      rw [List.length_append, ← Nat.add_assoc]
      rcases Nat.eq_zero_or_pos front.length with none | some
      · rw [none, Nat.add_zero] at later ⊢
        exact later
      · have first := (denotes text opened p s _ inside).2 ⟨front, _, there, is, rfl⟩
        exact .next first (by simp only; omega) later

theorem Denotes.optional (denotes : a.Denotes form) (greedy : Bool) :
    (Node.many 0 (some 1) greedy a).Denotes fun cs => cs = [] ∨ form cs := by
  intro text opened p s w inside
  have ways : w ∈ (Node.many 0 (some 1) greedy a).ways text opened p s ↔
      w ∈ a.ways text opened p s ∨ w = (p, s) := by
    simp [Node.ways, exactlyWays, upToWays, mem_inOrder]
  rw [ways, denotes text opened p s w inside]
  constructor
  · rintro (⟨front, rest, there, is, rfl⟩ | rfl)
    · exact ⟨front, rest, there, .inr is, rfl⟩
    · exact ⟨[], text.drop p, rfl, .inl rfl, rfl⟩
  · rintro ⟨front, rest, there, rfl | is, rfl⟩
    · exact .inr rfl
    · exact .inl ⟨front, rest, there, is, rfl⟩

theorem repeats_set {set : CharSet} {cs : List Char} :
    Repeats (fun cs => ∃ c, cs = [c] ∧ set.mem c = true) cs ↔ ∀ c ∈ cs, set.mem c = true := by
  constructor
  · intro repeats
    induction repeats with
    | nil => simp
    | next is _ ih =>
      obtain ⟨c, rfl, member⟩ := is
      exact List.forall_mem_cons.2 ⟨member, ih⟩
  · intro all
    induction cs with
    | nil => exact .nil
    | cons c rest ih =>
      obtain ⟨member, later⟩ := List.forall_mem_cons.1 all
      show Repeats _ ([c] ++ rest)
      exact .next ⟨c, rfl, member⟩ (ih later)

theorem denotes_chars (set : CharSet) (greedy : Bool) :
    (Node.many 0 none greedy (.set set)).Denotes fun cs => ∀ c ∈ cs, set.mem c = true :=
  ((denotes_set set).star greedy).congr fun _ => repeats_set

section

variable {text : List Char} {greedy : Bool} {opened p : Nat} {s : Saved} {set : CharSet}

theorem ways_twice :
    (Node.many 2 (some 2) greedy (.set set)).ways text opened p s =
      (Node.seq (.set set) (.set set)).ways text opened p s := by
  simp only [ways, exactlyWays, upToWays, Nat.sub_self, List.flatMap_singleton']

theorem ways_once_or_more :
    (Node.many 1 none greedy (.set set)).ways text opened p s =
      (Node.seq (.set set) (.many 0 none greedy (.set set))).ways text opened p s := by
  simp only [ways, exactlyWays, List.flatMap_singleton', List.flatMap_singleton]

theorem denotes_twice (set : CharSet) (greedy : Bool) :
    (Node.many 2 (some 2) greedy (.set set)).Denotes fun cs =>
      ∃ c d, cs = [c, d] ∧ set.mem c = true ∧ set.mem d = true := by
  intro text opened p s w inside
  rw [ways_twice, ((denotes_set set).seq (denotes_set set)) text opened p s w inside]
  constructor
  · rintro ⟨_, rest, there, ⟨_, _, rfl, ⟨c, rfl, first⟩, ⟨d, rfl, second⟩⟩, rfl⟩
    exact ⟨_, rest, there, ⟨c, d, rfl, first, second⟩, rfl⟩
  · rintro ⟨_, rest, there, ⟨c, d, rfl, first, second⟩, rfl⟩
    exact ⟨_, rest, there, ⟨[c], [d], rfl, ⟨c, rfl, first⟩, ⟨d, rfl, second⟩⟩, rfl⟩

theorem denotes_once_or_more (set : CharSet) (greedy : Bool) :
    (Node.many 1 none greedy (.set set)).Denotes fun cs => cs ≠ [] ∧ ∀ c ∈ cs, set.mem c = true := by
  intro text opened p s w inside
  rw [ways_once_or_more, ((denotes_set set).seq (denotes_chars set greedy)) text opened p s w inside]
  constructor
  · rintro ⟨_, rest, there, ⟨_, back, rfl, ⟨c, rfl, first⟩, later⟩, rfl⟩
    exact ⟨_, rest, there, ⟨by simp, List.forall_mem_cons.2 ⟨first, later⟩⟩, rfl⟩
  · rintro ⟨cs, rest, there, ⟨some, all⟩, rfl⟩
    cases cs with
    | nil => exact absurd rfl some
    | cons c back =>
      obtain ⟨first, later⟩ := List.forall_mem_cons.1 all
      exact ⟨_, rest, there, ⟨[c], back, rfl, ⟨c, rfl, first⟩, later⟩, rfl⟩

end

end Node

end ScopeGrammar.Regex
