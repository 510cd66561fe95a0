import ScopeGrammar.Proofs.Regex.Find
import ScopeGrammar.Proofs.Regex.Rounds

set_option autoImplicit false

namespace ScopeGrammar.Regex

namespace Node

def repeats : Node → Bool
  | .empty | .never | .set _ | .anchor _ | .back _ => false
  | .seq a b | .alt a b => a.repeats || b.repeats
  | .group a | .ahead a | .notAhead a | .behind a | .notBehind a | .atomic a => a.repeats
  | .many _ _ _ _ => true

theorem settleRegular_of_repeats {a : Node} (once : a.repeats = false) : a.settleRegular = a := by
  induction a with
  | seq a b first second | alt a b first second =>
    obtain ⟨once, once'⟩ := Bool.or_eq_false_iff.1 once
    rw [settleRegular, first once, second once']
  | group a ih => rw [settleRegular, ih once]
  | many => cases once
  | _ => rfl

theorem settle_of_repeats {a : Node} (once : a.repeats = false) (inner : Bool) :
    a.settle inner = a := by
  induction a generalizing inner with
  | seq a b first second | alt a b first second =>
    rw [settle]
    split
    · exact settleRegular_of_repeats once
    · obtain ⟨once, once'⟩ := Bool.or_eq_false_iff.1 once
      rw [first once, second once']
  | group a ih | ahead a ih | notAhead a ih | behind a ih | notBehind a ih | atomic a ih =>
    rw [settle, ih once]
  | many => cases once
  | _ => rfl

/-- Only repetitions are matched as something else than they are written as. -/
theorem settled_of_repeats {a : Node} (once : a.repeats = false) : a.settled = a := by
  rw [settled]
  split
  · exact settleRegular_of_repeats once
  · exact settle_of_repeats once false

def row (text : List Char) : Node := sequence (text.map fun c => .set (.single c))

theorem row_cons (c : Char) {text : List Char} (more : text ≠ []) :
    row (c :: text) = .seq (.set (.single c)) (row text) := by
  cases text with
  | nil => exact absurd rfl more
  | cons d text => rfl

theorem repeats_row (text : List Char) : (row text).repeats = false := by
  induction text with
  | nil => rfl
  | cons c text ih =>
    cases text with
    | nil => rfl
    | cons d text =>
      rw [row_cons c (by simp), repeats, ih]
      rfl

theorem groups_row (text : List Char) : (row text).groups = 0 := by
  induction text with
  | nil => rfl
  | cons c text ih =>
    cases text with
    | nil => rfl
    | cons d text =>
      rw [row_cons c (by simp), groups, ih]
      rfl

theorem width_row (text : List Char) : (row text).width = some text.length := by
  induction text with
  | nil => rfl
  | cons c text ih =>
    cases text with
    | nil => rfl
    | cons d text =>
      rw [row_cons c (by simp), width, ih]
      exact congrArg some (Nat.add_comm 1 _)

theorem lookable_row (text : List Char) : (row text).lookable = some (row text) := by
  induction text with
  | nil => rfl
  | cons c text ih =>
    cases text with
    | nil => rfl
    | cons d text =>
      rw [row_cons c (by simp), lookable, ih]
      rfl

theorem denotes_row (text : List Char) : (row text).Denotes (· = text) := by
  induction text with
  | nil => exact denotes_empty
  | cons c text ih =>
    cases text with
    | nil => exact denotes_single c
    | cons d text =>
      rw [row_cons c (by simp)]
      refine ((denotes_single c).seq ih).congr fun cs => ?_
      constructor
      · rintro ⟨_, _, rfl, rfl, rfl⟩
        rfl
      · rintro rfl
        exact ⟨[c], d :: text, rfl, rfl, rfl⟩

end Node

/-- No character of the set stands right before the place behind `front` or right before `rest`. -/
structure CharSet.Edged (set : CharSet) (front rest : List Char) : Prop where
  before : ∀ c ∈ front.getLast?, set.mem c = false
  behind : ∀ c ∈ rest.head?, set.mem c = false

namespace Node

variable {set : CharSet} {front rest : List Char} {opened : Nat} {s : Saved} {w : Way}

theorem ways_notBehind :
    w ∈ (Node.notBehind (.set set)).ways (front ++ rest) opened front.length s ↔
      w = (front.length, s) ∧ ∀ c ∈ front.getLast?, set.mem c = false := by
  change (w ∈ if (1 ≤ front.length &&
    !((Node.set set).ways (front ++ rest) opened (front.length - 1) s).isEmpty) = true then []
      else [(front.length, s)]) ↔ _
  rcases List.eq_nil_or_concat front with rfl | ⟨front, c, rfl⟩
  · simp
  · cases mem : set.mem c <;> simp [ways, mem]

theorem ways_notAhead {text : List Char} {p : Nat} (there : text.drop p = rest) :
    w ∈ (Node.notAhead (.set set)).ways text opened p s ↔
      w = (p, s) ∧ ∀ c ∈ rest.head?, set.mem c = false := by
  have head : text[p]? = rest.head? := by rw [← List.head?_drop, there]
  rw [ways, ways, head]
  cases first : rest.head? with
  | none => simp
  | some c => cases mem : set.mem c <;> simp [mem]

/-- `body` with no character of the set before or behind it. -/
def edged (set : CharSet) (body : Node) : Node :=
  .seq (.notBehind (.set set)) (.seq body (.notAhead (.set set)))

theorem ways_edged {body : Node} {form : List Char → Prop} (denotes : body.Denotes form) :
    w ∈ (edged set body).ways (front ++ rest) opened front.length s ↔
      ∃ word behind, rest = word ++ behind ∧ form word ∧ set.Edged front behind ∧
        w = (front.length + word.length, s) := by
  have inside : front.length ≤ (front ++ rest).length := by simp
  have place : (front ++ rest).drop front.length = rest := List.drop_left
  rw [edged, ways, List.mem_flatMap]
  constructor
  · rintro ⟨u, notBehind, later⟩
    obtain ⟨rfl, before⟩ := ways_notBehind.1 notBehind
    obtain ⟨v, spelled, notAhead⟩ := List.mem_flatMap.1 later
    obtain ⟨word, behind, there, is, rfl⟩ := (denotes _ _ _ _ v inside).1 spelled
    obtain ⟨rfl, behind'⟩ := (ways_notAhead (drop_behind there)).1 notAhead
    exact ⟨word, behind, place ▸ there, is, ⟨before, behind'⟩, rfl⟩
  · rintro ⟨word, behind, rfl, is, edges, rfl⟩
    refine ⟨_, ways_notBehind.2 ⟨rfl, edges.before⟩, List.mem_flatMap.2
      ⟨(front.length + word.length, s), ?_, ?_⟩⟩
    · exact (denotes _ _ _ _ _ inside).2 ⟨word, behind, place, is, rfl⟩
    · exact (ways_notAhead (drop_behind place)).2 ⟨rfl, edges.behind⟩

theorem width_edged (set : CharSet) (body : Node) : (edged set body).width = body.width := by
  cases fixed : body.width <;> simp [edged, width, fixed]

theorem ways_behind_edged {body : Node} {form : List Char → Prop} (denotes : body.Denotes form)
    {width : Nat} (fixed : body.width = some width) (sizes : ∀ word, form word → word.length = width) :
    w ∈ (Node.behind (edged set body)).ways (front ++ rest) opened front.length s ↔
      ∃ before word, front = before ++ word ∧ form word ∧ set.Edged before rest ∧
        w = (front.length, s) := by
  rw [ways, width_edged, fixed]
  dsimp only
  constructor
  · intro member
    split at member
    · rename_i room
      obtain ⟨v, first, rfl⟩ := List.mem_map.1 member
      have way := List.mem_of_mem_take first
      obtain ⟨before, spelled, rfl, short⟩ : ∃ before spelled, front = before ++ spelled ∧
          before.length = front.length - width :=
        ⟨front.take (front.length - width), front.drop (front.length - width),
          (List.take_append_drop _ front).symm, by rw [List.length_take]; omega⟩
      rw [← short, List.append_assoc, ways_edged denotes] at way
      obtain ⟨word, behind, there, is, edges, rfl⟩ := way
      have size : spelled.length = word.length := by
        rw [List.length_append] at short room
        rw [sizes word is]
        omega
      obtain ⟨rfl, rfl⟩ := List.append_inj there size
      exact ⟨before, spelled, rfl, is, edges, rfl⟩
    · simp at member
  · rintro ⟨before, word, rfl, is, edges, rfl⟩
    have start : (before ++ word).length - width = before.length := by
      rw [List.length_append, sizes word is, Nat.add_sub_cancel]
    have room : width ≤ (before ++ word).length := by
      rw [List.length_append, sizes word is]
      exact Nat.le_add_left ..
    rw [if_pos room, start, List.append_assoc]
    have some : (before.length + word.length, s) ∈
        (edged set body).ways (before ++ (word ++ rest)) opened before.length s :=
      (ways_edged denotes).2 ⟨word, rest, rfl, is, edges, rfl⟩
    cases all : (edged set body).ways (before ++ (word ++ rest)) opened before.length s with
    | nil => simp [all] at some
    | cons v vs =>
      have first : v ∈ (edged set body).ways (before ++ (word ++ rest)) opened before.length s := by
        rw [all]
        exact List.mem_cons_self ..
      obtain ⟨_, _, -, -, -, rfl⟩ := (ways_edged denotes).1 first
      exact List.mem_singleton.2 rfl

end Node

/-- The match of the expression that begins at a place of a text. -/
def MatchesAt (r : Regex) (text : List Char) (p : Nat) (found : Found) : Prop :=
  r.find text p = some found ∧ found.whole.start = p

section Matches

variable {r : Regex} {text : List Char} {p : Nat} {found : Found}

theorem matchesAt_iff (inside : p ≤ text.length) :
    r.MatchesAt text p found ↔ r.tree.settled.matchAt (.place text p) = some found := by
  have start {q : Nat} (le : q ≤ text.length) {found : Found}
      (here : r.tree.settled.matchAt (.place text q) = some found) : found.whole.start = q := by
    rw [Node.matchAt_place _ _ _ le, Option.map_eq_some_iff] at here
    obtain ⟨w, -, rfl⟩ := here
    rfl
  rw [MatchesAt, find_eq_some inside]
  constructor
  · rintro ⟨⟨q, -, le, here, -⟩, same⟩
    obtain rfl : q = p := (start le here).symm.trans same
    exact here
  · intro here
    exact ⟨⟨p, Nat.le_refl _, inside, here, fun q ge lt => absurd ge (Nat.not_le_of_lt lt)⟩,
      start inside here⟩

theorem matchesAt_of_ways (r : Regex) {Here : Prop} {q : Nat} (inside : p ≤ text.length)
    (noGroup : r.tree.settled.groups = 0)
    (ways : ∀ w, w ∈ r.tree.settled.ways text 0 p [] ↔ Here ∧ w = (q, [])) :
    r.MatchesAt text p found ↔ Here ∧ found = ⟨⟨p, q⟩, []⟩ := by
  rw [matchesAt_iff inside, Node.matchAt_place _ _ _ inside, Option.map_eq_some_iff, noGroup]
  constructor
  · rintro ⟨w, first, rfl⟩
    obtain ⟨here, rfl⟩ := (ways w).1 (List.mem_of_mem_head? first)
    exact ⟨here, rfl⟩
  · rintro ⟨here, rfl⟩
    have member := (ways (q, [])).2 ⟨here, rfl⟩
    cases all : r.tree.settled.ways text 0 p [] with
    | nil => simp [all] at member
    | cons w ws =>
      obtain ⟨-, rfl⟩ := (ways w).1 (by rw [all]; exact List.mem_cons_self ..)
      exact ⟨_, rfl, rfl⟩

end Matches

end ScopeGrammar.Regex
