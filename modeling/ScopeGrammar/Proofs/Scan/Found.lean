import ScopeGrammar.Proofs.Regex.Criteria
import ScopeGrammar.Proofs.Scan.Search

set_option autoImplicit false

namespace ScopeGrammar.Scan

open Regex (Found Node CharSet Spares)

/-- The tree that is matched where a line is searched for a fragment. -/
def lineTree? (f : Fragment) : Option Node := (linePattern f).toOption.map fun regex => regex.tree.settled

/-- What holds of the tree of a fragment that can be read. -/
def hasTree (f : Fragment) (criterion : Node → Bool) : Bool := (lineTree? f).any criterion

variable {f : Fragment} {text : List Char} {pos : Nat} {tree : Node}

theorem exists_tree {criterion : Node → Bool} (has : hasTree f criterion = true) :
    ∃ tree, lineTree? f = some tree ∧ criterion tree = true := by
  unfold hasTree at has
  cases read : lineTree? f with
  | none => simp [read] at has
  | some tree => exact ⟨tree, rfl, by simpa [read] using has⟩

theorem searchIn_eq (read : lineTree? f = some tree) (text : List Char) :
    ∃ regex : Regex, regex.tree.settled = tree ∧
      ∀ pos, searchIn text f pos = .ok (regex.find text pos) := by
  unfold lineTree? at read
  cases pattern : (linePattern f).toOption with
  | none => simp [pattern] at read
  | some regex =>
    rw [pattern, Option.map_some, Option.some.injEq] at read
    exact ⟨regex, read, fun pos => by rw [searchIn_apply, pattern]⟩

theorem searchIn_ok (read : lineTree? f = some tree) : ∃ result, searchIn text f pos = .ok result := by
  obtain ⟨regex, -, search⟩ := searchIn_eq read text
  exact ⟨_, search pos⟩

theorem tree_of_searchIn {found : Found} (answered : searchIn text f pos = .ok (some found)) :
    ∃ tree, lineTree? f = some tree := by
  rw [searchIn_apply] at answered
  cases pattern : (linePattern f).toOption with
  | none => simp [pattern] at answered
  | some regex => exact ⟨_, by rw [lineTree?, pattern, Option.map_some]⟩

/-- A find is the first way from its start, and there is no way from before it. -/
theorem way_of_searchIn (read : lineTree? f = some tree) (inside : pos ≤ text.length)
    {found : Found} (answered : searchIn text f pos = .ok (some found)) :
    pos ≤ found.whole.start ∧ found.whole.start ≤ text.length ∧
      (∃ w, (tree.ways text 0 found.whole.start []).head? = some w ∧ w.1 = found.whole.stop ∧
        found.groups = (List.range tree.groups).map fun i => w.2.lookup (i + 1)) ∧
      ∀ q, pos ≤ q → q < found.whole.start → tree.ways text 0 q [] = [] := by
  obtain ⟨regex, rfl, search⟩ := searchIn_eq read text
  rw [search pos, Except.ok.injEq, Regex.find_eq_some inside] at answered
  obtain ⟨start, ge, le, here, before⟩ := answered
  rw [Node.matchAt_place _ _ _ le, Option.map_eq_some_iff] at here
  obtain ⟨w, first, rfl⟩ := here
  refine ⟨ge, le, ⟨w, first, rfl, rfl⟩, fun q ge' lt => ?_⟩
  have none := before q ge' lt
  rw [Node.matchAt_place _ _ _ (Nat.le_of_lt (Nat.lt_of_lt_of_le lt le))] at none
  simpa using none

/-- Where there is a way, a search from before it finds something that does not start later. -/
theorem searchIn_of_way (read : lineTree? f = some tree) {q : Nat} (ge : pos ≤ q)
    (le : q ≤ text.length) (way : tree.ways text 0 q [] ≠ []) :
    ∃ found, searchIn text f pos = .ok (some found) ∧ found.whole.start ≤ q := by
  obtain ⟨regex, rfl, search⟩ := searchIn_eq read text
  have inside : pos ≤ text.length := Nat.le_trans ge le
  cases found : regex.find text pos with
  | none =>
    have none := (Regex.find_eq_none inside).1 found q ge le
    rw [Node.matchAt_place _ _ _ le] at none
    simp [way] at none
  | some found' =>
    refine ⟨found', by rw [search, found], ?_⟩
    obtain ⟨q', -, le', here, before⟩ := (Regex.find_eq_some inside).1 found
    have start : found'.whole.start = q' := by
      rw [Node.matchAt_place _ _ _ le', Option.map_eq_some_iff] at here
      obtain ⟨w, -, rfl⟩ := here
      rfl
    rw [start]
    rcases Nat.lt_or_ge q q' with lt | ge'
    · have none := before q ge lt
      rw [Node.matchAt_place _ _ _ le] at none
      simp [way] at none
    · exact ge'

theorem way_of_searchIn_none (read : lineTree? f = some tree)
    (answered : searchIn text f pos = .ok none) :
    ∀ q, pos ≤ q → q ≤ text.length → tree.ways text 0 q [] = [] := by
  intro q ge le
  cases ways : tree.ways text 0 q [] with
  | nil => rfl
  | cons w ws =>
    obtain ⟨found, some, -⟩ := searchIn_of_way read ge le (by simp [ways])
    rw [answered] at some
    simp at some

section Chosen

variable {rules : Rules} {ctx : Context} {choice : Choice} {found : Found} {o : Offer}

theorem way_of_choose_none (nothing : choose (searchIn text) rules ctx pos = .ok none)
    (offered : o ∈ offers rules ctx) (read : lineTree? o.pattern = some tree) :
    ∀ q, pos ≤ q → q ≤ text.length → tree.ways text 0 q [] = [] :=
  way_of_searchIn_none read (choose_none nothing o offered)

theorem way_before_choice (inside : pos ≤ text.length)
    (chosen : choose (searchIn text) rules ctx pos = .ok (some (choice, found)))
    (offered : o ∈ offers rules ctx) (read : lineTree? o.pattern = some tree) :
    ∀ q, pos ≤ q → q < found.whole.start → tree.ways text 0 q [] = [] := by
  intro q ge lt
  have range := choose_within (searchIn_within text) inside chosen
  cases ways : tree.ways text 0 q [] with
  | nil => rfl
  | cons w ws =>
    have le : q ≤ text.length := by omega
    have some : tree.ways text 0 q [] ≠ [] := by simp [ways]
    obtain ⟨other, answered, earlier⟩ := searchIn_of_way read ge le some
    have least := choose_least chosen o offered other answered
    omega

theorem way_of_after (within : found.whole.start ≤ text.length)
    (behind : o.After (searchIn text) pos found.whole.start)
    (read : lineTree? o.pattern = some tree) :
    ∀ q, pos ≤ q → q ≤ found.whole.start → tree.ways text 0 q [] = [] := by
  intro q ge le
  cases ways : tree.ways text 0 q [] with
  | nil => rfl
  | cons w ws =>
    have le' : q ≤ text.length := by omega
    have some : tree.ways text 0 q [] ≠ [] := by simp [ways]
    obtain ⟨other, answered, earlier⟩ := searchIn_of_way read ge le' some
    have later := behind other answered
    omega

theorem choose_first {front back : List Offer} {q : Nat}
    (answers : ∃ result, choose (searchIn text) rules ctx pos = .ok result)
    (split : offers rules ctx = front ++ o :: back) (read : lineTree? o.pattern = some tree)
    (ge : pos ≤ q) (le : q ≤ text.length) (way : tree.ways text 0 q [] ≠ [])
    (quiet : ∀ o ∈ offers rules ctx, ∀ tree, lineTree? o.pattern = some tree →
      ∀ i, pos ≤ i → i < q → tree.ways text 0 i [] = [])
    (silent : ∀ o ∈ front, ∀ tree, lineTree? o.pattern = some tree →
      tree.ways text 0 q [] = []) :
    ∃ found, choose (searchIn text) rules ctx pos = .ok (some (o.choice, found)) ∧
      searchIn text o.pattern pos = .ok (some found) ∧ found.whole.start = q := by
  have inside : pos ≤ text.length := Nat.le_trans ge le
  have offered : o ∈ offers rules ctx := by simp [split]
  obtain ⟨result, chosen⟩ := answers
  cases result with
  | none => exact absurd (way_of_choose_none chosen offered read q ge le) way
  | some result =>
    obtain ⟨choice, found⟩ := result
    obtain ⟨other, answered, earlier⟩ := searchIn_of_way read ge le way
    have least := choose_least chosen o offered other answered
    have start : found.whole.start = q := by
      obtain ⟨o', offered', -, answered'⟩ := offer_of_choose chosen
      obtain ⟨tree', read'⟩ := tree_of_searchIn answered'
      obtain ⟨ge', -, ⟨w, first, -⟩, -⟩ := way_of_searchIn read' inside answered'
      refine Nat.le_antisymm (Nat.le_trans least earlier) (Nat.le_of_not_lt fun before => ?_)
      rw [quiet o' offered' tree' read' _ ge' before] at first
      cases first
    have split' : offers rules ctx = (front ++ [o]) ++ back := by simp [split]
    rcases choose_front _ split' chosen with ⟨o', member, rfl, answered'⟩ | ⟨-, behind⟩
    · rcases List.mem_append.1 member with inFront | last
      · obtain ⟨tree', read'⟩ := tree_of_searchIn answered'
        obtain ⟨-, -, ⟨w, first, -⟩, -⟩ := way_of_searchIn read' inside answered'
        rw [start, silent o' inFront tree' read'] at first
        cases first
      · obtain rfl := List.mem_singleton.1 last
        exact ⟨found, chosen, answered', start⟩
    · have late := behind o (by simp) other answered
      omega

end Chosen

theorem ways_single (text : List Char) (c : Char) (opened p : Nat) (s : Regex.Saved) :
    (Node.set (.single c)).ways text opened p s =
      if text[p]? = some c then [(p + 1, s)] else [] := by
  rw [Node.ways]
  cases text[p]? with
  | none => simp
  | some x => simp

theorem mem_ways_single {c : Char} {opened p : Nat} {s : Regex.Saved} {w : Regex.Way}
    (member : w ∈ (Node.set (.single c)).ways text opened p s) :
    text[p]? = some c ∧ w = (p + 1, s) := by
  obtain ⟨x, here, is, same⟩ := Node.mem_ways_set.1 member
  rw [CharSet.mem_single, decide_eq_true_eq] at is
  exact ⟨is ▸ here, same⟩

section Found

variable {found : Found}

theorem found_way (read : lineTree? f = some tree)
    (inside : pos ≤ text.length) (answered : searchIn text f pos = .ok (some found)) :
    found.whole.start ≤ text.length ∧
      ∃ w ∈ tree.ways text 0 found.whole.start [], w.1 = found.whole.stop := by
  obtain ⟨-, le, ⟨w, first, stop, -⟩, -⟩ := way_of_searchIn read inside answered
  exact ⟨le, w, List.mem_of_mem_head? first, stop⟩

theorem found_single {c : Char} (read : lineTree? f = some (.set (.single c)))
    (inside : pos ≤ text.length) (answered : searchIn text f pos = .ok (some found)) :
    text[found.whole.start]? = some c ∧ found.whole.stop = found.whole.start + 1 := by
  obtain ⟨-, w, member, stop⟩ := found_way read inside answered
  obtain ⟨here, rfl⟩ := mem_ways_single member
  exact ⟨here, stop.symm⟩

end Found

end ScopeGrammar.Scan
