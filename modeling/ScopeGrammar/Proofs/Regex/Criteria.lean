import ScopeGrammar.Proofs.Regex.Ways

/-!
What can be told of all matches of a tree by looking at the tree: that there are none in a text
without certain characters, that none reads certain characters, that none is empty, and that all
begin with a certain character.
-/

set_option autoImplicit false

namespace ScopeGrammar.Regex

/-- The characters of a text between two positions. -/
def piece (text : List Char) (p q : Nat) : List Char := (text.drop p).take (q - p)

@[simp] theorem piece_self (text : List Char) (p : Nat) : piece text p p = [] := by simp [piece]

theorem piece_append (text : List Char) {p q q' : Nat} (first : p ≤ q) (second : q ≤ q') :
    piece text p q' = piece text p q ++ piece text q q' := by
  have total : q' - p = (q - p) + (q' - q) := by omega
  rw [piece, total, List.take_add, List.drop_drop, Nat.add_sub_cancel' first]
  rfl

theorem piece_succ {text : List Char} {p : Nat} {c : Char} (here : text[p]? = some c) :
    piece text p (p + 1) = [c] := by
  obtain ⟨inside, same⟩ := List.getElem?_eq_some_iff.1 here
  rw [piece, List.drop_eq_getElem_cons inside, same]
  simp

theorem mem_piece {text : List Char} {p q : Nat} {c : Char} :
    c ∈ piece text p q ↔ ∃ i, p ≤ i ∧ i < q ∧ text[i]? = some c := by
  simp only [piece, List.mem_take_iff_getElem, List.getElem_drop, List.length_drop]
  constructor
  · rintro ⟨i, bound, same⟩
    exact ⟨p + i, by omega, by omega, by rw [List.getElem?_eq_getElem (by omega), same]⟩
  · rintro ⟨i, ge, lt, here⟩
    obtain ⟨inside, same⟩ := List.getElem?_eq_some_iff.1 here
    exact ⟨i - p, by omega, by simp only [Nat.add_sub_cancel' ge, same]⟩

/-- No character between two positions of the text is one of the given ones. -/
def Spares (text bad : List Char) (p q : Nat) : Prop := ∀ c ∈ piece text p q, c ∉ bad

theorem spares_linked (text bad : List Char) :
    Linked text fun p q => p ≤ q ∧ q ≤ text.length ∧ Spares text bad p q where
  inside h := h.2.1
  refl h := ⟨Nat.le_refl _, h, by simp [Spares]⟩
  trans h h' := by
    refine ⟨Nat.le_trans h.1 h'.1, h'.2.1, fun c member => ?_⟩
    rw [piece_append text h.1 h'.1] at member
    exact (List.mem_append.1 member).elim (h.2.2 c) (h'.2.2 c)

/-- Whether all members of the set are among the characters. -/
def CharSet.isWithin (cs : List Char) : CharSet → Bool
  | .empty => true
  | .range low high => low = high && cs.contains low
  | .union s t => s.isWithin cs && t.isWithin cs
  | _ => false

theorem CharSet.mem_of_isWithin {cs : List Char} {c : Char} (s : CharSet)
    (within : s.isWithin cs = true) (member : s.mem c = true) : c ∈ cs := by
  induction s with
  | empty => simp [mem] at member
  | range low high =>
    simp only [isWithin, Bool.and_eq_true, decide_eq_true_eq, List.contains_iff_mem] at within
    simp only [mem, Bool.and_eq_true, decide_eq_true_eq] at member
    obtain ⟨rfl, inside⟩ := within
    exact Char.le_antisymm member.1 member.2 ▸ inside
  | union s t ihs iht =>
    simp only [isWithin, Bool.and_eq_true] at within
    simp only [mem, Bool.or_eq_true] at member
    exact member.elim (ihs within.1) (iht within.2)
  | rangeAnyCase | word | digit | space | compl | inter | diff | symmDiff =>
    simp [isWithin] at within

namespace Node

/-- Whether every match has to see one of the `absent` characters. -/
def needs (absent : List Char) : Node → Bool
  | .never => true
  | .set s => s.isWithin absent
  | .seq a b => a.needs absent || b.needs absent
  | .alt a b => a.needs absent && b.needs absent
  | .group a | .atomic a | .ahead a | .behind a => a.needs absent
  | .many least _ _ a => decide (0 < least) && a.needs absent
  | .empty | .anchor _ | .notAhead _ | .notBehind _ | .back _ => false

theorem ways_of_needs {text absent : List Char} (without : ∀ c ∈ text, c ∉ absent) (node : Node)
    (needed : node.needs absent = true) (opened p : Nat) (s : Saved) :
    node.ways text opened p s = [] := by
  induction node generalizing opened p s with
  | never => rfl
  | set chars =>
    refine List.eq_nil_iff_forall_not_mem.2 fun w member => ?_
    obtain ⟨c, found, here, -⟩ := mem_ways_set.1 member
    exact without c (List.mem_of_getElem? found) (chars.mem_of_isWithin needed here)
  | seq a b iha ihb =>
    simp only [needs, Bool.or_eq_true] at needed
    rcases needed with first | second
    · simp [ways, iha first]
    · simp [ways, ihb second]
  | alt a b iha ihb =>
    simp only [needs, Bool.and_eq_true] at needed
    simp [ways, iha needed.1, ihb needed.2]
  | group a ih => simp [ways, ih needed]
  | many least most greedy a ih =>
    simp only [needs, Bool.and_eq_true, decide_eq_true_eq] at needed
    obtain ⟨n, rfl⟩ := Nat.exists_eq_succ_of_ne_zero (Nat.pos_iff_ne_zero.1 needed.1)
    simp [ways, exactlyWays, ih needed.2]
  | ahead a ih => simp [ways, ih needed]
  | behind a ih =>
    refine List.eq_nil_iff_forall_not_mem.2 fun w member => ?_
    obtain ⟨n, -, -, v, first, -⟩ := mem_ways_behind.1 member
    simp [ih needed] at first
  | atomic a ih => simp [ways, ih needed]
  | empty | anchor | notAhead | notBehind | back => simp [needs] at needed

/-- Whether no match in a text without the `absent` characters reads one of the `bad` ones. -/
def avoids (absent bad : List Char) : Node → Bool
  | .set s => s.isWithin absent || bad.all fun c => !s.mem c
  | .seq a b => (Node.seq a b).needs absent || (a.avoids absent bad && b.avoids absent bad)
  | .alt a b => a.avoids absent bad && b.avoids absent bad
  | .group a | .atomic a | .many _ _ _ a => a.avoids absent bad
  | .back _ => false
  | .empty | .never | .anchor _ | .ahead _ | .notAhead _ | .behind _ | .notBehind _ => true

theorem ways_of_avoids {text absent bad : List Char} (without : ∀ c ∈ text, c ∉ absent)
    (node : Node) (avoided : node.avoids absent bad = true) (opened : Nat) :
    Leads text (fun p q => p ≤ q ∧ q ≤ text.length ∧ Spares text bad p q)
      (node.ways text opened) := by
  induction node generalizing opened with
  | never => simp [Leads, ways]
  | set chars =>
    intro p s inside w member
    have range := (Node.set chars).ways_forward text opened p s inside w member
    refine ⟨range.1, range.2, fun c inside => ?_⟩
    obtain ⟨x, found, here, rfl⟩ := mem_ways_set.1 member
    rw [piece_succ found, List.mem_singleton] at inside
    subst inside
    simp only [avoids, Bool.or_eq_true, List.all_eq_true] at avoided
    rcases avoided with within | outside
    · exact absurd (chars.mem_of_isWithin within here) (without c (List.mem_of_getElem? found))
    · intro isBad
      simpa [here] using outside c isBad
  | seq a b iha ihb =>
    intro p s inside w member
    simp only [avoids, Bool.or_eq_true, Bool.and_eq_true] at avoided
    rcases avoided with never | both
    · simp [ways_of_needs without _ never] at member
    · obtain ⟨v, first, rest⟩ := List.mem_flatMap.1 member
      have hv := iha both.1 opened p s inside v first
      exact (spares_linked text bad).trans hv (ihb both.2 _ v.1 v.2 hv.2.1 w rest)
  | alt a b iha ihb =>
    intro p s inside w member
    simp only [avoids, Bool.and_eq_true] at avoided
    rcases List.mem_append.1 member with first | second
    · exact iha avoided.1 opened p s inside w first
    · exact ihb avoided.2 _ p s inside w second
  | group a ih =>
    intro p s inside w member
    obtain ⟨v, first, rfl⟩ := List.mem_map.1 member
    exact ih avoided _ p s inside v first
  | many least most greedy a ih => exact manyWays_leads (spares_linked text bad) (ih avoided opened)
  | atomic a ih =>
    intro p s inside w member
    exact ih avoided opened p s inside w (List.mem_of_mem_take member)
  | back => simp [avoids] at avoided
  | empty | anchor | ahead | notAhead | behind | notBehind =>
    intro p s inside w member
    have same : w.1 = p := ways_of_not_repeatable (by rfl) member
    exact same ▸ (spares_linked text bad).refl (same ▸ inside)

theorem spares_of_avoids {text : List Char} (bad : List Char) (node : Node)
    (avoided : node.avoids [] bad = true)
    {opened p : Nat} {s : Saved} (inside : p ≤ text.length) {w : Way}
    (member : w ∈ node.ways text opened p s) :
    p ≤ w.1 ∧ w.1 ≤ text.length ∧ Spares text bad p w.1 :=
  ways_of_avoids (by simp) node avoided opened p s inside w member

theorem lt_of_not_nullable {text : List Char} (node : Node) (full : node.nullable = false)
    {opened p : Nat} {s : Saved} (inside : p ≤ text.length) {w : Way}
    (member : w ∈ node.ways text opened p s) : p < w.1 := by
  induction node generalizing opened p s w with
  | never => simp [ways] at member
  | set chars =>
    obtain ⟨c, -, -, rfl⟩ := mem_ways_set.1 member
    exact Nat.lt_succ_self p
  | seq a b iha ihb =>
    obtain ⟨v, first, rest⟩ := List.mem_flatMap.1 member
    have hv := a.ways_forward text opened p s inside v first
    have hw := b.ways_forward text _ v.1 v.2 hv.2 w rest
    simp only [nullable, Bool.and_eq_false_iff] at full
    rcases full with left | right
    · exact Nat.lt_of_lt_of_le (iha left inside first) hw.1
    · exact Nat.lt_of_le_of_lt hv.1 (ihb right hv.2 rest)
  | alt a b iha ihb =>
    simp only [nullable, Bool.or_eq_false_iff] at full
    rcases List.mem_append.1 member with first | second
    · exact iha full.1 inside first
    · exact ihb full.2 inside second
  | group a ih =>
    obtain ⟨v, first, rfl⟩ := List.mem_map.1 member
    have hv : p < v.1 := ih full inside first
    exact hv
  | many least most greedy a ih =>
    simp only [nullable, Bool.or_eq_false_iff, decide_eq_false_iff_not] at full
    obtain ⟨n, rfl⟩ := Nat.exists_eq_succ_of_ne_zero full.1
    obtain ⟨v, first, rest⟩ := List.mem_flatMap.1 member
    obtain ⟨u, round, more⟩ := List.mem_flatMap.1 first
    have hu := a.ways_forward text opened p s inside u round
    have hv := exactlyWays_forward (a.ways_forward text opened) n u.1 u.2 hu.2 v more
    have hw : v.1 ≤ w.1 := by
      split at rest
      · exact (upToWays_leads (forward_linked text) (a.ways_forward text opened) greedy _
          v.1 v.2 hv.2 w rest).1
      · exact (anyWays_leads (forward_linked text) (a.ways_forward text opened) greedy _
          v.1 v.2 hv.2 w rest).1
    exact Nat.lt_of_lt_of_le (ih full.2 inside round) (Nat.le_trans hv.1 hw)
  | atomic a ih => exact ih full inside (List.mem_of_mem_take member)
  | empty | anchor | ahead | notAhead | behind | notBehind | back => simp [nullable] at full

/-- Whether every match begins with the character, and none in a text without the `absent`
characters reads one of the `bad` ones behind it. -/
def opens (absent bad : List Char) (c : Char) : Node → Bool
  | .set s => s.isWithin [c]
  | .group a => a.opens absent bad c
  | .seq a b => a.opens absent bad c && b.avoids absent bad
  | _ => false

theorem ways_of_opens {text absent bad : List Char} {c : Char}
    (without : ∀ c ∈ text, c ∉ absent) (node : Node)
    (opening : node.opens absent bad c = true) {opened p : Nat} {s : Saved}
    (inside : p ≤ text.length) {w : Way} (member : w ∈ node.ways text opened p s) :
    text[p]? = some c ∧ p < w.1 ∧ Spares text bad (p + 1) w.1 := by
  induction node generalizing opened p s w with
  | set chars =>
    obtain ⟨x, found, here, rfl⟩ := mem_ways_set.1 member
    obtain rfl : x = c := List.mem_singleton.1 (chars.mem_of_isWithin opening here)
    exact ⟨found, Nat.lt_succ_self p, by simp [Spares]⟩
  | group a ih =>
    obtain ⟨v, first, rfl⟩ := List.mem_map.1 member
    have hv : text[p]? = some c ∧ p < v.1 ∧ Spares text bad (p + 1) v.1 :=
      ih opening inside first
    exact hv
  | seq a b iha ihb =>
    obtain ⟨v, first, rest⟩ := List.mem_flatMap.1 member
    simp only [opens, Bool.and_eq_true] at opening
    have room := (a.ways_forward text opened p s inside v first).2
    obtain ⟨here, lt, spared⟩ := iha opening.1 inside first
    have hw := ways_of_avoids without b opening.2 _ v.1 v.2 room w rest
    refine ⟨here, Nat.lt_of_lt_of_le lt hw.1, fun x member => ?_⟩
    rw [piece_append text lt hw.1] at member
    exact (List.mem_append.1 member).elim (spared x) (hw.2.2 x)
  | empty | never | anchor | alt | many | ahead | notAhead | behind | notBehind | atomic | back =>
    simp [opens] at opening

end Node

end ScopeGrammar.Regex
