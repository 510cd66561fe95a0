import ScopeGrammar.Proofs.Regex.Criteria

set_option autoImplicit false

namespace ScopeGrammar.Regex

def Bridges (text blanks : List Char) (p q : Nat) : Prop := ∀ c ∈ piece text p q, c ∈ blanks

/-- Behind blanks at most there is a character that is none of the given ones. -/
def Sees (text blanks bad : List Char) (p : Nat) : Prop :=
  ∃ q c, p ≤ q ∧ Bridges text blanks p q ∧ text[q]? = some c ∧ c ∉ bad

section

variable {text blanks bad : List Char} {p q : Nat}

theorem bridges_self (p : Nat) : Bridges text blanks p p := by simp [Bridges]

theorem Bridges.trans {q' : Nat} (le : p ≤ q) (first : Bridges text blanks p q) (le' : q ≤ q')
    (second : Bridges text blanks q q') : Bridges text blanks p q' := by
  intro c member
  rw [piece_append text le le'] at member
  exact (List.mem_append.1 member).elim (first c) (second c)

theorem Sees.behind (le : p ≤ q) (between : Bridges text blanks p q)
    (sees : Sees text blanks bad q) : Sees text blanks bad p := by
  obtain ⟨q', c, le', between', here, other⟩ := sees
  exact ⟨q', c, Nat.le_trans le le', between.trans le le' between', here, other⟩

theorem not_sees (le : p ≤ q) (all : ∀ i, p ≤ i → i ≤ q → ∀ c ∈ text[i]?, c ∈ bad)
    (stop : ∀ c ∈ text[q]?, c ∉ blanks) : ¬ Sees text blanks bad p := by
  rintro ⟨i, c, ge, between, here, other⟩
  rcases Nat.lt_or_ge q i with beyond | within
  · have inside := (List.getElem?_eq_some_iff.1 here).1
    have there : text[q]? = some text[q] := List.getElem?_eq_getElem (Nat.lt_trans beyond inside)
    exact stop _ there (between _ (mem_piece.2 ⟨q, le, beyond, there⟩))
  · exact other (all i ge within c here)

end

namespace Node

/-- Whether every match sees, behind blanks at most, a character that is none of the `bad` ones; if
this is not asked for `strictly`, it may read blanks and nothing else instead. -/
def shows (blanks bad : List Char) : (strictly : Bool) → Node → Bool
  | _, .never => true
  | strictly, .set s => bad.all fun c => !s.mem c || (!strictly && blanks.contains c)
  | strictly, .seq a b =>
    a.shows blanks bad true || (a.shows blanks bad false && b.shows blanks bad strictly)
  | strictly, .alt a b => a.shows blanks bad strictly && b.shows blanks bad strictly
  | strictly, .group a | strictly, .atomic a => a.shows blanks bad strictly
  | strictly, .many least _ _ a =>
    (!strictly || decide (0 < least)) && a.shows blanks bad strictly
  | strictly, .ahead a => !strictly || a.shows blanks bad true
  | strictly, .empty | strictly, .anchor _ | strictly, .notAhead _ | strictly, .behind _
  | strictly, .notBehind _ => !strictly
  | _, .back _ => false

/-- What the criterion says of the ways from one position to another. -/
structure Shown (text blanks bad : List Char) (strictly : Bool) (p q : Nat) : Prop where
  forward : p ≤ q
  inside : q ≤ text.length
  sight : Sees text blanks bad p ∨ strictly = false ∧ Bridges text blanks p q

theorem shown_linked (text blanks bad : List Char) :
    Linked text (Shown text blanks bad false) where
  inside h := h.inside
  refl h := ⟨Nat.le_refl _, h, .inr ⟨rfl, bridges_self _⟩⟩
  trans h h' := by
    refine ⟨Nat.le_trans h.forward h'.forward, h'.inside, ?_⟩
    rcases h.sight with sees | ⟨-, first⟩
    · exact .inl sees
    · rcases h'.sight with sees | ⟨-, second⟩
      · exact .inl (sees.behind h.forward first)
      · exact .inr ⟨rfl, first.trans h.forward h'.forward second⟩

theorem ways_of_shows {text blanks bad : List Char} (node : Node) {strictly : Bool}
    (shown : node.shows blanks bad strictly = true) (opened : Nat) :
    Leads text (Shown text blanks bad strictly) (node.ways text opened) := by
  have still (p : Nat) (inside : p ≤ text.length) :
      Shown text blanks bad false p p := (shown_linked text blanks bad).refl inside
  induction node generalizing strictly opened with
  | never => simp [Leads, ways]
  | set chars =>
    intro p s inside w member
    have range := (Node.set chars).ways_forward text opened p s inside w member
    refine ⟨range.1, range.2, ?_⟩
    obtain ⟨c, found, is, rfl⟩ := mem_ways_set.1 member
    by_cases isBad : c ∈ bad
    · have passed := List.all_eq_true.1 shown c isBad
      simp only [is, Bool.not_true, Bool.false_or, Bool.and_eq_true, Bool.not_eq_true',
        List.contains_iff_mem] at passed
      exact .inr ⟨passed.1, by rw [Bridges, piece_succ found]; simpa using passed.2⟩
    · exact .inl ⟨p, c, Nat.le_refl p, bridges_self _, found, isBad⟩
  | seq a b iha ihb =>
    intro p s inside w member
    obtain ⟨v, first, rest⟩ := List.mem_flatMap.1 member
    simp only [shows, Bool.or_eq_true, Bool.and_eq_true] at shown
    rcases shown with strict | ⟨before, behind⟩
    · have hv := iha strict opened p s inside v first
      have range := b.ways_forward text _ v.1 v.2 hv.inside w rest
      exact ⟨Nat.le_trans hv.forward range.1, range.2, .inl (hv.sight.resolve_right (by simp))⟩
    · have hv := iha before opened p s inside v first
      have hw := ihb behind _ v.1 v.2 hv.inside w rest
      refine ⟨Nat.le_trans hv.forward hw.forward, hw.inside, ?_⟩
      rcases hv.sight with sees | ⟨-, between⟩
      · exact .inl sees
      · rcases hw.sight with sees | ⟨loose, between'⟩
        · exact .inl (sees.behind hv.forward between)
        · exact .inr ⟨loose, between.trans hv.forward hw.forward between'⟩
  | alt a b iha ihb =>
    intro p s inside w member
    simp only [shows, Bool.and_eq_true] at shown
    rcases List.mem_append.1 member with first | second
    · exact iha shown.1 opened p s inside w first
    · exact ihb shown.2 _ p s inside w second
  | group a ih =>
    intro p s inside w member
    obtain ⟨v, first, rfl⟩ := List.mem_map.1 member
    exact ih shown _ p s inside v first
  | atomic a ih =>
    intro p s inside w member
    exact ih shown opened p s inside w (List.mem_of_mem_take member)
  | many least most greedy a ih =>
    simp only [shows, Bool.and_eq_true, Bool.or_eq_true, Bool.not_eq_true', decide_eq_true_eq] at shown
    cases strictly with
    | false => exact manyWays_leads (shown_linked text blanks bad) (ih shown.2 opened)
    | true =>
      intro p s inside w member
      have range := (Node.many least most greedy a).ways_forward text opened p s inside w member
      refine ⟨range.1, range.2, .inl ?_⟩
      obtain ⟨n, rfl⟩ := Nat.exists_eq_succ_of_ne_zero (Nat.pos_iff_ne_zero.1 (by simpa using shown.1))
      obtain ⟨v, first, -⟩ := List.mem_flatMap.1 member
      obtain ⟨u, round, -⟩ := List.mem_flatMap.1 first
      exact (ih shown.2 opened p s inside u round).sight.resolve_right (by simp)
  | ahead a ih =>
    intro p s inside w member
    obtain ⟨v, first, rfl⟩ := List.mem_map.1 member
    simp only [shows, Bool.or_eq_true, Bool.not_eq_true'] at shown
    rcases shown with loose | strict
    · exact loose ▸ still p inside
    · have hv := ih strict opened p s inside v (List.mem_of_mem_take first)
      exact ⟨Nat.le_refl p, inside, .inl (hv.sight.resolve_right (by simp))⟩
  | back => simp [shows] at shown
  | empty | anchor | notAhead | behind | notBehind =>
    intro p s inside w member
    have same : w.1 = p := ways_of_not_repeatable (by rfl) member
    have loose : strictly = false := by simpa [shows] using shown
    rw [loose, same]
    exact still p inside

theorem sees_of_way {text blanks bad : List Char} (node : Node)
    (shown : node.shows blanks bad true = true) {opened p : Nat} {s : Saved}
    (inside : p ≤ text.length) {w : Way} (member : w ∈ node.ways text opened p s) :
    Sees text blanks bad p :=
  (ways_of_shows node shown opened p s inside w member).sight.resolve_right (by simp)

end Node

end ScopeGrammar.Regex
