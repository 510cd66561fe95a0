import ScopeGrammar.Proofs.Regex.Ways

set_option autoImplicit false

namespace ScopeGrammar.Regex

variable {text : List Char} {node : Node}

theorem Node.findFrom_eq_some {found : Found} {room p : Nat} (all : p + room = text.length) :
    node.findFrom room (.place text p) = some found ↔
      ∃ q, p ≤ q ∧ q ≤ text.length ∧ node.matchAt (.place text q) = some found ∧
        ∀ q', p ≤ q' → q' < q → node.matchAt (.place text q') = none := by
  induction room generalizing p with
  | zero =>
    rw [findFrom]
    constructor
    · intro here
      exact ⟨p, Nat.le_refl p, by omega, here, fun q' _ _ => by omega⟩
    · rintro ⟨q, _, _, here, -⟩
      have same : q = p := by omega
      exact same ▸ here
  | succ room ih =>
    have here : p < text.length := by omega
    have next := Cursor.next?_place_of_lt here
    rw [findFrom, next]
    cases first : node.matchAt (.place text p) with
    | some other =>
      constructor
      · intro same
        cases same
        exact ⟨p, Nat.le_refl p, by omega, first, fun q' _ _ => by omega⟩
      · rintro ⟨q, ge, _, found, before⟩
        rcases Nat.eq_or_lt_of_le ge with rfl | later
        · exact first.symm.trans found
        · simp [before p (Nat.le_refl p) later] at first
    | none =>
      rw [ih (by omega)]
      constructor
      · rintro ⟨q, ge, le, found, before⟩
        refine ⟨q, by omega, le, found, fun q' ge' lt => ?_⟩
        rcases Nat.eq_or_lt_of_le ge' with rfl | later
        · exact first
        · exact before q' later lt
      · rintro ⟨q, ge, le, found, before⟩
        rcases Nat.eq_or_lt_of_le ge with rfl | later
        · simp [found] at first
        · exact ⟨q, later, le, found, fun q' ge' lt => before q' (by omega) lt⟩

theorem Node.findFrom_eq_none {room p : Nat} (all : p + room = text.length) :
    node.findFrom room (.place text p) = none ↔
      ∀ q, p ≤ q → q ≤ text.length → node.matchAt (.place text q) = none := by
  induction room generalizing p with
  | zero =>
    rw [findFrom]
    refine ⟨fun here q ge le => ?_, fun none => none p (Nat.le_refl p) (by omega)⟩
    have same : q = p := by omega
    exact same ▸ here
  | succ room ih =>
    have here : p < text.length := by omega
    have next := Cursor.next?_place_of_lt here
    rw [findFrom, next]
    cases first : node.matchAt (.place text p) with
    | some other =>
      refine ⟨fun h => by simp at h, fun none => ?_⟩
      simp [none p (Nat.le_refl p) (by omega)] at first
    | none =>
      rw [ih (by omega)]
      refine ⟨fun none q ge le => ?_, fun none q ge le => none q (by omega) le⟩
      rcases Nat.eq_or_lt_of_le ge with rfl | later
      · exact first
      · exact none q later le

theorem Node.findAll_getElem? {room p i : Nat} (all : p + room = text.length) (inside : i ≤ room) :
    (node.findAll room (.place text p))[i]? =
      some (node.findFrom (room - i) (.place text (p + i))) := by
  induction room generalizing p i with
  | zero =>
    have first : i = 0 := by omega
    simp [first, findAll, findFrom]
  | succ room ih =>
    have here : p < text.length := by omega
    have next := Cursor.next?_place_of_lt here
    have later := ih (p := p + 1) (i := 0) (by omega) (by omega)
    simp only [findAll, next]
    cases i with
    | zero =>
      have search : node.findFrom (room + 1) (.place text p) =
          (node.matchAt (.place text p)).or (node.findFrom room (.place text (p + 1))) := by
        rw [findFrom, next]
        cases node.matchAt (.place text p) <;> rfl
      rw [List.getElem?_cons_zero, List.head?_eq_getElem?, later]
      exact congrArg some search.symm
    | succ i =>
      rw [List.getElem?_cons_succ, ih (by omega) (by omega), Nat.add_sub_add_right]
      congr 3
      omega

end ScopeGrammar.Regex

namespace ScopeGrammar.Regex

variable {r : Regex} {text : List Char} {pos : Nat}

theorem find_eq_findFrom (inside : pos ≤ text.length) :
    r.find text pos = r.tree.settled.findFrom (text.length - pos) (.place text pos) := by
  simp only [find, Cursor.start_eq_place]
  rw [Cursor.forward_place text pos 0 (by omega), Nat.zero_add]
  simp [Cursor.place]

/-- A search finds the match with the least start. -/
theorem find_eq_some {found : Found} (inside : pos ≤ text.length) :
    r.find text pos = some found ↔
      ∃ q, pos ≤ q ∧ q ≤ text.length ∧ r.tree.settled.matchAt (.place text q) = some found ∧
        ∀ q', pos ≤ q' → q' < q → r.tree.settled.matchAt (.place text q') = none := by
  rw [find_eq_findFrom inside]
  exact Node.findFrom_eq_some (by omega)

theorem find_eq_none (inside : pos ≤ text.length) :
    r.find text pos = none ↔
      ∀ q, pos ≤ q → q ≤ text.length → r.tree.settled.matchAt (.place text q) = none := by
  rw [find_eq_findFrom inside]
  exact Node.findFrom_eq_none (by omega)

theorem findAll_getElem? (inside : pos ≤ text.length) :
    (r.findAll text)[pos]? = some (r.find text pos) := by
  rw [find_eq_findFrom inside, findAll, Cursor.start_eq_place,
    Node.findAll_getElem? (by omega) inside, Nat.zero_add]

theorem find_within {found : Found} (inside : pos ≤ text.length)
    (some : r.find text pos = some found) :
    pos ≤ found.whole.start ∧ found.whole.start ≤ found.whole.stop ∧
      found.whole.stop ≤ text.length := by
  obtain ⟨q, ge, le, here, -⟩ := (find_eq_some inside).1 some
  rw [Node.matchAt_place _ _ _ le, Option.map_eq_some_iff] at here
  obtain ⟨w, first, rfl⟩ := here
  have forward := r.tree.settled.ways_forward text 0 q [] le w (List.mem_of_mem_head? first)
  exact ⟨ge, forward⟩

end ScopeGrammar.Regex
