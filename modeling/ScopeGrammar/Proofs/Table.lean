import ScopeGrammar.Table

set_option autoImplicit false

namespace ScopeGrammar

section Entries

variable {κ α : Type} [DecidableEq κ] {entries others : List (κ × α)} {k : κ} {v : α}

theorem lookup_cons_entry (entry : κ × α) (rest : List (κ × α)) (k : κ) :
    (entry :: rest).lookup k = if k = entry.1 then some entry.2 else rest.lookup k := by
  rw [List.lookup_cons]
  by_cases same : k = entry.1
  · simp [same]
  · simp [beq_eq_false_iff_ne.2 same, same]

theorem lookup_isSome_iff : (entries.lookup k).isSome = true ↔ k ∈ entries.map (·.1) := by
  induction entries with
  | nil => simp
  | cons entry rest ih =>
    rw [lookup_cons_entry, List.map_cons, List.mem_cons, ← ih]
    by_cases same : k = entry.1 <;> simp [same]

theorem lookup_map_value {β : Type} (f : κ → α → β) (entries : List (κ × α)) (k : κ) :
    (entries.map fun entry => (entry.1, f entry.1 entry.2)).lookup k = (entries.lookup k).map (f k) := by
  induction entries with
  | nil => rfl
  | cons entry rest ih =>
    rw [List.map_cons, lookup_cons_entry, lookup_cons_entry, ih]
    split
    · rename_i same
      rw [same]
      rfl
    · rfl

omit [DecidableEq κ] in
theorem nodup_of_keys (once : (entries.map (·.1)).Nodup) : entries.Nodup :=
  (List.pairwise_map.1 once).imp fun differ same => differ (congrArg Prod.fst same)

theorem lookup_eq_some_iff_mem (once : (entries.map (·.1)).Nodup) :
    entries.lookup k = some v ↔ (k, v) ∈ entries := by
  constructor
  · intro found
    obtain ⟨before, after, same, -⟩ := List.lookup_eq_some_iff.1 found
    simp [same]
  · intro member
    obtain ⟨before, after, rfl⟩ := List.append_of_mem member
    refine List.lookup_eq_some_iff.2 ⟨before, after, rfl, fun entry earlier => ?_⟩
    rw [List.map_append, List.nodup_append] at once
    exact bne_iff_ne.2 (once.2.2 entry.1 (List.mem_map_of_mem earlier) k (by simp)).symm

theorem lookup_perm (order : entries.Perm others) (once : (entries.map (·.1)).Nodup) (k : κ) :
    entries.lookup k = others.lookup k := by
  refine Option.ext fun v => ?_
  rw [lookup_eq_some_iff_mem once,
    lookup_eq_some_iff_mem ((order.map (·.1)).nodup_iff.1 once), order.mem_iff]

end Entries

namespace Table

variable {κ α : Type} [Ord κ] [DecidableEq κ]

@[simp] theorem get?_empty (k : κ) : (empty : Table κ α).get? k = none := rfl

theorem get?_map {β : Type} (f : κ → α → β) (t : Table κ α) (k : κ) :
    (t.map f).get? k = (t.get? k).map (f k) := lookup_map_value f t.entries k

theorem contains_iff {t : Table κ α} {k : κ} : t.contains k = true ↔ k ∈ t.keys :=
  lookup_isSome_iff

variable [Std.TransOrd κ]

omit [DecidableEq κ] in
theorem keys_nodup (t : Table κ α) : t.keys.Nodup := by
  refine List.pairwise_map.2 (t.increasing.imp fun {a b} below same => ?_)
  rw [same, Std.ReflOrd.compare_self] at below
  cases below

theorem get?_eq_some_iff {t : Table κ α} {k : κ} {v : α} :
    t.get? k = some v ↔ (k, v) ∈ t.entries :=
  lookup_eq_some_iff_mem t.keys_nodup

variable [Std.LawfulEqOrd κ]

omit [Std.TransOrd κ] in
theorem lookup_insertEntry (k : κ) (v : α) (entries : List (κ × α)) (other : κ) :
    (insertEntry k v entries).lookup other =
      if other = k then some v else entries.lookup other := by
  induction entries with
  | nil => rw [insertEntry, lookup_cons_entry]
  | cons entry rest ih =>
    obtain ⟨k', v'⟩ := entry
    rw [insertEntry]
    split
    · rw [lookup_cons_entry]
    · rename_i equal
      rw [← Std.LawfulEqOrd.eq_of_compare equal, lookup_cons_entry, lookup_cons_entry]
      by_cases same : other = k <;> simp [same]
    · rename_i above
      rw [lookup_cons_entry, lookup_cons_entry, ih]
      have differ : k ≠ k' := fun same => by
        rw [same, Std.ReflOrd.compare_self] at above
        cases above
      by_cases first : other = k'
      · simp [first, differ.symm]
      · simp [first]

omit [DecidableEq κ] [Std.TransOrd κ] in
theorem insertEntry_insertEntry (k : κ) (v w : α) (entries : List (κ × α)) :
    insertEntry k w (insertEntry k v entries) = insertEntry k w entries := by
  induction entries with
  | nil => simp [insertEntry, Std.ReflOrd.compare_self]
  | cons entry rest ih =>
    simp only [insertEntry]
    cases order : compare k entry.1 with
    | lt | eq => simp [insertEntry, Std.ReflOrd.compare_self]
    | gt => simp [insertEntry, order, ih]

omit [DecidableEq κ] in
theorem insertEntry_comm_of_lt {k k' : κ} (below : compare k k' = .lt) (v w : α)
    (entries : List (κ × α)) :
    insertEntry k v (insertEntry k' w entries) = insertEntry k' w (insertEntry k v entries) := by
  have above : compare k' k = .gt := Std.OrientedCmp.gt_iff_lt.2 below
  induction entries with
  | nil => simp [insertEntry, below, above]
  | cons entry rest ih =>
    cases order : compare k entry.1 with
    | lt => cases order' : compare k' entry.1 <;> simp [insertEntry, order, order', below, above]
    | eq =>
      obtain rfl := Std.LawfulEqOrd.eq_of_compare order
      simp [insertEntry, above]
    | gt =>
      have order' : compare k' entry.1 = .gt :=
        Std.OrientedCmp.gt_iff_lt.2 (Std.TransCmp.lt_trans (Std.OrientedCmp.gt_iff_lt.1 order) below)
      simp [insertEntry, order, order', ih]

omit [DecidableEq κ] in
/-- Entries with different keys may be put in either order, whatever the order of those there. -/
theorem insertEntry_comm {k k' : κ} (differ : k ≠ k') (v w : α) (entries : List (κ × α)) :
    insertEntry k v (insertEntry k' w entries) = insertEntry k' w (insertEntry k v entries) := by
  cases order : compare k k' with
  | lt => exact insertEntry_comm_of_lt order v w entries
  | eq => exact absurd (Std.LawfulEqOrd.eq_of_compare order) differ
  | gt => exact (insertEntry_comm_of_lt (Std.OrientedCmp.gt_iff_lt.1 order) w v entries).symm

theorem get?_insert (t : Table κ α) (k : κ) (v : α) (other : κ) :
    (t.insert k v).get? other = if other = k then some v else t.get? other :=
  lookup_insertEntry k v t.entries other

omit [Std.LawfulEqOrd κ] in
/-- Two tables that hold the same under each key are the same. -/
theorem eq_of_get? {s t : Table κ α} (same : ∀ k, s.get? k = t.get? k) : s = t := by
  have members (entry : κ × α) : entry ∈ s.entries ↔ entry ∈ t.entries := by
    rw [← get?_eq_some_iff, same, get?_eq_some_iff]
  have order : s.entries.Perm t.entries :=
    (List.perm_ext_iff_of_nodup (nodup_of_keys s.keys_nodup) (nodup_of_keys t.keys_nodup)).2 members
  refine ext (order.eq_of_pairwise (fun a b _ _ below above => ?_) s.increasing t.increasing)
  rw [Std.OrientedOrd.eq_swap, below] at above
  cases above

theorem get?_foldl_insert (entries : List (κ × α)) (t : Table κ α) (k : κ) :
    (entries.foldl (fun t entry => t.insert entry.1 entry.2) t).get? k =
      (entries.reverse.lookup k).or (t.get? k) := by
  induction entries generalizing t with
  | nil => simp
  | cons entry rest ih =>
    rw [List.foldl_cons, ih, get?_insert, List.reverse_cons, List.lookup_append, lookup_cons_entry]
    by_cases same : k = entry.1 <;> cases rest.reverse.lookup k <;> simp [same]

theorem get?_ofList {entries : List (κ × α)} (once : (entries.map (·.1)).Nodup) (k : κ) :
    (ofList entries).get? k = entries.lookup k := by
  rw [ofList, get?_foldl_insert, get?_empty, Option.or_none]
  exact (lookup_perm entries.reverse_perm.symm once k).symm

theorem entries_ofList {entries : List (κ × α)} (once : (entries.map (·.1)).Nodup) :
    (ofList entries).entries.Perm entries := by
  have different := nodup_of_keys (ofList entries).keys_nodup
  refine (List.perm_ext_iff_of_nodup different (nodup_of_keys once)).2 fun entry => ?_
  rw [← get?_eq_some_iff, get?_ofList once, lookup_eq_some_iff_mem once]

end Table

end ScopeGrammar
