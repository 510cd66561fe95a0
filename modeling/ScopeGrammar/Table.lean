/-!
Finite maps as lists of entries in strictly increasing order of their keys, so that a map has one
representation and is listed in the order of its keys.
-/

set_option autoImplicit false

namespace ScopeGrammar

/-- Entries whose keys increase strictly. -/
structure Table (κ α : Type) [Ord κ] where
  entries : List (κ × α)
  increasing : entries.Pairwise fun a b => compare a.1 b.1 = .lt

namespace Table

variable {κ α β : Type} [Ord κ]

@[ext] theorem ext {s t : Table κ α} (same : s.entries = t.entries) : s = t := by
  cases s; cases t; simp_all

instance [DecidableEq κ] [DecidableEq α] : DecidableEq (Table κ α) := fun s t =>
  decidable_of_iff (s.entries = t.entries) ⟨ext, fun h => h ▸ rfl⟩

def empty : Table κ α := ⟨[], .nil⟩

instance : Inhabited (Table κ α) := ⟨empty⟩

def isEmpty (t : Table κ α) : Bool := t.entries.isEmpty

def size (t : Table κ α) : Nat := t.entries.length

def keys (t : Table κ α) : List κ := t.entries.map (·.1)

def get? [DecidableEq κ] (t : Table κ α) (k : κ) : Option α := t.entries.lookup k

def contains [DecidableEq κ] (t : Table κ α) (k : κ) : Bool := (t.get? k).isSome

theorem mem_entries_of_get? [DecidableEq κ] {t : Table κ α} {k : κ} {v : α}
    (held : t.get? k = some v) : (k, v) ∈ t.entries := by
  obtain ⟨before, after, same, -⟩ := List.lookup_eq_some_iff.1 held
  simp [same]

theorem mem_keys_of_get? [DecidableEq κ] {t : Table κ α} {k : κ} {v : α}
    (held : t.get? k = some v) : k ∈ t.keys :=
  List.mem_map_of_mem (mem_entries_of_get? held)

/-- Put an entry in its place among increasing ones; it replaces one with the same key. -/
def insertEntry (k : κ) (v : α) : List (κ × α) → List (κ × α)
  | [] => [(k, v)]
  | (k', v') :: rest =>
    match compare k k' with
    | .lt => (k, v) :: (k', v') :: rest
    | .eq => (k, v) :: rest
    | .gt => (k', v') :: insertEntry k v rest

theorem mem_insertEntry {k : κ} {v : α} {entry : κ × α} {entries : List (κ × α)}
    (member : entry ∈ insertEntry k v entries) : entry = (k, v) ∨ entry ∈ entries := by
  induction entries with
  | nil => simpa [insertEntry] using member
  | cons head rest ih =>
    obtain ⟨k', v'⟩ := head
    simp only [insertEntry] at member
    split at member
    · simpa using member
    · simp only [List.mem_cons] at member ⊢
      exact member.imp_right Or.inr
    · simp only [List.mem_cons] at member ⊢
      rcases member with same | later
      · exact Or.inr (Or.inl same)
      · exact (ih later).imp_right Or.inr

theorem insertEntry_increasing [Std.TransOrd κ] [Std.LawfulEqOrd κ] (k : κ) (v : α)
    (entries : List (κ × α)) (increasing : entries.Pairwise fun a b => compare a.1 b.1 = .lt) :
    (insertEntry k v entries).Pairwise fun a b => compare a.1 b.1 = .lt := by
  induction entries with
  | nil => simp [insertEntry]
  | cons head rest ih =>
    obtain ⟨k', v'⟩ := head
    have parts := List.pairwise_cons.1 increasing
    simp only [insertEntry]
    split
    · rename_i below
      refine List.pairwise_cons.2 ⟨fun entry member => ?_, increasing⟩
      rcases List.mem_cons.1 member with rfl | later
      · exact below
      · exact Std.TransCmp.lt_trans below (parts.1 entry later)
    · rename_i same
      have equal : k = k' := Std.LawfulEqCmp.eq_of_compare same
      subst equal
      exact List.pairwise_cons.2 ⟨fun entry member => parts.1 entry member, parts.2⟩
    · rename_i above
      refine List.pairwise_cons.2 ⟨fun entry member => ?_, ih parts.2⟩
      rcases mem_insertEntry member with rfl | later
      · exact Std.OrientedCmp.gt_iff_lt.1 above
      · exact parts.1 entry later

variable [Std.TransOrd κ] [Std.LawfulEqOrd κ]

/-- The table with the value under the key; a value already there is replaced. -/
def insert (t : Table κ α) (k : κ) (v : α) : Table κ α :=
  ⟨insertEntry k v t.entries, insertEntry_increasing k v t.entries t.increasing⟩

def ofList (entries : List (κ × α)) : Table κ α :=
  entries.foldl (fun t entry => t.insert entry.1 entry.2) empty

def map (f : κ → α → β) (t : Table κ α) : Table κ β :=
  ⟨t.entries.map fun entry => (entry.1, f entry.1 entry.2),
    List.pairwise_map.2 (t.increasing.imp fun h => h)⟩

end Table

end ScopeGrammar
