import ScopeGrammar.Proofs.Repository.Chains

set_option autoImplicit false

namespace ScopeGrammar

mutual

/-- The number of patterns in a rule, at any depth of rules given in place. -/
def Rule.weight : Rule → Nat
  | .single _ => 0
  | .region _ children => weightOf children
  | .anyOf children => weightOf children

def Pattern.weight : Pattern → Nat
  | .reference _ => 1
  | .inline rule => 1 + rule.weight

def weightOf : List Pattern → Nat
  | [] => 0
  | pattern :: rest => pattern.weight + weightOf rest

end

theorem Rule.weight_eq (rule : Rule) : rule.weight = weightOf rule.children := by
  cases rule <;> simp [Rule.weight, Rule.children, weightOf]

theorem weightOf_append (patterns others : List Pattern) :
    weightOf (patterns ++ others) = weightOf patterns + weightOf others := by
  induction patterns with
  | nil => simp [weightOf]
  | cons pattern rest ih => simp [weightOf, ih, Nat.add_assoc]

/-- The number of patterns in the rules under names that have not been met. -/
def weightUnmet (met : List String) : List (String × Rule) → Nat
  | [] => 0
  | entry :: rest => (if entry.1 ∈ met then 0 else entry.2.weight) + weightUnmet met rest

/-- The number of patterns of a repository. -/
def Repository.weight (r : Repository) : Nat := weightOf r.entry + weightUnmet [] r.rules.entries

def childrenUnder (rules : Rules) (name : String) : List Pattern :=
  match rules.get? name with
  | none => []
  | some rule => rule.children

theorem weightUnmet_cons {entries : List (String × Rule)} (once : (entries.map (·.1)).Nodup)
    {met : List String} {name : String} (new : name ∉ met) :
    weightUnmet (name :: met) entries + ((entries.lookup name).map Rule.weight).getD 0 =
      weightUnmet met entries := by
  induction entries with
  | nil => rfl
  | cons entry rest ih =>
    obtain ⟨free, once⟩ := List.nodup_cons.1 once
    have below := ih once
    rw [lookup_cons_entry]
    by_cases same : name = entry.1
    · subst same
      have absent : rest.lookup entry.1 = none := by
        rw [← Option.not_isSome_iff_eq_none, lookup_isSome_iff]
        exact free
      simp only [absent, Option.map_none, Option.getD_none] at below
      simp only [weightUnmet, List.mem_cons_self, if_true, if_neg new, Option.map_some,
        Option.getD_some] at below ⊢
      omega
    · have there : entry.1 ∈ name :: met ↔ entry.1 ∈ met := by simp [Ne.symm same]
      simp only [weightUnmet, there, if_neg same] at below ⊢
      omega

/-- A traversal on its way: the names met so far, and the patterns still to be looked at. -/
structure Sweep where
  met : List String
  queue : List Pattern

namespace Sweep

def start (r : Repository) : Sweep := ⟨[], r.entry⟩

/-- Look at the pattern in front; there is no next state when the queue is empty. -/
def next (rules : Rules) (s : Sweep) : Option Sweep :=
  match s.queue with
  | [] => none
  | .reference name :: rest =>
    if name ∈ s.met then some ⟨s.met, rest⟩
    else some ⟨name :: s.met, rest ++ childrenUnder rules name⟩
  | .inline rule :: rest => some ⟨s.met, rest ++ rule.children⟩

/-- The states that follow on one another, with the number of steps between them. -/
inductive Runs (rules : Rules) : Nat → Sweep → Sweep → Prop where
  | refl (s : Sweep) : Runs rules 0 s s
  | step {n : Nat} {s t u : Sweep} (first : s.next rules = some t) (rest : Runs rules n t u) :
    Runs rules (n + 1) s u

/-- What a step does, by the pattern in front. -/
inductive Moves (rules : Rules) : Sweep → Sweep → Prop where
  | again {met : List String} {rest : List Pattern} {name : String} (known : name ∈ met) :
    Moves rules ⟨met, .reference name :: rest⟩ ⟨met, rest⟩
  | meet {met : List String} {rest : List Pattern} {name : String} (new : name ∉ met) :
    Moves rules ⟨met, .reference name :: rest⟩ ⟨name :: met, rest ++ childrenUnder rules name⟩
  | inline {met : List String} {rest : List Pattern} {rule : Rule} :
    Moves rules ⟨met, .inline rule :: rest⟩ ⟨met, rest ++ rule.children⟩

variable {rules : Rules} {s t : Sweep}

theorem moves_of_next (stepped : s.next rules = some t) : Moves rules s t := by
  obtain ⟨met, queue⟩ := s
  cases queue with
  | nil => simp [next] at stepped
  | cons pattern rest =>
    cases pattern with
    | reference name =>
      by_cases known : name ∈ met
      · simp only [next, if_pos known, Option.some.injEq] at stepped
        exact stepped ▸ .again known
      · simp only [next, if_neg known, Option.some.injEq] at stepped
        exact stepped ▸ .meet known
    | inline rule =>
      simp only [next, Option.some.injEq] at stepped
      exact stepped ▸ .inline

theorem exists_next (rules : Rules) (more : s.queue ≠ []) : ∃ t, s.next rules = some t := by
  obtain ⟨met, queue⟩ := s
  cases queue with
  | nil => exact absurd rfl more
  | cons pattern rest =>
    cases pattern with
    | reference name => by_cases known : name ∈ met <;> simp [next, known]
    | inline rule => simp [next]

/-- The number of patterns that can still come to the front of the queue. -/
def left (rules : Rules) (s : Sweep) : Nat :=
  weightOf s.queue + weightUnmet s.met rules.entries

theorem Moves.left (moves : Moves rules s t) : t.left rules + 1 = s.left rules := by
  cases moves with
  | again known => simp only [Sweep.left, weightOf, Pattern.weight]; omega
  | @meet met rest name new =>
    have under : weightOf (childrenUnder rules name) =
        ((rules.entries.lookup name).map Rule.weight).getD 0 := by
      rw [childrenUnder, Table.get?]
      cases rules.entries.lookup name with
      | none => rfl
      | some rule => simp [Rule.weight_eq]
    have unmet := weightUnmet_cons rules.keys_nodup new
    simp only [Sweep.left, weightOf, Pattern.weight, weightOf_append, under]
    omega
  | inline => simp only [Sweep.left, weightOf, Pattern.weight, weightOf_append, Rule.weight_eq]; omega

theorem exists_end (rules : Rules) (s : Sweep) :
    ∃ n met, n ≤ s.left rules ∧ Runs rules n s ⟨met, []⟩ := by
  generalize bound : s.left rules = k
  induction k generalizing s with
  | zero =>
    by_cases empty : s.queue = []
    · obtain ⟨met, queue⟩ := s
      cases empty
      exact ⟨0, met, Nat.le_refl 0, .refl _⟩
    · obtain ⟨t, stepped⟩ := exists_next rules empty
      have less := (moves_of_next stepped).left
      omega
  | succ k ih =>
    by_cases empty : s.queue = []
    · obtain ⟨met, queue⟩ := s
      cases empty
      exact ⟨0, met, Nat.zero_le _, .refl _⟩
    · obtain ⟨t, stepped⟩ := exists_next rules empty
      have less := (moves_of_next stepped).left
      obtain ⟨n, met, few, rest⟩ := ih t (by omega)
      exact ⟨n + 1, met, by omega, .step stepped rest⟩

/-- The name has been met, or a pattern that is still to be looked at refers to it. -/
def Owes (s : Sweep) (name : String) : Prop := name ∈ s.met ∨ name ∈ referencesOf s.queue

theorem Moves.owes {name : String} (moves : Moves rules s t) (owed : s.Owes name) : t.Owes name := by
  cases moves with
  | again known =>
    rcases owed with met | queued
    · exact .inl met
    · rw [referencesOf, Pattern.references, List.singleton_append, List.mem_cons] at queued
      rcases queued with rfl | later
      · exact .inl known
      · exact .inr later
  | meet new =>
    rcases owed with met | queued
    · exact .inl (List.mem_cons_of_mem _ met)
    · rw [referencesOf, Pattern.references, List.singleton_append, List.mem_cons] at queued
      rcases queued with rfl | later
      · exact .inl (List.mem_cons_self ..)
      · exact .inr (by rw [referencesOf_append]; exact List.mem_append_left _ later)
  | inline =>
    rcases owed with met | queued
    · exact .inl met
    · refine .inr ?_
      rw [referencesOf, Pattern.references, Rule.references_eq, List.mem_append] at queued
      rw [referencesOf_append, List.mem_append]
      exact queued.symm

/-- What holds of a traversal from the entry at all times: all that is met or owed ends a chain, and
nothing is lost of what the entry and the rules met refer to. -/
structure Fits (r : Repository) (s : Sweep) : Prop where
  once : s.met.Nodup
  chains : ∀ name, s.Owes name → r.EndsChain name
  entry : ∀ name ∈ referencesOf r.entry, s.Owes name
  rules : ∀ name ∈ s.met, ∀ rule, r.rules.get? name = some rule →
    ∀ other ∈ rule.references, s.Owes other

variable {r : Repository}

theorem fits_start (r : Repository) : (start r).Fits r where
  once := List.nodup_nil
  chains name owed := by
    rcases owed with met | queued
    · cases met
    · exact Repository.endsChain_of_entry queued
  entry name refers := .inr refers
  rules name member := by cases member

theorem Moves.fits (moves : Moves r.rules s t) (fits : s.Fits r) : t.Fits r := by
  have entry : ∀ name ∈ referencesOf r.entry, t.Owes name := fun name refers =>
    moves.owes (fits.entry name refers)
  have kept : ∀ name ∈ s.met, ∀ rule, r.rules.get? name = some rule →
      ∀ other ∈ rule.references, t.Owes other := fun name met rule registered other refers =>
    moves.owes (fits.rules name met rule registered other refers)
  cases moves with
  | @again met rest name known =>
    refine ⟨fits.once, fun other owed => fits.chains other ?_, entry, kept⟩
    exact owed.imp_right fun queued => by simp [referencesOf, queued]
  | @meet met rest name new =>
    have first : r.EndsChain name :=
      fits.chains name (.inr (by simp [referencesOf, Pattern.references]))
    refine ⟨List.nodup_cons.2 ⟨new, fits.once⟩, fun other owed => ?_, entry,
      List.forall_mem_cons.2 ⟨fun rule registered other refers => ?_, kept⟩⟩
    · simp only [Owes, List.mem_cons, referencesOf_append, List.mem_append] at owed
      rcases owed with (rfl | there) | later | under
      · exact first
      · exact fits.chains other (.inl there)
      · exact fits.chains other (.inr (by simp [referencesOf, later]))
      · rw [childrenUnder] at under
        split at under
        · simp [referencesOf] at under
        · rename_i rule registered
          exact first.step registered (by rwa [Rule.references_eq])
    · refine .inr ?_
      rw [referencesOf_append, childrenUnder, registered, ← Rule.references_eq]
      exact List.mem_append_right _ refers
  | @inline met rest rule =>
    refine ⟨fits.once, fun other owed => fits.chains other ?_, entry, kept⟩
    refine owed.imp_right fun queued => ?_
    rw [referencesOf_append, List.mem_append] at queued
    rw [referencesOf, Pattern.references, Rule.references_eq, List.mem_append]
    exact queued.symm

theorem Runs.fits {n : Nat} (runs : Runs r.rules n s t) (fits : s.Fits r) : t.Fits r := by
  induction runs with
  | refl s => exact fits
  | step first _ ih => exact ih ((moves_of_next first).fits fits)

theorem Fits.met_iff {met : List String} (fits : Fits r ⟨met, []⟩)
    (registered : ∀ name, r.EndsChain name → ∃ rule, r.rules.get? name = some rule)
    {name : String} : name ∈ met ↔ r.EndsChain name := by
  have owed {name : String} (owes : Owes ⟨met, []⟩ name) : name ∈ met := by
    simpa [Owes, referencesOf] using owes
  refine ⟨fun there => fits.chains name (.inl there), fun ends => ends.least ?_⟩
  refine ⟨fun name refers => owed (fits.entry name refers), fun name there => ?_⟩
  obtain ⟨rule, is⟩ := registered name (fits.chains name (.inl there))
  exact ⟨rule, is, fun other refers => owed (fits.rules name there rule is other refers)⟩

end Sweep

namespace Repository

theorem follow_sound {rules : Rules} {live : String → Prop} (seen queue : List String)
    (noted : ∀ name ∈ seen, live name) (owed : ∀ name ∈ queue, live name)
    (step : ∀ name, live name → ∀ rule, rules.get? name = some rule →
      ∀ other ∈ rule.references, live other) : ∀ name ∈ follow rules seen queue, live name := by
  fun_induction follow rules seen queue with
  | case1 seen => exact noted
  | case2 seen name queue known ih => exact ih noted (List.forall_mem_cons.1 owed).2
  | case3 seen name queue new none ih => exact ih noted (List.forall_mem_cons.1 owed).2
  | case4 seen name queue new rule registered ih =>
    obtain ⟨first, later⟩ := List.forall_mem_cons.1 owed
    exact ih (List.forall_mem_cons.2 ⟨first, noted⟩)
      (List.forall_mem_append.2 ⟨later, step name first rule registered⟩)

variable {b : Builder} {entry : List Pattern} {r : Repository}

theorem mem_reachable_iff (built : b.build entry = .ok r) {name : String} :
    name ∈ r.reachable ↔ r.EndsChain name := by
  constructor
  · refine follow_sound [] _ (by simp) (fun name refers => endsChain_of_entry refers)
      (fun name ends rule registered other refers => ends.step registered refers) name
  · intro ends
    exact live_iff.1 (ends.least (closed_of_build built))

theorem names_ordered (r : Repository) :
    r.names.Pairwise fun a b => Text.bytes a < Text.bytes b :=
  List.pairwise_map.2 (r.rules.increasing.imp fun below =>
    Text.bytes_lt (compareOfLessAndEq_eq_lt.1 below))

/-- In a repository that has been built the traversal ends, after no more steps than there are
patterns. The names it meets are those that a chain of references from the entry ends in; the
unreachable names are the other registered ones, each once and in the order of their bytes. -/
theorem unreachable_of_build (built : b.build entry = .ok r) :
    ∃ steps met, steps ≤ r.weight ∧ Sweep.Runs r.rules steps (.start r) ⟨met, []⟩ ∧
      (∀ name, name ∈ met ↔ r.EndsChain name) ∧
      (∀ name ∈ r.names, name ∉ r.unreachable ↔ r.EndsChain name) ∧
      (met ++ r.unreachable).Perm r.names ∧
      r.unreachable.Nodup ∧ r.unreachable.Pairwise fun a b => Text.bytes a < Text.bytes b := by
  obtain ⟨steps, met, few, runs⟩ := Sweep.exists_end r.rules (.start r)
  have registered (name : String) (ends : r.EndsChain name) :
      ∃ rule, r.rules.get? name = some rule := by
    obtain ⟨rule, is, -⟩ := (closed_of_build built).rules name (ends.least (closed_of_build built))
    exact ⟨rule, is⟩
  have fits := runs.fits (Sweep.fits_start r)
  have reached (name : String) : name ∈ met ↔ r.EndsChain name := fits.met_iff registered
  have left (name : String) : name ∈ r.unreachable ↔ name ∈ r.names ∧ ¬ r.EndsChain name := by
    simp [unreachable, mem_reachable_iff built]
  have once : r.unreachable.Nodup := r.rules.keys_nodup.filter _
  refine ⟨steps, met, few, runs, reached, fun name named => ?_, ?_, once,
    r.names_ordered.filter _⟩
  · simp [left, named]
  · have apart : (met ++ r.unreachable).Nodup :=
      List.nodup_append.2 ⟨fits.once, once, fun name there other unreached same =>
        ((left other).1 unreached).2 ((reached other).1 (same ▸ there))⟩
    refine (List.perm_ext_iff_of_nodup apart r.rules.keys_nodup).2 fun name => ?_
    rw [List.mem_append, reached, left]
    constructor
    · rintro (ends | ⟨named, -⟩)
      · obtain ⟨rule, is⟩ := registered name ends
        exact Table.mem_keys_of_get? is
      · exact named
    · intro named
      by_cases ends : r.EndsChain name
      · exact .inl ends
      · exact .inr ⟨named, ends⟩

/-- Items that hold themselves, at some depth of a list that is given in place, and two rules beside
them that refer to each other. -/
def nested : Builder where
  metadata := ⟨"Example", "source.example", []⟩
  rules := .ofList [
    ("item", .anyOf [.reference "item", .inline (.anyOf [.reference "atom"])]),
    ("atom", .placeholder),
    ("left", .anyOf [.reference "right", .reference "item"]),
    ("Right", .anyOf [.reference "left"]),
    ("right", .anyOf [.reference "left"])]

theorem unreachable_of_build_nested :
    ∃ r, nested.build [.inline (.anyOf [.inline (.anyOf [.reference "item"])])] = .ok r ∧
      "atom" ∉ r.unreachable ∧ r.unreachable.Nodup ∧
      r.unreachable.Pairwise fun a b => Text.bytes a < Text.bytes b := by
  let entry : List Pattern := [.inline (.anyOf [.inline (.anyOf [.reference "item"])])]
  have clean : nested.defects entry = [] := by decide +kernel
  have built : nested.build entry = .ok ⟨nested.metadata, entry, nested.rules⟩ := by
    rw [build_eq, clean]
  obtain ⟨steps, met, -, -, -, reached, -, once, order⟩ := unreachable_of_build built
  refine ⟨_, built, (reached "atom" (by decide +kernel)).2 ?_, once, order⟩
  have item : Includes "item" entry :=
    .inside (List.mem_singleton_self _) (.inside (List.mem_singleton_self _)
      (.here (List.mem_singleton_self _)))
  have atom : Includes "atom" [.reference "item", .inline (.anyOf [.reference "atom"])] :=
    .inside (List.mem_cons_of_mem _ (List.mem_singleton_self _)) (.here (List.mem_singleton_self _))
  exact ⟨["item", "atom"], .cons item rfl (.single atom), rfl⟩

end Repository

end ScopeGrammar
