import ScopeGrammar.Proofs.Repository.Defects
import ScopeGrammar.Repository.Reachable

set_option autoImplicit false

namespace ScopeGrammar

theorem get?_isSome_of_contains {rules : Rules} {name : String} (held : rules.contains name = true) :
    ∃ rule, rules.get? name = some rule := Option.isSome_iff_exists.1 held

mutual

theorem exists_reference_inPattern {name : String} (site : Site) (pattern : Pattern)
    (member : name ∈ pattern.references) :
    ∃ part ∈ patternParts site pattern, part.pattern = .reference name :=
  match pattern with
  | .reference other => by
    rw [Pattern.references, List.mem_singleton] at member
    exact ⟨⟨site, .reference other⟩, by simp [patternParts], by rw [member]⟩
  | .inline rule => by
    rw [Pattern.references] at member
    obtain ⟨part, inside, is⟩ := exists_reference_inRule site rule member
    exact ⟨part, List.mem_cons_of_mem _ inside, is⟩

theorem exists_reference_inRule {name : String} (site : Site) (rule : Rule)
    (member : name ∈ rule.references) :
    ∃ part ∈ insideParts site rule, part.pattern = .reference name :=
  match rule with
  | .single rule => by simp [Rule.references] at member
  | .region region children => exists_reference_inPatterns site 0 children member
  | .anyOf children => exists_reference_inPatterns site 0 children member

theorem exists_reference_inPatterns {name : String} (site : Site) (i : Nat) (patterns : List Pattern)
    (member : name ∈ referencesOf patterns) :
    ∃ part ∈ childParts site i patterns, part.pattern = .reference name :=
  match patterns with
  | [] => by simp [referencesOf] at member
  | pattern :: rest => by
    rw [referencesOf, List.mem_append] at member
    rw [childParts]
    rcases member with here | later
    · obtain ⟨part, inside, is⟩ := exists_reference_inPattern (site.child i) pattern here
      exact ⟨part, List.mem_append_left _ inside, is⟩
    · obtain ⟨part, inside, is⟩ := exists_reference_inPatterns site (i + 1) rest later
      exact ⟨part, List.mem_append_right _ inside, is⟩

end

section Built

variable {b : Builder} {entry : List Pattern} {r : Repository}

theorem build_ok (built : b.build entry = .ok r) :
    b.defects entry = [] ∧ r = ⟨b.metadata, entry, b.rules⟩ := by
  rw [build_eq] at built
  cases defects : b.defects entry with
  | nil =>
    rw [defects] at built
    exact ⟨rfl, (Except.ok.inj built).symm⟩
  | cons defect rest => simp [defects] at built

/-- Nothing is wrong with any part of a repository that has been built. -/
theorem clean_of_build (built : b.build entry = .ok r) {part : Part}
    (member : part ∈ parts r.entry r.rules) : part.defects r.rules.contains = [] := by
  obtain ⟨none, rfl⟩ := build_ok built
  rw [Builder.defects, List.append_eq_nil_iff, List.flatMap_eq_nil_iff] at none
  exact none.2 part member

theorem registered_of_build (built : b.build entry = .ok r) {part : Part} {name : String}
    (member : part ∈ parts r.entry r.rules) (is : part.pattern = .reference name) :
    ∃ rule, r.rules.get? name = some rule := by
  have clean := clean_of_build built member
  simp only [Part.defects, is] at clean
  split at clean
  · rename_i known
    exact get?_isSome_of_contains known
  · simp at clean

theorem registered_of_entry (built : b.build entry = .ok r) :
    ∀ name ∈ referencesOf r.entry, ∃ rule, r.rules.get? name = some rule := by
  intro name member
  obtain ⟨part, inside, is⟩ := exists_reference_inPatterns (.top .entry) 0 _ member
  exact registered_of_build built (List.mem_append_left _ inside) is

theorem registered_of_rule (built : b.build entry = .ok r) {name : String} {rule : Rule}
    (registered : r.rules.get? name = some rule) :
    ∀ other ∈ rule.references, ∃ rule, r.rules.get? other = some rule := by
  intro other member
  obtain ⟨part, inside, is⟩ := exists_reference_inRule (.top (.rule name)) rule member
  refine registered_of_build built (List.mem_append_right _ (List.mem_flatMap.2
    ⟨(name, rule), Table.mem_entries_of_get? registered, List.mem_cons_of_mem _ inside⟩)) is

end Built

namespace Repository

section Follow

variable {rules : Rules} {name : String}

theorem follow_known {seen queue : List String} (known : name ∈ seen) :
    follow rules seen (name :: queue) = follow rules seen queue := by
  rw [follow, dif_pos known]

theorem follow_unregistered {seen queue : List String} (none : rules.get? name = none) :
    follow rules seen (name :: queue) = follow rules seen queue := by
  rw [follow]
  split
  · rfl
  · split
    · rfl
    · rename_i other same
      rw [none] at same
      cases same

theorem follow_new {seen queue : List String} {rule : Rule} (new : name ∉ seen)
    (registered : rules.get? name = some rule) :
    follow rules seen (name :: queue) = follow rules (name :: seen) (queue ++ rule.references) := by
  rw [follow, dif_neg new]
  split
  · rename_i none
    simp [registered] at none
  · rename_i other same
    rw [registered] at same
    cases same
    rfl

theorem subset_follow (seen queue : List String) : seen ⊆ follow rules seen queue := by
  fun_induction follow rules seen queue with
  | case1 seen => exact List.Subset.refl seen
  | case2 seen name queue known ih => exact ih
  | case3 seen name queue new registered ih => exact ih
  | case4 seen name queue new rule registered ih =>
    exact fun other member => ih (List.mem_cons_of_mem _ member)

theorem follow_registered (seen queue : List String)
    (registered : ∀ name ∈ seen, ∃ rule, rules.get? name = some rule) :
    ∀ name ∈ follow rules seen queue, ∃ rule, rules.get? name = some rule := by
  fun_induction follow rules seen queue with
  | case1 seen => exact registered
  | case2 seen name queue known ih => exact ih registered
  | case3 seen name queue new none ih => exact ih registered
  | case4 seen name queue new rule some ih =>
    exact ih (List.forall_mem_cons.2 ⟨⟨rule, some⟩, registered⟩)

theorem mem_follow_of_queue (seen queue : List String) {rule : Rule}
    (registered : rules.get? name = some rule) (queued : name ∈ queue) :
    name ∈ follow rules seen queue := by
  fun_induction follow rules seen queue with
  | case1 seen => simp at queued
  | case2 seen other queue known ih =>
    rcases List.mem_cons.1 queued with rfl | later
    · exact subset_follow _ _ known
    · exact ih later
  | case3 seen other queue new none ih =>
    rcases List.mem_cons.1 queued with rfl | later
    · simp [registered] at none
    · exact ih later
  | case4 seen other queue new rule some ih =>
    rcases List.mem_cons.1 queued with rfl | later
    · exact subset_follow _ _ (List.mem_cons_self ..)
    · exact ih (List.mem_append_left _ later)

theorem follow_closed (seen queue : List String)
    (kept : ∀ name ∈ seen, ∀ rule, rules.get? name = some rule → ∀ other ∈ rule.references,
      (∃ rule, rules.get? other = some rule) → other ∈ seen ∨ other ∈ queue) :
    ∀ name ∈ follow rules seen queue, ∀ rule, rules.get? name = some rule →
      ∀ other ∈ rule.references, (∃ rule, rules.get? other = some rule) →
        other ∈ follow rules seen queue := by
  fun_induction follow rules seen queue with
  | case1 seen =>
    intro name member rule registered other refers there
    simpa using kept name member rule registered other refers there
  | case2 seen first queue known ih =>
    refine ih fun name member rule registered other refers there => ?_
    rcases kept name member rule registered other refers there with followed | queued
    · exact .inl followed
    · rcases List.mem_cons.1 queued with rfl | later
      · exact .inl known
      · exact .inr later
  | case3 seen first queue new none ih =>
    refine ih fun name member rule registered other refers there => ?_
    rcases kept name member rule registered other refers there with followed | queued
    · exact .inl followed
    · rcases List.mem_cons.1 queued with rfl | later
      · obtain ⟨rule, some⟩ := there
        simp [some] at none
      · exact .inr later
  | case4 seen first queue new rule some ih =>
    refine ih (List.forall_mem_cons.2 ⟨fun rule' registered other refers _ => ?_,
      fun name member rule' registered other refers there => ?_⟩)
    · rw [some] at registered
      cases registered
      exact .inr (List.mem_append_right _ refers)
    · rcases kept name member rule' registered other refers there with followed | queued
      · exact .inl (List.mem_cons_of_mem _ followed)
      · rcases List.mem_cons.1 queued with rfl | later
        · exact .inl (List.mem_cons_self ..)
        · exact .inr (List.mem_append_left _ later)

end Follow

/-- The name is of a registered rule that can be reached from the entry. -/
def Live (r : Repository) (name : String) : Prop := name ∈ r.names ∧ name ∉ r.unreachable

theorem live_iff {r : Repository} {name : String} : r.Live name ↔ name ∈ r.reachable := by
  have registered : name ∈ r.reachable → name ∈ r.names := fun member => by
    obtain ⟨rule, some⟩ := follow_registered [] (referencesOf r.entry) (by simp) name member
    exact Table.mem_keys_of_get? some
  constructor
  · rintro ⟨named, reached⟩
    simpa [unreachable, named] using reached
  · intro member
    exact ⟨registered member, by simp [unreachable, member]⟩

/-- All names that the entry and rules with such names refer to are such names of registered rules. -/
structure Closed (r : Repository) (live : String → Prop) : Prop where
  entry : ∀ name ∈ referencesOf r.entry, live name
  rules : ∀ name, live name → ∃ rule, r.rules.get? name = some rule ∧
    ∀ other ∈ rule.references, live other

theorem closed_of_build {b : Builder} {entry : List Pattern} {r : Repository}
    (built : b.build entry = .ok r) : r.Closed r.Live where
  entry name member := by
    obtain ⟨rule, registered⟩ := registered_of_entry built name member
    exact live_iff.2 (mem_follow_of_queue _ _ registered member)
  rules name live := by
    have reached := live_iff.1 live
    obtain ⟨rule, registered⟩ := follow_registered [] (referencesOf r.entry) (by simp) name reached
    refine ⟨rule, registered, fun other refers => live_iff.2 ?_⟩
    exact follow_closed [] (referencesOf r.entry) (by simp) name reached rule registered other refers
      (registered_of_rule built registered other refers)

end Repository

end ScopeGrammar
