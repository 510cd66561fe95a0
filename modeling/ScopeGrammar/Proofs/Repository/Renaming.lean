import Mathlib.Data.List.Nodup
import ScopeGrammar.Proofs.Repository.Reachable
import ScopeGrammar.Proofs.Repository.Registering

/-!
Other names for the rules of a grammar, in their registrations and in all references. Where different
names stay different, what is wrong with the grammar, which rules are placeholders and which can be
reached are renamed with it.
-/

set_option autoImplicit false

namespace ScopeGrammar

mutual

def Rule.rename (σ : String → String) : Rule → Rule
  | .single rule => .single rule
  | .region region children => .region region (renamePatterns σ children)
  | .anyOf children => .anyOf (renamePatterns σ children)

def Pattern.rename (σ : String → String) : Pattern → Pattern
  | .reference name => .reference (σ name)
  | .inline rule => .inline (rule.rename σ)

def renamePatterns (σ : String → String) : List Pattern → List Pattern
  | [] => []
  | pattern :: rest => pattern.rename σ :: renamePatterns σ rest

end

def renameEntry (σ : String → String) (entry : String × Rule) : String × Rule :=
  (σ entry.1, entry.2.rename σ)

def Repository.rename (σ : String → String) (r : Repository) : Repository :=
  ⟨r.metadata, renamePatterns σ r.entry, .ofList (r.rules.entries.map (renameEntry σ))⟩

def Owner.rename (σ : String → String) : Owner → Owner
  | .rule name => .rule (σ name)
  | owner => owner

def Site.rename (σ : String → String) (site : Site) : Site := { site with owner := site.owner.rename σ }

def Defect.rename (σ : String → String) : Defect → Defect
  | .repeatedRule name => .repeatedRule (σ name)
  | .badRuleName name => .badRuleName (σ name)
  | .unresolved site name => .unresolved (site.rename σ) (σ name)
  | .captureOutOfRange site field index groups =>
    .captureOutOfRange (site.rename σ) field index groups
  | .emptyPattern site field => .emptyPattern (site.rename σ) field
  | .badPattern site field => .badPattern (site.rename σ) field
  | .badScope site scope => .badScope (site.rename σ) scope
  | .emptyEntry => .emptyEntry

def Part.rename (σ : String → String) (part : Part) : Part :=
  ⟨part.site.rename σ, part.pattern.rename σ⟩

section

variable {σ τ : String → String}

@[simp] theorem Site.rename_child (site : Site) (i : Nat) :
    (site.child i).rename σ = (site.rename σ).child i := rfl

@[simp] theorem Site.rename_top (owner : Owner) :
    (Site.top owner).rename σ = .top (owner.rename σ) := rfl

theorem Owner.rename_injective (injective : σ.Injective) : (Owner.rename σ).Injective := by
  intro a b same
  cases a <;> cases b <;> simp_all [Owner.rename, injective.eq_iff]

theorem Site.rename_injective (injective : σ.Injective) : (Site.rename σ).Injective := by
  rintro ⟨owner, path⟩ ⟨owner', path'⟩ same
  simp only [Site.rename, Site.mk.injEq] at same
  rw [Owner.rename_injective injective same.1, same.2]

theorem Rule.isPlaceholder_rename (rule : Rule) :
    (rule.rename σ).isPlaceholder = rule.isPlaceholder := by
  cases rule with
  | single | region => rfl
  | anyOf children => cases children <;> rfl

mutual

theorem Rule.references_rename (rule : Rule) :
    (rule.rename σ).references = rule.references.map σ :=
  match rule with
  | .single _ => rfl
  | .region _ children | .anyOf children => references_renamePatterns children

theorem Pattern.references_rename (pattern : Pattern) :
    (pattern.rename σ).references = pattern.references.map σ :=
  match pattern with
  | .reference _ => rfl
  | .inline rule => Rule.references_rename rule

theorem references_renamePatterns (patterns : List Pattern) :
    referencesOf (renamePatterns σ patterns) = (referencesOf patterns).map σ :=
  match patterns with
  | [] => rfl
  | pattern :: rest => by
    rw [renamePatterns, referencesOf, referencesOf, List.map_append,
      Pattern.references_rename pattern, references_renamePatterns rest]

end

mutual

theorem Rule.rename_congr (rule : Rule) (agree : ∀ name ∈ rule.references, σ name = τ name) :
    rule.rename σ = rule.rename τ :=
  match rule with
  | .single _ => rfl
  | .region region children => congrArg (Rule.region region) (renamePatterns_congr children agree)
  | .anyOf children => congrArg Rule.anyOf (renamePatterns_congr children agree)

theorem Pattern.rename_congr (pattern : Pattern)
    (agree : ∀ name ∈ pattern.references, σ name = τ name) : pattern.rename σ = pattern.rename τ :=
  match pattern with
  | .reference name => congrArg Pattern.reference (agree name (by simp [Pattern.references]))
  | .inline rule => congrArg Pattern.inline (Rule.rename_congr rule agree)

theorem renamePatterns_congr (patterns : List Pattern)
    (agree : ∀ name ∈ referencesOf patterns, σ name = τ name) :
    renamePatterns σ patterns = renamePatterns τ patterns :=
  match patterns with
  | [] => rfl
  | pattern :: rest => by
    simp only [referencesOf, List.forall_mem_append] at agree
    rw [renamePatterns, renamePatterns, Pattern.rename_congr pattern agree.1,
      renamePatterns_congr rest agree.2]

end

mutual

theorem patternParts_rename (site : Site) (pattern : Pattern) :
    patternParts (site.rename σ) (pattern.rename σ) =
      (patternParts site pattern).map (Part.rename σ) :=
  match pattern with
  | .reference _ => rfl
  | .inline rule => congrArg (List.cons _) (insideParts_rename site rule)

theorem insideParts_rename (site : Site) (rule : Rule) :
    insideParts (site.rename σ) (rule.rename σ) = (insideParts site rule).map (Part.rename σ) :=
  match rule with
  | .single _ => rfl
  | .region _ children | .anyOf children => childParts_rename site 0 children

theorem childParts_rename (site : Site) (i : Nat) (patterns : List Pattern) :
    childParts (site.rename σ) i (renamePatterns σ patterns) =
      (childParts site i patterns).map (Part.rename σ) :=
  match patterns with
  | [] => rfl
  | pattern :: rest => by
    rw [renamePatterns, childParts, childParts, List.map_append, ← childParts_rename site (i + 1) rest,
      ← patternParts_rename (site.child i) pattern, Site.rename_child]

end

section Defects

variable (site : Site) (field : Field) (f : Fragment)

theorem scopeDefects_rename (scope : Option String) :
    scopeDefects (site.rename σ) scope = (scopeDefects site scope).map (Defect.rename σ) := by
  simp [scopeDefects, Defect.rename]

theorem patternDefects_rename :
    patternDefects (site.rename σ) field f = (patternDefects site field f).map (Defect.rename σ) := by
  unfold patternDefects
  split
  · rfl
  · split <;> rfl

theorem captureDefect_rename (groups : Option Nat) (capture : Nat × String) :
    captureDefect (site.rename σ) field groups capture =
      (captureDefect site field groups capture).map (Defect.rename σ) := by
  unfold captureDefect
  split
  · split
    · rfl
    · exact scopeDefects_rename site _
  · exact scopeDefects_rename site _

theorem captureDefects_rename (captures : Captures) :
    captureDefects (site.rename σ) field f captures =
      (captureDefects site field f captures).map (Defect.rename σ) := by
  rw [captureDefects, captureDefects, List.map_flatMap]
  congr 1
  funext capture
  exact captureDefect_rename site field _ capture

theorem Part.defects_rename {known known' : String → Bool} (part : Part)
    (agree : ∀ name, known' (σ name) = known name) :
    (part.rename σ).defects known' = (part.defects known).map (Defect.rename σ) := by
  obtain ⟨site, pattern⟩ := part
  match pattern with
  | .reference name =>
    simp only [Part.rename, Pattern.rename, Part.defects, agree]
    split <;> rfl
  | .inline (.single rule) =>
    simp only [Part.rename, Pattern.rename, Rule.rename, Part.defects, List.map_append,
      patternDefects_rename, captureDefects_rename, scopeDefects_rename]
  | .inline (.region region children) =>
    simp only [Part.rename, Pattern.rename, Rule.rename, Part.defects, List.map_append,
      patternDefects_rename, captureDefects_rename, scopeDefects_rename]
  | .inline (.anyOf children) => rfl

end Defects

theorem keys_renameEntry (entries : List (String × Rule)) :
    (entries.map (renameEntry σ)).map (·.1) = (entries.map (·.1)).map σ := by
  simp [renameEntry]

theorem lookup_renameEntry (injective : σ.Injective) (entries : List (String × Rule))
    (name : String) :
    (entries.map (renameEntry σ)).lookup (σ name) = (entries.lookup name).map (Rule.rename σ) := by
  induction entries with
  | nil => rfl
  | cons entry rest ih =>
    rw [List.map_cons, lookup_cons_entry, lookup_cons_entry, ih]
    simp only [renameEntry, injective.eq_iff]
    split <;> rfl

namespace Repository

variable {r : Repository}

theorem keys_rename_nodup (injective : σ.Injective) :
    ((r.rules.entries.map (renameEntry σ)).map (·.1)).Nodup := by
  rw [keys_renameEntry]
  exact (List.nodup_map_iff injective).2 r.rules.keys_nodup

theorem get?_rename (injective : σ.Injective) (name : String) :
    (r.rename σ).rules.get? (σ name) = (r.rules.get? name).map (Rule.rename σ) := by
  rw [Repository.rename, Table.get?_ofList (keys_rename_nodup injective)]
  exact lookup_renameEntry injective _ name

theorem entries_rename (injective : σ.Injective) :
    (r.rename σ).rules.entries.Perm (r.rules.entries.map (renameEntry σ)) :=
  Table.entries_ofList (keys_rename_nodup injective)

theorem size_rename (injective : σ.Injective) : (r.rename σ).rules.size = r.rules.size := by
  rw [Table.size, (entries_rename injective).length_eq, List.length_map, Table.size]

theorem names_rename (injective : σ.Injective) : (r.rename σ).names.Perm (r.names.map σ) := by
  have order := (entries_rename (r := r) injective).map (·.1)
  rwa [keys_renameEntry] at order

theorem placeholders_rename (injective : σ.Injective) :
    (r.rename σ).placeholders.Perm (r.placeholders.map σ) := by
  have order := ((entries_rename (r := r) injective).filter fun entry => entry.2.isPlaceholder).map
    (·.1)
  simpa [placeholders, List.filter_map, Function.comp_def, renameEntry, Rule.isPlaceholder_rename]
    using order

theorem follow_rename {rules rules' : Rules} (injective : σ.Injective)
    (registered : ∀ name, rules'.get? (σ name) = (rules.get? name).map (Rule.rename σ))
    (seen queue : List String) :
    follow rules' (seen.map σ) (queue.map σ) = (follow rules seen queue).map σ := by
  have member (name : String) (names : List String) : σ name ∈ names.map σ ↔ name ∈ names :=
    List.mem_map_of_injective injective
  fun_induction follow rules seen queue with
  | case1 seen => rw [List.map_nil, follow]
  | case2 seen name queue known ih =>
    rw [List.map_cons, follow_known ((member name seen).2 known), ih]
  | case3 seen name queue new none ih =>
    rw [List.map_cons, follow_unregistered (by rw [registered, none]; rfl), ih]
  | case4 seen name queue new rule some ih =>
    rw [List.map_cons, follow_new (fun known => new ((member name seen).1 known))
      (by rw [registered, some]; rfl), Rule.references_rename, ← List.map_append, ← List.map_cons, ih]

theorem reachable_rename (injective : σ.Injective) :
    (r.rename σ).reachable = r.reachable.map σ := by
  rw [reachable, reachable, ← follow_rename injective (get?_rename injective)]
  exact congrArg _ (references_renamePatterns r.entry)

theorem unreachable_rename (injective : σ.Injective) :
    (r.rename σ).unreachable.Perm (r.unreachable.map σ) := by
  rw [unreachable, unreachable, reachable_rename injective]
  have order := (names_rename (r := r) injective).filter (· ∉ r.reachable.map σ)
  rw [List.filter_map] at order
  simpa only [Function.comp_def, List.mem_map_of_injective injective] using order

theorem part_of_rename (injective : σ.Injective) {part : Part}
    (member : part ∈ parts (r.rename σ).entry (r.rename σ).rules) :
    ∃ old ∈ parts r.entry r.rules, old.rename σ = part := by
  rcases List.mem_append.1 member with inEntry | registered
  · have same := childParts_rename (σ := σ) (.top .entry) 0 r.entry
    obtain ⟨old, there, rfl⟩ := List.mem_map.1 (same ▸ inEntry)
    exact ⟨old, List.mem_append_left _ there, rfl⟩
  · obtain ⟨entry, there, inside⟩ := List.mem_flatMap.1 registered
    obtain ⟨⟨name, rule⟩, held, rfl⟩ :=
      List.mem_map.1 ((entries_rename injective).mem_iff.1 there)
    have same := patternParts_rename (σ := σ) (.top (.rule name)) (.inline rule)
    obtain ⟨old, there, rfl⟩ := List.mem_map.1 (same ▸ inside)
    exact ⟨old, List.mem_append_right _ (List.mem_flatMap.2 ⟨_, held, there⟩), rfl⟩

theorem defects_rename {b : Builder} {entry : List Pattern} (built : b.build entry = .ok r)
    (injective : σ.Injective) :
    Builder.defects ⟨r.metadata, (r.rename σ).rules⟩ (renamePatterns σ entry) = [] := by
  obtain ⟨clean, rfl⟩ := build_ok built
  rw [Builder.defects, List.append_eq_nil_iff, List.append_eq_nil_iff,
    List.flatMap_eq_nil_iff] at clean ⊢
  obtain ⟨⟨stocked, root⟩, each⟩ := clean
  refine ⟨⟨?_, root⟩, fun part member => ?_⟩
  · cases entry with
    | nil => simp at stocked
    | cons => simp [renamePatterns]
  · have known (name : String) :
        ((Repository.rename σ ⟨b.metadata, entry, b.rules⟩).rules.contains (σ name)) =
          b.contains name := by
      rw [Table.contains, get?_rename injective, Option.isSome_map]
      rfl
    obtain ⟨old, there, rfl⟩ := part_of_rename (r := ⟨b.metadata, entry, b.rules⟩) injective member
    exact (Part.defects_rename old known).trans (congrArg (List.map _) (each old there))

theorem build_rename {b : Builder} {entry : List Pattern} (built : b.build entry = .ok r)
    (injective : σ.Injective) (valid : ∀ name ∈ r.names, IsName (σ name)) :
    ((Builder.new r.metadata).registerAll (r.rules.entries.map (renameEntry σ))).2 = none ∧
      ((Builder.new r.metadata).registerAll (r.rules.entries.map (renameEntry σ))).1.build
        (renamePatterns σ entry) = .ok (r.rename σ) := by
  have all : ((Builder.new r.metadata).registerAll (r.rules.entries.map (renameEntry σ))).2 = none := by
    refine Builder.registerAll_none_iff.2 ⟨fun call member => ?_, keys_rename_nodup injective⟩
    obtain ⟨entry, there, rfl⟩ := List.mem_map.1 member
    exact ⟨valid _ (List.mem_map_of_mem there), by simp [Builder.new, Table.empty, Table.keys]⟩
  have made : ((Builder.new r.metadata).registerAll (r.rules.entries.map (renameEntry σ))).1 =
      ⟨r.metadata, (r.rename σ).rules⟩ := Builder.registerAll_of_none all
  refine ⟨all, ?_⟩
  rw [made, build_eq, defects_rename built injective]
  rw [(build_ok built).2]
  rfl

theorem mem_names_of_placeholders {name : String} (member : name ∈ r.placeholders) :
    name ∈ r.names := by
  obtain ⟨entry, there, rfl⟩ := List.mem_map.1 member
  exact List.mem_map_of_mem (List.mem_of_mem_filter there)

section Congr

variable {b : Builder} {entry : List Pattern} (built : b.build entry = .ok r)
  (agree : ∀ name ∈ r.names, σ name = τ name)

include built agree

theorem entry_rename_congr : renamePatterns σ r.entry = renamePatterns τ r.entry := by
  refine renamePatterns_congr r.entry fun name refers => ?_
  obtain ⟨rule, registered⟩ := registered_of_entry built name refers
  exact agree name (Table.mem_keys_of_get? registered)

theorem rules_rename_congr :
    r.rules.entries.map (renameEntry σ) = r.rules.entries.map (renameEntry τ) := by
  refine List.map_congr_left fun entry member => ?_
  have registered := Table.get?_eq_some_iff.2 member
  refine Prod.ext (agree _ (Table.mem_keys_of_get? registered))
    (Rule.rename_congr entry.2 fun name refers => ?_)
  obtain ⟨rule, there⟩ := registered_of_rule built registered name refers
  exact agree name (Table.mem_keys_of_get? there)

theorem rename_congr : r.rename σ = r.rename τ := by
  rw [Repository.rename, Repository.rename, entry_rename_congr built agree,
    rules_rename_congr built agree]

end Congr

end Repository

end

end ScopeGrammar
