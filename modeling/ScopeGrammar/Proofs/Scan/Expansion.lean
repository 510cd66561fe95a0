import ScopeGrammar.Proofs.Scan.Enclosing
import ScopeGrammar.Proofs.Scan.Reach

/-!
The rules that can apply at a place are those that chains of references and choices lead to. A
chain that refers to a name twice is cut at the second time, and the chain without the detour is
followed in its stead.
-/

set_option autoImplicit false

namespace ScopeGrammar.Scan

/-- The children of a site, from the `i`th child on, where they stand. -/
def placed (site : Site) (i : Nat) : List Pattern → List Part
  | [] => []
  | pattern :: rest => ⟨site.child i, pattern⟩ :: placed site (i + 1) rest

theorem mem_placed {site : Site} {i : Nat} {children : List Pattern} {part : Part} :
    part ∈ placed site i children ↔
      ∃ j child, children[j]? = some child ∧ part = ⟨site.child (i + j), child⟩ := by
  induction children generalizing i with
  | nil => simp [placed]
  | cons pattern rest ih =>
    rw [placed, List.mem_cons, ih]
    constructor
    · rintro (rfl | ⟨j, child, there, rfl⟩)
      · exact ⟨0, pattern, rfl, rfl⟩
      · exact ⟨j + 1, child, there, by rw [Nat.add_assoc, Nat.add_comm 1 j]⟩
    · rintro ⟨j, child, there, rfl⟩
      cases j with
      | zero =>
        cases there
        exact .inl rfl
      | succ j => exact .inr ⟨j, child, there, by rw [Nat.add_assoc, Nat.add_comm 1 j]⟩

theorem childChain_iff {rules : Rules} {site : Site} {children : List Pattern}
    {names : List String} {leaf : Leaf} :
    ChildChain rules site children names leaf ↔
      ∃ part ∈ placed site 0 children, Chain rules part.site part.pattern names leaf := by
  constructor
  · rintro ⟨i, child, there, chain⟩
    exact ⟨_, mem_placed.2 ⟨i, child, there, rfl⟩, by rwa [Nat.zero_add]⟩
  · rintro ⟨part, member, chain⟩
    obtain ⟨i, child, there, rfl⟩ := mem_placed.1 member
    rw [Nat.zero_add] at chain
    exact ⟨i, child, there, chain⟩

/-- What is collected from patterns while the names are being followed. The derivations are the
runs of the recursion, with nothing but the names to bound them. -/
inductive Collects (rules : Rules) : List String → List Part → List Candidate → Prop where
  | nil {names : List String} : Collects rules names [] []
  | single {names : List String} {site : Site} {rule : MatchRule} {rest : List Part}
      {later : List Candidate} :
    Collects rules names rest later →
    Collects rules names (⟨site, .inline (.single rule)⟩ :: rest) (⟨.single rule, names⟩ :: later)
  | region {names : List String} {site : Site} {region : Region} {children : List Pattern}
      {rest : List Part} {later : List Candidate} :
    Collects rules names rest later →
    Collects rules names (⟨site, .inline (.region region children)⟩ :: rest)
      (⟨.region site region children, names⟩ :: later)
  | choice {names : List String} {site : Site} {children : List Pattern} {rest : List Part}
      {here later : List Candidate} :
    Collects rules names (placed site 0 children) here →
    Collects rules names rest later →
    Collects rules names (⟨site, .inline (.anyOf children)⟩ :: rest) (here ++ later)
  | followed {names : List String} {site : Site} {name : String} {rest : List Part}
      {later : List Candidate} :
    name ∈ names →
    Collects rules names rest later →
    Collects rules names (⟨site, .reference name⟩ :: rest) later
  | unknown {names : List String} {site : Site} {name : String} {rest : List Part}
      {later : List Candidate} :
    name ∉ names → rules.get? name = none →
    Collects rules names rest later →
    Collects rules names (⟨site, .reference name⟩ :: rest) later
  | reference {names : List String} {site : Site} {name : String} {rule : Rule}
      {rest : List Part} {here later : List Candidate} :
    name ∉ names → rules.get? name = some rule →
    Collects rules (names ++ [name]) [⟨.top (.rule name), .inline rule⟩] here →
    Collects rules names rest later →
    Collects rules names (⟨site, .reference name⟩ :: rest) (here ++ later)

section Collects

variable {rules : Rules} {names : List String} {parts : List Part} {out : List Candidate}

theorem Collects.unique (collected : Collects rules names parts out) {out' : List Candidate}
    (collected' : Collects rules names parts out') : out = out' := by
  induction collected generalizing out' with
  | nil =>
    cases collected'
    rfl
  | single _ ih =>
    cases collected' with
    | single rest => rw [ih rest]
  | region _ ih =>
    cases collected' with
    | region rest => rw [ih rest]
  | choice _ _ ihHere ih =>
    cases collected' with
    | choice here rest => rw [ihHere here, ih rest]
  | followed member _ ih =>
    cases collected' with
    | followed _ rest => exact ih rest
    | unknown new => exact absurd member new
    | reference new => exact absurd member new
  | unknown new missing _ ih =>
    cases collected' with
    | followed member => exact absurd member new
    | unknown _ _ rest => exact ih rest
    | reference _ registered =>
      rw [missing] at registered
      cases registered
  | reference new registered _ _ ihHere ih =>
    cases collected' with
    | followed member => exact absurd member new
    | unknown _ missing =>
      rw [missing] at registered
      cases registered
    | reference _ registered' here rest =>
      cases registered.symm.trans registered'
      rw [ihHere here, ih rest]

theorem Collects.cons {part : Part} {here later : List Candidate}
    (first : Collects rules names [part] here) (rest : Collects rules names parts later) :
    Collects rules names (part :: parts) (here ++ later) := by
  cases first with
  | single done =>
    cases done
    exact .single rest
  | region done =>
    cases done
    exact .region rest
  | choice inside done =>
    cases done
    rw [List.append_nil]
    exact .choice inside rest
  | followed member done =>
    cases done
    exact .followed member rest
  | unknown new missing done =>
    cases done
    exact .unknown new missing rest
  | reference new registered inside done =>
    cases done
    rw [List.append_nil]
    exact .reference new registered inside rest

/-- A candidate is at the end of a chain from one of the patterns, which goes on where the names
end and refers to no name twice. -/
def Candidate.Ending (rules : Rules) (names : List String) (parts : List Part) (c : Candidate) :
    Prop :=
  ∃ part ∈ parts, ∃ more, c.names = names ++ more ∧ c.names.Nodup ∧
    Chain rules part.site part.pattern more c.leaf

theorem Candidate.Ending.later {c : Candidate} (ending : c.Ending rules names parts)
    {part : Part} : c.Ending rules names (part :: parts) := by
  obtain ⟨part, there, found⟩ := ending
  exact ⟨part, List.mem_cons_of_mem _ there, found⟩

theorem Collects.ending (collected : Collects rules names parts out) (different : names.Nodup) :
    ∀ c ∈ out, c.Ending rules names parts := by
  induction collected with
  | nil => simp
  | single _ ih =>
    rw [List.forall_mem_cons]
    exact ⟨⟨_, List.mem_cons_self .., [], by simp, different, .single⟩,
      fun c member => (ih different c member).later⟩
  | region _ ih =>
    rw [List.forall_mem_cons]
    exact ⟨⟨_, List.mem_cons_self .., [], by simp, different, .region⟩,
      fun c member => (ih different c member).later⟩
  | choice _ _ ihHere ih =>
    rw [List.forall_mem_append]
    refine ⟨fun c member => ?_, fun c member => (ih different c member).later⟩
    obtain ⟨part, there, more, same, once, chain⟩ := ihHere different c member
    obtain ⟨j, child, at', rfl⟩ := mem_placed.1 there
    rw [Nat.zero_add] at chain
    exact ⟨_, List.mem_cons_self .., more, same, once, .choice at' chain⟩
  | followed _ _ ih | unknown _ _ _ ih =>
    exact fun c member => (ih different c member).later
  | @reference names site name rule rest here later new registered _ _ ihHere ih =>
    rw [List.forall_mem_append]
    refine ⟨fun c member => ?_, fun c member => (ih different c member).later⟩
    obtain ⟨part, there, more, same, once, chain⟩ :=
      ihHere (nodup_append_new different new) c member
    rw [List.mem_singleton] at there
    subst there
    rw [List.append_assoc, List.singleton_append] at same
    exact ⟨_, List.mem_cons_self .., name :: more, same, once, .reference registered chain⟩

/-- A chain that refers to no name twice, and to none that is being followed, gives a candidate. -/
theorem Collects.complete (collected : Collects rules names parts out) {part : Part}
    (member : part ∈ parts) {more : List String} {leaf : Leaf}
    (chain : Chain rules part.site part.pattern more leaf) (once : (names ++ more).Nodup) :
    ⟨leaf, names ++ more⟩ ∈ out := by
  induction collected generalizing part more with
  | nil => simp at member
  | single _ ih =>
    rcases List.mem_cons.1 member with rfl | later
    · cases chain
      simp
    · exact List.mem_cons_of_mem _ (ih later chain once)
  | region _ ih =>
    rcases List.mem_cons.1 member with rfl | later
    · cases chain
      simp
    · exact List.mem_cons_of_mem _ (ih later chain once)
  | choice _ _ ihHere ih =>
    rcases List.mem_cons.1 member with rfl | later
    · cases chain with
      | choice there chain =>
        refine List.mem_append_left _ (ihHere (mem_placed.2 ⟨_, _, there, rfl⟩) ?_ once)
        rwa [Nat.zero_add]
    · exact List.mem_append_right _ (ih later chain once)
  | followed twice _ ih =>
    rcases List.mem_cons.1 member with rfl | later
    · cases chain with
      | reference => exact absurd rfl ((List.nodup_append.1 once).2.2 _ twice _ (by simp))
    · exact ih later chain once
  | unknown _ missing _ ih =>
    rcases List.mem_cons.1 member with rfl | later
    · cases chain with
      | reference registered =>
        rw [missing] at registered
        cases registered
    · exact ih later chain once
  | reference _ registered _ _ ihHere ih =>
    rcases List.mem_cons.1 member with rfl | later
    · cases chain with
      | reference registered' chain =>
        cases registered.symm.trans registered'
        rw [List.append_cons] at once ⊢
        exact List.mem_append_left _ (ihHere (List.mem_singleton.2 rfl) chain once)
    · exact List.mem_append_right _ (ih later chain once)

end Collects

section Expand

variable {rules : Rules} {follow : List String → String → List Candidate} {names : List String}

mutual

theorem expandRule_collects
    (follows : ∀ name site, Collects rules names [⟨site, .reference name⟩] (follow names name))
    (site : Site) (rule : Rule) :
    Collects rules names [⟨site, .inline rule⟩] (expandRule follow names site rule) :=
  match rule with
  | .single rule => .single .nil
  | .region region children => .region .nil
  | .anyOf children => by
    have inside := expandPatterns_collects follows site 0 children
    rw [expandRule, ← List.append_nil (expandPatterns ..)]
    exact .choice inside .nil

theorem expandPattern_collects
    (follows : ∀ name site, Collects rules names [⟨site, .reference name⟩] (follow names name))
    (site : Site) (pattern : Pattern) :
    Collects rules names [⟨site, pattern⟩] (expandPattern follow names site pattern) :=
  match pattern with
  | .reference name => follows name site
  | .inline rule => expandRule_collects follows site rule

theorem expandPatterns_collects
    (follows : ∀ name site, Collects rules names [⟨site, .reference name⟩] (follow names name))
    (site : Site) (i : Nat) (children : List Pattern) :
    Collects rules names (placed site i children) (expandPatterns follow names site i children) :=
  match children with
  | [] => .nil
  | pattern :: rest =>
    (expandPattern_collects follows (site.child i) pattern).cons
      (expandPatterns_collects follows site (i + 1) rest)

end

theorem followReference_collects (room : Nat) (different : names.Nodup)
    (among : names ⊆ rules.keys) (enough : rules.size ≤ room + names.length) (name : String)
    (site : Site) :
    Collects rules names [⟨site, .reference name⟩] (followReference rules room names name) := by
  induction room generalizing names name site with
  | zero =>
    by_cases member : name ∈ names
    · exact .followed member .nil
    · refine .unknown member ?_ .nil
      by_contra held
      obtain ⟨rule, registered⟩ := Option.ne_none_iff_exists'.1 held
      have full := contains_of_full different among (by simpa using enough)
        (Table.mem_keys_of_get? registered)
      exact member (List.contains_iff_mem.1 full)
  | succ room ih =>
    rw [followReference]
    by_cases member : name ∈ names
    · rw [if_pos (List.contains_iff_mem.2 member)]
      exact .followed member .nil
    · rw [if_neg (by simpa using member)]
      cases registered : rules.get? name with
      | none => exact .unknown member registered .nil
      | some rule =>
        have different' := nodup_append_new different member
        have among' : names ++ [name] ⊆ rules.keys :=
          List.append_subset.2 ⟨among, by simpa using Table.mem_keys_of_get? registered⟩
        have enough' : rules.size ≤ room + (names ++ [name]).length := by
          rw [List.length_append, List.length_singleton]
          omega
        have inside := expandRule_collects (ih different' among' enough') (.top (.rule name)) rule
        have followed : Collects rules names [⟨site, .reference name⟩] _ :=
          .reference member registered inside .nil
        rwa [List.append_nil] at followed

end Expand

section Chains

variable {rules : Rules} {site : Site} {pattern : Pattern} {names : List String} {leaf : Leaf}

theorem Chain.behind (chain : Chain rules site pattern names leaf) {name : String}
    (member : name ∈ names) :
    ∃ rule tail, rules.get? name = some rule ∧ name :: tail <:+ names ∧
      Chain rules (.top (.rule name)) (.inline rule) tail leaf := by
  induction chain with
  | single => simp at member
  | region => simp at member
  | choice _ _ ih => exact ih member
  | @reference _ first rule names _ registered rest ih =>
    rcases List.mem_cons.1 member with rfl | later
    · exact ⟨rule, names, registered, List.suffix_rfl, rest⟩
    · obtain ⟨rule', tail, registered', ends, chain⟩ := ih later
      exact ⟨rule', tail, registered', ends.trans (List.suffix_cons ..), chain⟩

/-- Without its detours a chain refers to no name twice, and leads to the same leaf. -/
theorem Chain.shorten (chain : Chain rules site pattern names leaf) :
    ∃ names', List.Sublist names' names ∧ names'.Nodup ∧
      Chain rules site pattern names' leaf := by
  induction chain with
  | single => exact ⟨[], .slnil, .nil, .single⟩
  | region => exact ⟨[], .slnil, .nil, .region⟩
  | choice there _ ih =>
    obtain ⟨names', within, once, chain⟩ := ih
    exact ⟨names', within, once, .choice there chain⟩
  | @reference site name rule names leaf registered _ ih =>
    obtain ⟨names', within, once, chain⟩ := ih
    by_cases member : name ∈ names'
    · -- The shorter chain comes back to the name, and what leads there is left out.
      obtain ⟨rule', tail, registered', ends, chain'⟩ := chain.behind member
      exact ⟨name :: tail, (ends.sublist.trans within).trans (List.sublist_cons_self ..),
        once.sublist ends.sublist, .reference registered' chain'⟩
    · exact ⟨name :: names', within.cons_cons name, List.nodup_cons.2 ⟨member, once⟩,
        .reference registered chain⟩

end Chains

section Candidates

variable (rules : Rules) (site : Site) (children : List Pattern)

theorem candidates_collects :
    Collects rules [] (placed site 0 children) (candidates rules site children) :=
  expandPatterns_collects
    (followReference_collects rules.size .nil (List.nil_subset _) (Nat.le_add_right ..))
    site 0 children

theorem mem_candidates_iff {leaf : Leaf} {names : List String} :
    ⟨leaf, names⟩ ∈ candidates rules site children ↔
      ChildChain rules site children names leaf ∧ names.Nodup := by
  have collected := candidates_collects rules site children
  rw [childChain_iff]
  constructor
  · intro member
    obtain ⟨part, there, more, same, once, chain⟩ := collected.ending .nil _ member
    rw [List.nil_append] at same
    subst same
    exact ⟨⟨part, there, chain⟩, once⟩
  · rintro ⟨⟨part, there, chain⟩, once⟩
    exact collected.complete there chain once

/-- Collecting the candidates of a list of children comes to an end, with one result. There is a
candidate for each chain of references and choices that refers to no name twice, known by the names
in their order, and no other candidate; what any chain leads to is among them, by way of some of its
names. -/
theorem candidates_sound_complete :
    (∀ out, Collects rules [] (placed site 0 children) out ↔
      out = candidates rules site children) ∧
    (∀ c : Candidate, c ∈ candidates rules site children ↔
      ChildChain rules site children c.names c.leaf ∧ c.names.Nodup) ∧
    (∀ leaf, (∃ c ∈ candidates rules site children, c.leaf = leaf) ↔
      ∃ names, ChildChain rules site children names leaf) ∧
    ∀ names leaf, ChildChain rules site children names leaf →
      ∃ names', List.Sublist names' names ∧ ⟨leaf, names'⟩ ∈ candidates rules site children := by
  have kept : ∀ names leaf, ChildChain rules site children names leaf →
      ∃ names', List.Sublist names' names ∧ ⟨leaf, names'⟩ ∈ candidates rules site children := by
    rintro names leaf ⟨i, child, there, chain⟩
    obtain ⟨names', within, once, shorter⟩ := chain.shorten
    exact ⟨names', within, (mem_candidates_iff ..).2 ⟨⟨i, child, there, shorter⟩, once⟩⟩
  refine ⟨fun out => ⟨fun collected => ?_, fun same => ?_⟩, fun c => mem_candidates_iff ..,
    fun leaf => ⟨?_, ?_⟩, kept⟩
  · exact collected.unique (candidates_collects rules site children)
  · exact same ▸ candidates_collects rules site children
  · rintro ⟨c, member, rfl⟩
    exact ⟨c.names, ((mem_candidates_iff ..).1 member).1⟩
  · rintro ⟨names, chain⟩
    obtain ⟨names', -, member⟩ := kept names leaf chain
    exact ⟨_, member, rfl⟩

end Candidates

def word : MatchRule := ⟨.ofString "[a-z]+", some "variable.name", .empty⟩

def circular : Rules :=
  (Table.empty.insert "item" (.anyOf [.reference "group", .inline (.single word)])).insert "group"
    (.anyOf [.reference "item"])

/-- A chain that goes around once more leads to the word that is found without going around. -/
theorem candidates_sound_complete_circular :
    (candidates circular (.top .entry) [.reference "group"]).map (·.names) = [["group", "item"]] ∧
      ∃ names', List.Sublist names' ["group", "item", "group", "item"] ∧
        ⟨.single word, names'⟩ ∈ candidates circular (.top .entry) [.reference "group"] := by
  have item : circular.get? "item" =
      some (.anyOf [.reference "group", .inline (.single word)]) := rfl
  have group : circular.get? "group" = some (.anyOf [.reference "item"]) := rfl
  have inner : Chain circular ((Site.top (.rule "item")).child 0) (.reference "group")
      ["group", "item"] (.single word) :=
    .reference group (.choice (i := 0) rfl (.reference item (.choice (i := 1) rfl .single)))
  have around : Chain circular ((Site.top .entry).child 0) (.reference "group")
      ["group", "item", "group", "item"] (.single word) :=
    .reference group (.choice (i := 0) rfl (.reference item (.choice (i := 0) rfl inner)))
  exact ⟨rfl, (candidates_sound_complete circular (.top .entry) [.reference "group"]).2.2.2 _ _
    ⟨0, _, rfl, around⟩⟩

end ScopeGrammar.Scan
