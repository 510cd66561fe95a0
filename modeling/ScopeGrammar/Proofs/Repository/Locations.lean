import Mathlib.Data.List.Nodup
import ScopeGrammar.Proofs.Repository.Defects
import ScopeGrammar.Proofs.Repository.Registering

/-!
Whether the text of a site tells the site. The way down from an owner can be read off the text, and
so can the name of the owner; but a rule may be named as the metadata or the entry are called, and
then the two have texts in common.
-/

set_option autoImplicit false

namespace ScopeGrammar

section Listed

variable {site : Site} {pattern child found : Pattern} {path : List Nat} {part : Part}

theorem mem_childParts {patterns : List Pattern} {start i : Nat} (is : patterns[i]? = some child)
    (inside : part ∈ patternParts (site.child (start + i)) child) :
    part ∈ childParts site start patterns := by
  induction patterns generalizing start i with
  | nil => simp at is
  | cons first rest ih =>
    rw [childParts, List.mem_append]
    cases i with
    | zero =>
      cases is
      exact .inl inside
    | succ i =>
      refine .inr (ih is ?_)
      rwa [Nat.add_right_comm, Nat.add_assoc]

theorem mem_patternParts_of_child {i : Nat} (is : pattern.children[i]? = some child)
    (inside : part ∈ patternParts (site.child i) child) : part ∈ patternParts site pattern := by
  have below : part ∈ childParts site 0 pattern.children := mem_childParts is (by rwa [Nat.zero_add])
  cases pattern with
  | reference name => simp [Pattern.children] at is
  | inline rule =>
    refine List.mem_cons_of_mem _ ?_
    cases rule with
    | single rule => simp [Pattern.children, Rule.children] at is
    | region region children => exact below
    | anyOf children => exact below

theorem mem_patternParts_of_under (site : Site) (leads : pattern.under path = some found) :
    ⟨⟨site.owner, site.path ++ path⟩, found⟩ ∈ patternParts site pattern := by
  induction path generalizing site pattern with
  | nil =>
    obtain rfl : pattern = found := Option.some.inj leads
    rw [List.append_nil]
    cases pattern <;> simp [patternParts]
  | cons i path ih =>
    obtain ⟨child, is, leads⟩ := Option.bind_eq_some_iff.1 leads
    refine mem_patternParts_of_child is ?_
    have deeper := ih (site.child i) leads
    simpa [Site.child] using deeper

variable {entry : List Pattern} {rules : Rules}

theorem mem_parts_iff :
    part ∈ parts entry rules ↔
      patternAt? entry rules part.site = some part.pattern ∧ part.site ≠ .top .entry := by
  constructor
  · intro listed
    refine ⟨patternAt?_of_mem_parts listed, ?_⟩
    rcases List.mem_append.1 listed with inEntry | registered
    · obtain ⟨i, child, -, path, same, -⟩ := childParts_below _ 0 entry part inEntry
      rw [same]
      simp [Site.top, Site.child]
    · obtain ⟨rule, -, inside⟩ := List.mem_flatMap.1 registered
      obtain ⟨path, same, -⟩ := patternParts_below _ _ part inside
      rw [same]
      simp [Site.top]
  · rintro ⟨stands, inner⟩
    rw [parts, List.mem_append]
    obtain ⟨⟨owner, path⟩, pattern⟩ := part
    cases owner with
    | entry =>
      cases path with
      | nil => exact absurd rfl inner
      | cons i path =>
        obtain ⟨child, is, leads⟩ := Option.bind_eq_some_iff.1 stands
        have inside := mem_patternParts_of_under ((Site.top .entry).child (0 + i)) leads
        rw [Nat.zero_add] at inside
        exact .inl (mem_childParts is (by rwa [Nat.zero_add]))
    | rule name =>
      obtain ⟨rule, registered, leads⟩ := Option.bind_eq_some_iff.1 stands
      refine .inr (List.mem_flatMap.2 ⟨(name, rule), Table.mem_entries_of_get? registered, ?_⟩)
      exact mem_patternParts_of_under _ leads
    | metadata | setting | search => cases stands

end Listed

section Once

variable {site : Site} {part : Part}

theorem site_of_mem_childParts {start : Nat} {patterns : List Pattern}
    (listed : part ∈ childParts site start patterns) :
    ∃ i path, start ≤ i ∧ part.site = ⟨site.owner, site.path ++ i :: path⟩ := by
  obtain ⟨i, child, -, path, same, -⟩ := childParts_below site start patterns part listed
  exact ⟨start + i, path, Nat.le_add_right .., by simp [same, Site.child]⟩

theorem site_ne_of_mem_insideParts {rule : Rule} (listed : part ∈ insideParts site rule) :
    part.site ≠ site := by
  have deeper {patterns : List Pattern} (listed : part ∈ childParts site 0 patterns) :
      part.site ≠ site := by
    obtain ⟨i, path, -, same⟩ := site_of_mem_childParts listed
    intro equal
    simpa [same] using congrArg Site.path equal
  cases rule with
  | single rule => simp [insideParts] at listed
  | region region children => exact deeper listed
  | anyOf children => exact deeper listed

mutual

theorem nodup_patternParts (site : Site) (pattern : Pattern) :
    ((patternParts site pattern).map (·.site)).Nodup :=
  match pattern with
  | .reference name => by simp [patternParts]
  | .inline rule => by
    refine List.nodup_cons.2 ⟨fun again => ?_, nodup_insideParts site rule⟩
    obtain ⟨part, inside, same⟩ := List.mem_map.1 again
    exact site_ne_of_mem_insideParts inside same

theorem nodup_insideParts (site : Site) (rule : Rule) :
    ((insideParts site rule).map (·.site)).Nodup :=
  match rule with
  | .single _ => List.nodup_nil
  | .region _ children | .anyOf children => nodup_childParts site 0 children

theorem nodup_childParts (site : Site) (start : Nat) (patterns : List Pattern) :
    ((childParts site start patterns).map (·.site)).Nodup :=
  match patterns with
  | [] => List.nodup_nil
  | pattern :: rest => by
    rw [childParts, List.map_append, List.nodup_append]
    refine ⟨nodup_patternParts _ pattern, nodup_childParts site (start + 1) rest, ?_⟩
    simp only [List.forall_mem_map]
    intro first here second later same
    obtain ⟨path, site', -⟩ := patternParts_below _ pattern first here
    obtain ⟨i, path', behind, site''⟩ := site_of_mem_childParts later
    have ways : site.path ++ start :: path = site.path ++ i :: path' := by
      simpa [site', site'', Site.child] using congrArg Site.path same
    have index : start = i := (List.cons.inj (List.append_cancel_left ways)).1
    omega

end

theorem nodup_sites_parts (entry : List Pattern) (rules : Rules) :
    ((parts entry rules).map (·.site)).Nodup := by
  have owner {name : String} {rule : Rule} {part : Part}
      (inside : part ∈ patternParts (.top (.rule name)) (.inline rule)) :
      part.site.owner = .rule name := by
    obtain ⟨path, same, -⟩ := patternParts_below _ _ part inside
    rw [same]
    rfl
  rw [parts, List.map_append, List.nodup_append]
  refine ⟨nodup_childParts _ 0 entry, ?_, ?_⟩
  · rw [List.map_flatMap, List.nodup_flatMap]
    have names : rules.entries.Pairwise fun a b => a.1 ≠ b.1 := List.pairwise_map.1 rules.keys_nodup
    refine ⟨fun rule _ => nodup_patternParts _ _, names.imp fun differ site here there => differ ?_⟩
    obtain ⟨part, listed, same⟩ := List.mem_map.1 here
    obtain ⟨other, listed', same'⟩ := List.mem_map.1 there
    have owners := congrArg Site.owner (same.trans same'.symm)
    rw [owner listed, owner listed'] at owners
    exact Owner.rule.inj owners
  · simp only [List.forall_mem_map, List.mem_flatMap]
    rintro first inEntry second ⟨rule, -, there⟩ same
    obtain ⟨i, path, -, site⟩ := site_of_mem_childParts inEntry
    have owners : first.site.owner = second.site.owner := congrArg Site.owner same
    rw [site, owner there] at owners
    cases owners

end Once

def stepText (i : Nat) : List Char :=
  [' ', '>', ' ', 'p', 'a', 't', 't', 'e', 'r', 'n', 's', '['] ++ Nat.toDigits 10 i ++ [']']

section Text

variable {s t : Site}

theorem toList_text (s : Site) : s.text.toList = s.owner.text.toList ++ s.path.flatMap stepText := by
  obtain ⟨owner, path⟩ := s
  have steps (text : String) :
      (path.foldl (fun text i => text ++ " > patterns[" ++ toString i ++ "]") text).toList =
        text.toList ++ path.flatMap stepText := by
    induction path generalizing text with
    | nil => simp
    | cons i path ih =>
      rw [List.foldl_cons, ih, List.flatMap_cons, stepText]
      simp [Nat.toString_eq_repr, Nat.repr]
  exact steps owner.text

theorem cut_unique {c : Char} {front front' rest rest' : List Char} (without : c ∉ front)
    (without' : c ∉ front') (same : front ++ c :: rest = front' ++ c :: rest') :
    front = front' ∧ rest = rest' := by
  rcases List.append_eq_append_iff.1 same with ⟨more, rfl, behind⟩ | ⟨more, rfl, behind⟩
  all_goals cases more with
  | nil => simp_all
  | cons d more =>
    obtain ⟨rfl, -⟩ := List.cons.inj behind
    simp at without without'

theorem stepText_append_inj {i j : Nat} {rest rest' : List Char}
    (same : stepText i ++ rest = stepText j ++ rest') : i = j ∧ rest = rest' := by
  have inert (n : Nat) : ']' ∉ Nat.toDigits 10 n := fun bracket =>
    absurd (Nat.isDigit_of_mem_toDigits (by decide) (by decide) bracket) (by decide)
  simp only [stepText, List.append_assoc, List.append_cancel_left_eq, List.singleton_append] at same
  obtain ⟨digits, rest⟩ := cut_unique (inert i) (inert j) same
  refine ⟨?_, rest⟩
  rw [← Nat.ofDigitChars_ten_toDigits (n := i), digits, Nat.ofDigitChars_ten_toDigits]

theorem flatMap_stepText_injective {path path' : List Nat}
    (same : path.flatMap stepText = path'.flatMap stepText) : path = path' := by
  induction path generalizing path' with
  | nil =>
    cases path' with
    | nil => rfl
    | cons i path' => simp [stepText] at same
  | cons i path ih =>
    cases path' with
    | nil => simp [stepText] at same
    | cons i' path' =>
      obtain ⟨rfl, later⟩ := stepText_append_inj same
      rw [ih later]

theorem exists_blank (path : List Nat) :
    ∃ rest, path.flatMap stepText ++ [' '] = ' ' :: rest := by
  cases path with
  | nil => exact ⟨[], rfl⟩
  | cons i path => exact ⟨_, by rw [List.flatMap_cons, stepText, List.cons_append]; rfl⟩

/-- Where the names of owners have no blank, a text tells the name and the way. -/
theorem text_eq_iff (plain : ' ' ∉ s.owner.text.toList) (plain' : ' ' ∉ t.owner.text.toList) :
    s.text = t.text ↔ s.owner.text = t.owner.text ∧ s.path = t.path := by
  rw [← String.toList_inj, ← String.toList_inj, toList_text, toList_text]
  constructor
  · intro same
    obtain ⟨rest, blank⟩ := exists_blank s.path
    obtain ⟨rest', blank'⟩ := exists_blank t.path
    have ends := congrArg (· ++ [' ']) same
    simp only [List.append_assoc, blank, blank'] at ends
    obtain ⟨owners, -⟩ := cut_unique plain plain' ends
    rw [owners, List.append_cancel_left_eq] at same
    exact ⟨owners, flatMap_stepText_injective same⟩
  · rintro ⟨owner, path⟩
    rw [owner, path]

end Text

/-- Two sites with one text: of the metadata and of a rule that is named as they are, or the same way
down from the entry and from a rule that is named as the entry is. -/
inductive Site.Shares : Site → Site → Prop where
  | metadata : Shares (.top .metadata) (.top (.rule "metadata"))
  | entry (i : Nat) (path : List Nat) : Shares ⟨.entry, i :: path⟩ ⟨.rule "patterns", i :: path⟩

theorem Site.Shares.text_eq {s t : Site} (shares : s.Shares t) : s.text = t.text := by
  cases shares <;> rfl

theorem Site.Shares.ne {s t : Site} (shares : s.Shares t) : s ≠ t := by
  cases shares <;> simp [Site.top]

namespace Builder

/-- The sites that a check gives a text: of the metadata and of all rules and references. -/
def sites (b : Builder) (entry : List Pattern) : List Site :=
  .top .metadata :: (parts entry b.rules).map (·.site)

section Sites

variable {b : Builder} {entry : List Pattern} {s t : Site}

theorem mem_sites_iff :
    s ∈ b.sites entry ↔
      s = .top .metadata ∨ (patternAt? entry b.rules s).isSome ∧ s ≠ .top .entry := by
  simp only [sites, List.mem_cons, List.mem_map, mem_parts_iff, Option.isSome_iff_exists]
  refine or_congr_right ⟨?_, ?_⟩
  · rintro ⟨part, stands, rfl⟩
    exact ⟨⟨_, stands.1⟩, stands.2⟩
  · rintro ⟨⟨pattern, stands⟩, inner⟩
    exact ⟨⟨s, pattern⟩, ⟨stands, inner⟩, rfl⟩

theorem nodup_sites (b : Builder) (entry : List Pattern) : (b.sites entry).Nodup := by
  refine List.nodup_cons.2 ⟨fun listed => ?_, nodup_sites_parts entry b.rules⟩
  obtain ⟨part, listed, same⟩ := List.mem_map.1 listed
  have stands := (mem_parts_iff.1 listed).1
  rw [same] at stands
  cases stands

/-- What a site that is listed belongs to, and that the entry itself is not listed. -/
inductive Listed (b : Builder) (entry : List Pattern) : Site → Prop where
  | metadata : Listed b entry (.top .metadata)
  | entry {i : Nat} (inside : i < entry.length) (path : List Nat) : Listed b entry ⟨.entry, i :: path⟩
  | rule {name : String} {rule : Rule} (registered : b.rules.get? name = some rule) (path : List Nat)
      (inside : path ≠ [] → rule.children ≠ []) : Listed b entry ⟨.rule name, path⟩

theorem listed_of_mem (listed : s ∈ b.sites entry) : Listed b entry s := by
  rcases mem_sites_iff.1 listed with rfl | ⟨stands, inner⟩
  · exact .metadata
  · obtain ⟨owner, path⟩ := s
    obtain ⟨pattern, stands⟩ := Option.isSome_iff_exists.1 stands
    cases owner with
    | entry =>
      cases path with
      | nil => exact absurd rfl inner
      | cons i path =>
        obtain ⟨child, is, -⟩ := Option.bind_eq_some_iff.1 stands
        exact .entry (List.getElem?_eq_some_iff.1 is).1 path
    | rule name =>
      obtain ⟨rule, registered, leads⟩ := Option.bind_eq_some_iff.1 stands
      refine .rule registered path fun deeper => ?_
      cases path with
      | nil => exact absurd rfl deeper
      | cons i path =>
        obtain ⟨child, is, -⟩ := Option.bind_eq_some_iff.1 leads
        rintro none
        simp [Pattern.children, none] at is
    | metadata | setting | search => cases stands

theorem blank_not_mem_of_isName {name : String} (is : IsName name) : ' ' ∉ name.toList := by
  obtain ⟨c, rest, text, start, parts⟩ := is
  rw [text, List.mem_cons]
  rintro (rfl | later)
  · exact absurd start (by simp [IsNameStart])
  · exact absurd (parts _ later) (by simp [IsNameStart])

theorem blank_not_mem_owner (names : ∀ name ∈ b.rules.keys, IsName name) (listed : Listed b entry s) :
    ' ' ∉ s.owner.text.toList := by
  cases listed with
  | metadata => simp [Owner.text, Site.top]
  | entry inside path => simp [Owner.text]
  | rule registered path inside =>
    exact blank_not_mem_of_isName (names _ (Table.mem_keys_of_get? registered))

theorem text_eq_iff_of_mem (names : ∀ name ∈ b.rules.keys, IsName name) (here : s ∈ b.sites entry)
    (there : t ∈ b.sites entry) : s.text = t.text ↔ s = t ∨ s.Shares t ∨ t.Shares s := by
  have listed := listed_of_mem here
  have listed' := listed_of_mem there
  constructor
  · intro same
    obtain ⟨owners, paths⟩ := (text_eq_iff (blank_not_mem_owner names listed)
      (blank_not_mem_owner names listed')).1 same
    cases listed with
    | metadata =>
      cases listed' with
      | metadata => exact .inl rfl
      | entry => cases paths
      | rule =>
        cases paths
        cases owners
        exact .inr (.inl .metadata)
    | entry =>
      cases listed' with
      | metadata => cases paths
      | entry =>
        cases paths
        exact .inl rfl
      | rule =>
        cases paths
        cases owners
        exact .inr (.inl (.entry _ _))
    | rule =>
      cases listed' with
      | metadata =>
        cases paths
        cases owners
        exact .inr (.inr .metadata)
      | entry =>
        cases paths
        cases owners
        exact .inr (.inr (.entry _ _))
      | rule =>
        cases paths
        cases owners
        exact .inl rfl
  · rintro (rfl | shares | shares)
    · rfl
    · exact shares.text_eq
    · exact shares.text_eq.symm

/-- When two sites of a grammar share a text. -/
theorem exists_shares_iff :
    (∃ s ∈ b.sites entry, ∃ t ∈ b.sites entry, s.Shares t) ↔
      "metadata" ∈ b.rules.keys ∨
        entry ≠ [] ∧ ∃ rule, b.rules.get? "patterns" = some rule ∧ rule.children ≠ [] := by
  constructor
  · rintro ⟨s, here, t, there, shares⟩
    have listed := listed_of_mem here
    have listed' := listed_of_mem there
    cases shares with
    | metadata =>
      cases listed' with
      | rule registered => exact .inl (Table.mem_keys_of_get? registered)
    | entry i path =>
      cases listed with
      | entry inside =>
        cases listed' with
        | rule registered _ inside' =>
          refine .inr ⟨?_, _, registered, inside' (by simp)⟩
          rintro rfl
          simp at inside
  · rintro (named | ⟨some, rule, registered, some'⟩)
    · obtain ⟨rule, registered⟩ := Option.isSome_iff_exists.1 (Table.contains_iff.2 named)
      refine ⟨_, mem_sites_iff.2 (.inl rfl), _, mem_sites_iff.2 (.inr ⟨?_, by simp [Site.top]⟩), .metadata⟩
      simp [patternAt?, Site.top, registered, Pattern.under]
    · obtain ⟨first, rest, rfl⟩ := List.exists_cons_of_ne_nil some
      obtain ⟨child, others, children⟩ := List.exists_cons_of_ne_nil some'
      refine ⟨_, mem_sites_iff.2 (.inr ⟨?_, by simp [Site.top]⟩), _,
        mem_sites_iff.2 (.inr ⟨?_, by simp [Site.top]⟩), .entry 0 []⟩
      · simp [patternAt?, Pattern.under, Pattern.children, Rule.children]
      · simp [patternAt?, registered, Pattern.under, Pattern.children, children]

theorem stands_of_mem_defects {defect : Defect} (member : defect ∈ b.defects entry)
    (there : defect.site? = some s) :
    s ∈ b.sites entry ∧ (s = .top .metadata ∨
      ∃ pattern, patternAt? entry b.rules s = some pattern ∧
        defect ∈ Part.defects b.contains ⟨s, pattern⟩) := by
  simp only [defects, List.mem_append] at member
  rcases member with (empty | metadata) | inside
  · split at empty
    · rw [List.mem_singleton.1 empty] at there
      cases there
    · simp at empty
  · obtain rfl : .top .metadata = s :=
      Option.some.inj ((site?_scopeDefects metadata).symm.trans there)
    exact ⟨List.mem_cons_self .., .inl rfl⟩
  · obtain ⟨⟨site, pattern⟩, among, here⟩ := List.mem_flatMap.1 inside
    obtain rfl : site = s := Option.some.inj ((site?_of_mem_defects here).symm.trans there)
    exact ⟨List.mem_cons_of_mem _ (List.mem_map.2 ⟨_, among, rfl⟩),
      .inr ⟨pattern, patternAt?_of_mem_parts among, here⟩⟩

end Sites

/-- The sites of a grammar are all different, and so are their texts, but for those that a rule named
`metadata` has in common with the metadata, and the inside of a rule named `patterns` with the
entry. What building fails with stands at one of the sites. -/
theorem location_tells_site (metadata : Metadata) (calls : List (String × Rule))
    (entry : List Pattern) :
    let b := (new metadata).attempts calls
    (b.sites entry).Nodup ∧
      (∀ s ∈ b.sites entry, ∀ t ∈ b.sites entry,
        s.text = t.text ↔ s = t ∨ s.Shares t ∨ t.Shares s) ∧
      ((∀ s ∈ b.sites entry, ∀ t ∈ b.sites entry, s.text = t.text → s = t) ↔
        "metadata" ∉ b.rules.keys ∧
          (entry = [] ∨ ∀ rule, b.rules.get? "patterns" = some rule → rule.children = [])) ∧
      ∀ defect site, b.build entry = .error defect → defect.site? = some site →
        site ∈ b.sites entry ∧ (site = .top .metadata ∨
          ∃ pattern, patternAt? entry b.rules site = some pattern ∧
            defect ∈ Part.defects b.contains ⟨site, pattern⟩) := by
  intro b
  have names : ∀ name ∈ b.rules.keys, IsName name := fun name member => (mem_names_attempts member).1
  have texts {s t : Site} (here : s ∈ b.sites entry) (there : t ∈ b.sites entry) :=
    text_eq_iff_of_mem names here there
  refine ⟨nodup_sites b entry, fun s here t there => texts here there, ?_, ?_⟩
  · have free := not_congr (@exists_shares_iff b entry)
    refine Iff.trans ⟨fun all => ?_, fun none s here t there same => ?_⟩ (free.trans ?_)
    · rintro ⟨s, here, t, there, shares⟩
      exact shares.ne (all s here t there shares.text_eq)
    · rcases (texts here there).1 same with equal | shares | shares
      · exact equal
      · exact absurd ⟨s, here, t, there, shares⟩ none
      · exact absurd ⟨t, there, s, here, shares⟩ none
    · simp only [not_or, not_and_or, not_exists, not_not]
      grind
  · intro defect site failed there
    refine stands_of_mem_defects ?_ there
    rw [build_eq] at failed
    cases listed : b.defects entry with
    | nil => simp [listed] at failed
    | cons first rest =>
      rw [listed] at failed
      rw [Except.error.inj failed]
      exact List.mem_cons_self ..

def dangling : List (String × Rule) := [("list", .anyOf [.inline (.anyOf [.reference "gone"])])]

theorem location_tells_site_dangling :
    let b := (new ⟨"Example", "source.example", []⟩).attempts dangling
    b.build [.reference "list"] = .error (.unresolved ⟨.rule "list", [0, 0]⟩ "gone") ∧
      ∀ s ∈ b.sites [.reference "list"], s.text = "list > patterns[0] > patterns[0]" →
        s = ⟨.rule "list", [0, 0]⟩ := by
  intro b
  obtain ⟨-, -, different, stands⟩ :=
    location_tells_site ⟨"Example", "source.example", []⟩ dangling [.reference "list"]
  have failed : b.build [.reference "list"] = .error (.unresolved ⟨.rule "list", [0, 0]⟩ "gone") := by
    rw [build_eq]
    have listed : b.defects [.reference "list"] = [.unresolved ⟨.rule "list", [0, 0]⟩ "gone"] := by
      decide +kernel
    rw [listed]
  have none : b.rules.get? "patterns" = none := by
    cases held : b.rules.get? "patterns" with
    | none => rfl
    | some rule =>
      exact absurd (Table.mem_keys_of_get? held) (by decide +kernel)
  have told := different.2 ⟨by decide +kernel, .inr fun rule held => by rw [none] at held; cases held⟩
  refine ⟨failed, fun s listed same => ?_⟩
  exact told s listed _ (stands _ _ failed rfl).1 same

def namesake : List (String × Rule) := [("patterns", .anyOf [.reference "gone"])]

theorem location_of_two_sites :
    let b := (new ⟨"Example", "source.example", []⟩).attempts namesake
    let sites := b.sites [.reference "patterns"]
    (⟨.entry, [0]⟩ ∈ sites ∧ ⟨.rule "patterns", [0]⟩ ∈ sites) ∧
      Site.text ⟨.entry, [0]⟩ = "patterns > patterns[0]" ∧
      Site.text ⟨.rule "patterns", [0]⟩ = "patterns > patterns[0]" ∧
      b.build [.reference "patterns"] = .error (.unresolved ⟨.rule "patterns", [0]⟩ "gone") := by
  intro b sites
  have listed : b.defects [.reference "patterns"] = [.unresolved ⟨.rule "patterns", [0]⟩ "gone"] := by
    decide +kernel
  refine ⟨by decide +kernel, rfl, rfl, ?_⟩
  rw [build_eq, listed]

end Builder

end ScopeGrammar
