import ScopeGrammar.Proofs.Artifact.Recovery
import ScopeGrammar.Proofs.Repository.Reachable

set_option autoImplicit false

namespace ScopeGrammar

namespace Artifact

/-- The kinds of items that a host knows. -/
inductive Shape where
  | reference
  | single
  | region
  | choice
  deriving DecidableEq, Repr

/-- Whether an item has the fields that its shape asks for and none that belongs to another one. -/
def Item.HasShape (item : Item) : Shape → Prop
  | .reference => ∃ reference, item = .leaf { reference := some reference }
  | .single => ∃ name pattern captures, item = .leaf { name, pattern := some pattern, captures }
  | .region => ∃ name contentName opening openingCaptures closing closingCaptures children,
      item = .ofParts
        { name, contentName, opening := some opening, openingCaptures, closing := some closing,
          closingCaptures } children ∧ children ≠ some []
  | .choice => ∃ children, item = .nest {} children

/-- A scope that is written is well formed. -/
def ScopeFits (scope : Option String) : Prop := ∀ name, scope = some name → isScope name = true

/-- Captures that are written tag something: groups of the pattern they belong to, with well-formed
scopes. -/
def CapturesNumbered (pattern : Option String) (captures : Option Captures) : Prop :=
  ∀ written, captures = some written → written.isEmpty = false ∧
    ∃ source regex, pattern = some source ∧ Regex.read source.toList = .ok regex ∧
      ∀ capture ∈ written.entries, capture.1 ≤ regex.groups ∧ isScope capture.2 = true

/-- What can be relied on in an item of an artifact whose rules have the given names. -/
structure Item.Sound (names : List String) (item : Item) : Prop where
  shape : ∃ shape, item.HasShape shape ∧ ∀ other, item.HasShape other → other = shape
  name : ScopeFits item.fields.name
  contentName : ScopeFits item.fields.contentName
  reference : ∀ reference, item.fields.reference = some reference →
    ∃ name ∈ names, reference = "#" ++ name
  captures : CapturesNumbered item.fields.pattern item.fields.captures
  openingCaptures : CapturesNumbered item.fields.opening item.fields.openingCaptures
  closingCaptures : CapturesNumbered item.fields.closing item.fields.closingCaptures

mutual

def Item.all : Item → List Item
  | .leaf fields => [.leaf fields]
  | .nest fields children => .nest fields children :: Item.allOf children

def Item.allOf : List Item → List Item
  | [] => []
  | item :: rest => item.all ++ Item.allOf rest

end

def items (a : Artifact) : List Item :=
  Item.allOf a.patterns ++ a.repository.entries.flatMap fun entry => entry.2.all

structure WellFormed (a : Artifact) : Prop where
  scopeName : isScope a.scopeName = true
  items : ∀ item ∈ a.items, item.Sound a.repository.keys

section Shapes

theorem fields_ofParts (fields : Fields) (children : Option (List Item)) :
    (Item.ofParts fields children).fields = fields := by
  cases children <;> rfl

/-- The shape that the fields which are present tell. -/
def Item.shapeOf (item : Item) : Shape :=
  if item.fields.reference.isSome then .reference
  else if item.fields.pattern.isSome then .single
  else if item.fields.opening.isSome then .region
  else .choice

theorem shapeOf_eq {item : Item} {shape : Shape} (has : item.HasShape shape) :
    item.shapeOf = shape := by
  cases shape with
  | reference =>
    obtain ⟨reference, rfl⟩ := has
    rfl
  | single =>
    obtain ⟨name, pattern, captures, rfl⟩ := has
    rfl
  | region =>
    obtain ⟨_, _, _, _, _, _, _, rfl, -⟩ := has
    rw [Item.shapeOf, fields_ofParts]
    rfl
  | choice =>
    obtain ⟨children, rfl⟩ := has
    rfl

theorem shape_unique {item : Item} {shape : Shape} (has : item.HasShape shape) :
    ∃ shape, item.HasShape shape ∧ ∀ other, item.HasShape other → other = shape :=
  ⟨shape, has, fun _ has' => (shapeOf_eq has').symm.trans (shapeOf_eq has)⟩

theorem hasShape_ofPattern (pattern : Pattern) :
    ∃ shape, (Item.ofPattern pattern).HasShape shape := by
  cases pattern with
  | reference name => exact ⟨.reference, _, rfl⟩
  | inline rule =>
    cases rule with
    | single rule => exact ⟨.single, _, _, _, rfl⟩
    | region region children =>
      cases children with
      | nil => exact ⟨.region, _, _, _, _, _, _, none, rfl, by simp⟩
      | cons child rest =>
        refine ⟨.region, _, _, _, _, _, _, some (Item.ofPatterns (child :: rest)), rfl, ?_⟩
        simp [Item.ofPatterns]
    | anyOf children => exact ⟨.choice, _, rfl⟩

end Shapes

section Parts

mutual

theorem all_ofPattern (site : Site) (pattern : Pattern) :
    (Item.ofPattern pattern).all =
      (patternParts site pattern).map fun part => Item.ofPattern part.pattern :=
  match pattern with
  | .reference name => rfl
  | .inline (.single rule) => rfl
  | .inline (.region region []) => rfl
  | .inline (.region region (child :: rest)) => by
    have inside := allOf_ofPatterns site 0 (child :: rest)
    rw [Item.ofPattern, ofRule_region (List.cons_ne_nil child rest), Item.all, inside, patternParts,
      insideParts, List.map_cons, Item.ofPattern, ofRule_region (List.cons_ne_nil child rest)]
  | .inline (.anyOf children) => by
    have inside := allOf_ofPatterns site 0 children
    rw [Item.ofPattern, Item.ofRule, Item.all, inside, patternParts, insideParts, List.map_cons,
      Item.ofPattern, Item.ofRule]

theorem allOf_ofPatterns (site : Site) (i : Nat) (patterns : List Pattern) :
    Item.allOf (Item.ofPatterns patterns) =
      (childParts site i patterns).map fun part => Item.ofPattern part.pattern :=
  match patterns with
  | [] => rfl
  | pattern :: rest => by
    rw [Item.ofPatterns, Item.allOf, all_ofPattern (site.child i) pattern,
      allOf_ofPatterns site (i + 1) rest, childParts, List.map_append]

end

theorem items_ofRepository (m : Overrides) (r : Repository) :
    (ofRepository m r).items =
      (parts r.entry r.rules).map fun part => Item.ofPattern part.pattern := by
  have registered (entry : String × Rule) : (Item.ofRule entry.2).all =
      (patternParts (.top (.rule entry.1)) (.inline entry.2)).map
        fun part => Item.ofPattern part.pattern := all_ofPattern _ (.inline entry.2)
  simp only [items, ofRepository, parts, Table.map, List.flatMap_map, registered, List.map_append,
    List.map_flatMap, allOf_ofPatterns (.top .entry) 0]

end Parts

section Checked

variable {site : Site} {field : Field} {f : Fragment} {captures : Captures}

theorem scopeFits_none : ScopeFits none := by
  intro name is
  cases is

theorem scopeFits_of_scopeDefects {scope : Option String} (none : scopeDefects site scope = []) :
    ScopeFits scope := by
  intro name is
  subst is
  cases good : isScope name with
  | true => rfl
  | false => simp [scopeDefects, good] at none

theorem capturesNumbered_none (pattern : Option String) : CapturesNumbered pattern none := by
  intro written is
  cases is

theorem capturesNumbered_tags (readable : patternDefects site field f = [])
    (none : captureDefects site field f captures = []) :
    CapturesNumbered (some f.toString) (tags captures) := by
  intro written is
  unfold tags at is
  split at is
  · simp at is
  · rename_i filled
    cases is
    obtain ⟨regex, read, groups⟩ := read_of_patternDefects readable
    refine ⟨by simpa using filled, f.toString, regex, rfl, by simpa [Fragment.toString] using read,
      fun capture member => ?_⟩
    rw [captureDefects, List.flatMap_eq_nil_iff] at none
    have clean := none capture member
    rw [groups, captureDefect] at clean
    split at clean
    · simp at clean
    · rename_i inside
      exact ⟨Nat.le_of_not_lt inside, scopeFits_of_scopeDefects clean _ rfl⟩

/-- A part without defects becomes an item that can be relied on. -/
theorem sound_of_part {known : String → Bool} {names : List String}
    (listed : ∀ name, known name = true → name ∈ names) {part : Part}
    (clean : part.defects known = []) : (Item.ofPattern part.pattern).Sound names := by
  obtain ⟨site, pattern⟩ := part
  obtain ⟨shape, has⟩ := hasShape_ofPattern pattern
  have shaped := shape_unique has
  cases pattern with
  | reference name =>
    refine ⟨shaped, scopeFits_none, scopeFits_none, ?_, capturesNumbered_none _,
      capturesNumbered_none _, capturesNumbered_none _⟩
    intro reference is
    cases is
    refine ⟨name, listed name ?_, rfl⟩
    cases registered : known name with
    | true => rfl
    | false => simp [Part.defects, registered] at clean
  | inline rule =>
    cases rule with
    | single rule =>
      simp only [Part.defects, List.append_eq_nil_iff] at clean
      exact ⟨shaped, scopeFits_of_scopeDefects clean.2, scopeFits_none,
        by simp [Item.ofPattern, Item.ofRule, Item.fields],
        capturesNumbered_tags clean.1.1 clean.1.2, capturesNumbered_none _, capturesNumbered_none _⟩
    | region region children =>
      simp only [Part.defects, List.append_eq_nil_iff] at clean
      obtain ⟨⟨⟨⟨⟨opening, closing⟩, openingTags⟩, closingTags⟩, scope⟩, contentScope⟩ := clean
      have fields : (Item.ofPattern (.inline (.region region children))).fields =
          .ofRegion region := by
        cases children <;> rfl
      refine ⟨shaped, ?_, ?_, ?_, ?_, ?_, ?_⟩ <;> rw [fields]
      · exact scopeFits_of_scopeDefects scope
      · exact scopeFits_of_scopeDefects contentScope
      · simp [Fields.ofRegion]
      · exact capturesNumbered_none _
      · exact capturesNumbered_tags opening openingTags
      · exact capturesNumbered_tags closing closingTags
    | anyOf children =>
      exact ⟨shaped, scopeFits_none, scopeFits_none,
        by simp [Item.ofPattern, Item.ofRule, Item.fields], capturesNumbered_none _,
        capturesNumbered_none _, capturesNumbered_none _⟩

end Checked

theorem wellFormed_ofRepository {b : Builder} {entry : List Pattern} {r : Repository}
    (built : b.build entry = .ok r) {m : Overrides}
    (scope : ScopeFits m.scopeName) :
    (ofRepository m r).WellFormed := by
  obtain ⟨none, rfl⟩ := build_ok built
  simp only [Builder.defects, List.append_eq_nil_iff, List.flatMap_eq_nil_iff] at none
  refine ⟨?_, fun item member => ?_⟩
  · cases given : m.scopeName with
    | none =>
      simp only [ofRepository, given]
      exact scopeFits_of_scopeDefects none.1.2 _ rfl
    | some name =>
      simp only [ofRepository, given]
      exact scope name given
  · rw [items_ofRepository] at member
    obtain ⟨part, among, rfl⟩ := List.mem_map.1 member
    refine sound_of_part (fun name known => ?_) (none.2 part among)
    obtain ⟨rule, registered⟩ := get?_isSome_of_contains known
    have key := Table.mem_keys_of_get? registered
    simpa [ofRepository, Table.map, Table.keys] using key

theorem emit_eq (r : Repository) (s : Settings) :
    (∃ scope, s.overrides.scopeName = some scope ∧ isScope scope = false ∧
      r.emit s = .error (.badScope (.top .setting) scope)) ∨
    ScopeFits s.overrides.scopeName ∧
      r.emit s = .ok (print s.format s.pretty (ofRepository s.overrides r).outline) := by
  unfold Repository.emit
  cases given : s.overrides.scopeName with
  | none => exact .inr ⟨scopeFits_none, rfl⟩
  | some scope =>
    cases good : isScope scope with
    | false => exact .inl ⟨scope, rfl, good, by simp [checkScope, good, bind, Except.bind]⟩
    | true =>
      refine .inr ⟨?_, by simp [checkScope, good, bind, Except.bind, pure, Except.pure]⟩
      intro name is
      cases is
      exact good

/-- Writing a repository out fails where the settings give a malformed scope name, and nowhere else;
what is written is the artifact of the repository, and it is well formed. -/
theorem emit_wellFormed {b : Builder} {entry : List Pattern} {r : Repository}
    (built : b.build entry = .ok r) (s : Settings) :
    (∀ defect, r.emit s = .error defect ↔
      ∃ scope, s.overrides.scopeName = some scope ∧ isScope scope = false ∧
        defect = .badScope (.top .setting) scope) ∧
    ∀ text, r.emit s = .ok text →
      text = print s.format s.pretty (ofRepository s.overrides r).outline ∧
        (ofRepository s.overrides r).WellFormed := by
  rcases emit_eq r s with ⟨scope, given, bad, failed⟩ | ⟨good, written⟩
  · rw [failed]
    refine ⟨fun defect => ?_, by simp⟩
    simp only [Except.error.injEq, given, Option.some.injEq]
    constructor
    · intro same
      exact ⟨scope, rfl, bad, same.symm⟩
    · intro reason
      obtain ⟨other, rfl, -, same⟩ := reason
      exact same.symm
  · rw [written]
    refine ⟨fun defect => ?_, ?_⟩
    · simp only [reduceCtorEq, false_iff]
      intro reason
      obtain ⟨scope, given, bad, -⟩ := reason
      simp [good scope given] at bad
    · intro text is
      cases is
      exact ⟨rfl, wellFormed_ofRepository built good⟩

def tagged : Builder where
  metadata := ⟨"Example", "source.example", []⟩
  rules := .ofList [
    ("name", .single ⟨.ofString "(a)|b", some "variable.name", .ofList [(1, "variable.first")]⟩),
    ("list",
      .region
        ⟨.ofString "(\\[)", .ofString "\\]", none, some "meta.list", .ofList [(1, "punctuation")],
          .empty⟩
        [.inline (.anyOf [.reference "name", .reference "list"])])]

theorem emit_wellFormed_tagged :
    ∃ r, tagged.build [.reference "list"] = .ok r ∧
      r.emit ⟨.yaml, true, ⟨none, some "source..other", none⟩⟩ =
        .error (.badScope (.top .setting) "source..other") ∧
      (ofRepository ⟨some "Other", some "source.other", none⟩ r).WellFormed := by
  have built : tagged.build [.reference "list"] =
      .ok ⟨tagged.metadata, [.reference "list"], tagged.rules⟩ := by
    have clean : tagged.defects [.reference "list"] = [] := by decide +kernel
    rw [build_eq, clean]
  refine ⟨_, built, ?_, ?_⟩
  · exact ((emit_wellFormed built ⟨.yaml, true, ⟨none, some "source..other", none⟩⟩).1 _).2
      ⟨"source..other", rfl, by decide, rfl⟩
  · obtain ⟨fails, written⟩ :=
      emit_wellFormed built ⟨.json, false, ⟨some "Other", some "source.other", none⟩⟩
    cases emitted : Repository.emit ⟨tagged.metadata, [.reference "list"], tagged.rules⟩
        ⟨.json, false, ⟨some "Other", some "source.other", none⟩⟩ with
    | error defect =>
      obtain ⟨scope, same, bad, -⟩ := (fails defect).1 emitted
      cases same
      exact absurd bad (by decide)
    | ok text => exact (written text emitted).2

end Artifact

end ScopeGrammar
