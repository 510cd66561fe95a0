import ScopeGrammar.Artifact.Emission

/-!
Getting a repository back from its artifact. Which fields of an item are present tells the kind of
the rule it was made of: the list of children tells a choice from a region without children, and
captures that are present are never empty.
-/

set_option autoImplicit false

namespace ScopeGrammar

def Overrides.unset : Overrides := ⟨none, none, none⟩

namespace Artifact

def captures? : Option Captures → Option Captures
  | none => some .empty
  | some captures => if captures.isEmpty then none else some captures

theorem captures?_eq_some {written : Option Captures} {captures : Captures} :
    captures? written = some captures ↔ written = tags captures := by
  cases written with
  | none =>
    simp only [captures?, tags, Option.some.injEq]
    constructor
    · rintro rfl
      rfl
    · intro same
      split at same
      · rename_i empty
        exact Table.ext (by simpa [Table.isEmpty, Table.empty] using empty)
      · simp at same
  | some written =>
    simp only [captures?, tags]
    constructor
    · intro same
      split at same
      · simp at same
      · cases same
        simp_all
    · intro same
      split at same
      · simp at same
      · cases same
        simp_all

theorem captures?_tags (captures : Captures) : captures? (tags captures) = some captures :=
  captures?_eq_some.2 rfl

def reference? (written : String) : Option String :=
  match written.toList with
  | '#' :: name => some (String.ofList name)
  | _ => none

theorem reference?_eq_some {written name : String} :
    reference? written = some name ↔ written = "#" ++ name := by
  have hash : ("#" ++ name).toList = '#' :: name.toList := by simp
  rw [← String.toList_inj, hash, reference?]
  constructor
  · intro same
    split at same
    · rename_i letters split
      cases same
      rw [split, String.toList_ofList]
    · simp at same
  · intro same
    rw [same]
    simp

def Fields.ofRegion (region : Region) : Fields where
  name := region.scope
  contentName := region.contentScope
  opening := region.opening.toString
  openingCaptures := tags region.openingCaptures
  closing := region.closing.toString
  closingCaptures := tags region.closingCaptures

def region? : Fields → Option Region
  | ⟨none, name, contentName, none, none, some opening, openingCaptures, some closing,
      closingCaptures⟩ => do
    return {
      opening := .ofString opening
      closing := .ofString closing
      scope := name
      contentScope := contentName
      openingCaptures := ← captures? openingCaptures
      closingCaptures := ← captures? closingCaptures }
  | _ => none

theorem region?_eq_some {fields : Fields} {region : Region} :
    region? fields = some region ↔ fields = .ofRegion region := by
  constructor
  · intro same
    unfold region? at same
    split at same
    · simp only [Option.bind_eq_bind, Option.pure_def, Option.bind_eq_some_iff, captures?_eq_some,
        Option.some.injEq] at same
      obtain ⟨openingCaptures, rfl, closingCaptures, rfl, rfl⟩ := same
      simp [Fields.ofRegion]
    · simp at same
  · rintro rfl
    simp [region?, Fields.ofRegion, captures?_tags]

def leaf? : Fields → Option Pattern
  | ⟨some reference, none, none, none, none, none, none, none, none⟩ =>
    (reference? reference).map .reference
  | ⟨none, name, none, some pattern, captures, none, none, none, none⟩ =>
    (captures? captures).map fun captures => .inline (.single ⟨.ofString pattern, name, captures⟩)
  | fields => (region? fields).map fun region => .inline (.region region [])

def nest? (fields : Fields) (children : List Pattern) : Option Pattern :=
  if fields = {} then some (.inline (.anyOf children))
  else if children.isEmpty then none
  else (region? fields).map fun region => .inline (.region region children)

mutual

def Item.pattern? : Item → Option Pattern
  | .leaf fields => leaf? fields
  | .nest fields children => do nest? fields (← Item.patterns? children)

def Item.patterns? : List Item → Option (List Pattern)
  | [] => some []
  | item :: rest => do return (← item.pattern?) :: (← Item.patterns? rest)

end

theorem leaf?_eq_some {fields : Fields} {pattern : Pattern} :
    leaf? fields = some pattern ↔ .leaf fields = Item.ofPattern pattern := by
  constructor
  · intro same
    unfold leaf? at same
    split at same
    · obtain ⟨name, named, rfl⟩ := Option.map_eq_some_iff.1 same
      rw [reference?_eq_some.1 named]
      rfl
    · obtain ⟨captures, tagged, rfl⟩ := Option.map_eq_some_iff.1 same
      rw [captures?_eq_some.1 tagged]
      simp [Item.ofPattern, Item.ofRule]
    · obtain ⟨region, described, rfl⟩ := Option.map_eq_some_iff.1 same
      rw [region?_eq_some.1 described]
      rfl
  · intro same
    cases pattern with
    | reference name =>
      cases same
      simp [leaf?, reference?_eq_some.2]
    | inline rule =>
      cases rule with
      | single rule =>
        cases same
        simp [leaf?, captures?_tags]
      | region region children =>
        cases children with
        | cons child rest => simp [Item.ofPattern, Item.ofRule] at same
        | nil =>
          cases same
          simp [leaf?, region?, captures?_tags]
      | anyOf children => simp [Item.ofPattern, Item.ofRule] at same

theorem ofRegion_ne_blank (region : Region) : Fields.ofRegion region ≠ {} := by
  simp [Fields.ofRegion]

theorem nest?_eq_some {fields : Fields} {children : List Pattern} {pattern : Pattern} :
    nest? fields children = some pattern ↔
      (fields = {} ∧ pattern = .inline (.anyOf children)) ∨
        ∃ region, fields = .ofRegion region ∧ children ≠ [] ∧
          pattern = .inline (.region region children) := by
  unfold nest?
  split
  · rename_i blank
    constructor
    · intro same
      exact .inl ⟨blank, (Option.some.inj same).symm⟩
    · rintro (⟨-, rfl⟩ | ⟨region, rfl, -⟩)
      · rfl
      · exact absurd blank (ofRegion_ne_blank region)
  · rename_i filled
    split
    · rename_i empty
      simp only [List.isEmpty_iff] at empty
      simp [filled, empty]
    · rename_i some
      simp only [List.isEmpty_iff] at some
      constructor
      · intro same
        obtain ⟨region, described, rfl⟩ := Option.map_eq_some_iff.1 same
        exact .inr ⟨region, region?_eq_some.1 described, some, rfl⟩
      · rintro (⟨blank, -⟩ | ⟨region, described, -, rfl⟩)
        · exact absurd blank filled
        · rw [region?_eq_some.2 described]
          rfl

theorem ofRule_region {children : List Pattern} (some : children ≠ []) (region : Region) :
    Item.ofRule (.region region children) = .nest (.ofRegion region) (Item.ofPatterns children) := by
  cases children with
  | nil => exact absurd rfl some
  | cons child rest => rfl

mutual

theorem Item.pattern?_eq_some (item : Item) (pattern : Pattern) :
    item.pattern? = some pattern ↔ item = Item.ofPattern pattern :=
  match item with
  | .leaf fields => leaf?_eq_some
  | .nest fields items => by
    rw [Item.pattern?, Option.bind_eq_bind, Option.bind_eq_some_iff]
    constructor
    · rintro ⟨children, read, nested⟩
      rw [(Item.patterns?_eq_some items children).1 read]
      rcases nest?_eq_some.1 nested with ⟨rfl, rfl⟩ | ⟨region, rfl, some, rfl⟩
      · rfl
      · exact (ofRule_region some region).symm
    · intro same
      cases pattern with
      | reference name => cases same
      | inline rule =>
        cases rule with
        | single rule => cases same
        | region region children =>
          cases children with
          | nil => cases same
          | cons child rest =>
            have some : child :: rest ≠ [] := List.cons_ne_nil child rest
            rw [Item.ofPattern, ofRule_region some] at same
            cases same
            exact ⟨child :: rest, (Item.patterns?_eq_some _ _).2 rfl,
              nest?_eq_some.2 (.inr ⟨region, rfl, some, rfl⟩)⟩
        | anyOf children =>
          cases same
          exact ⟨children, (Item.patterns?_eq_some _ _).2 rfl, nest?_eq_some.2 (.inl ⟨rfl, rfl⟩)⟩

theorem Item.patterns?_eq_some (items : List Item) (patterns : List Pattern) :
    Item.patterns? items = some patterns ↔ items = Item.ofPatterns patterns :=
  match items with
  | [] => by cases patterns <;> simp [Item.patterns?, Item.ofPatterns]
  | item :: rest => by
    cases patterns with
    | nil => simp [Item.patterns?, Item.ofPatterns, Option.bind_eq_some_iff]
    | cons pattern patterns =>
      simp [Item.patterns?, Item.ofPatterns, Option.bind_eq_some_iff,
        Item.pattern?_eq_some item, Item.patterns?_eq_some rest]

end

def Item.rule? (item : Item) : Option Rule :=
  match item.pattern? with
  | some (.inline rule) => some rule
  | _ => none

theorem Item.rule?_eq_some {item : Item} {rule : Rule} :
    item.rule? = some rule ↔ item = Item.ofRule rule := by
  have inline : item = Item.ofRule rule ↔ item.pattern? = some (.inline rule) := by
    rw [Item.pattern?_eq_some, Item.ofPattern]
  rw [inline, Item.rule?]
  split <;> simp_all

def rules? (items : Table String Item) : Option Rules :=
  if items.entries.all (·.2.rule?.isSome) then
    some (items.map fun _ item => item.rule?.getD .placeholder)
  else none

theorem rules?_eq_some {items : Table String Item} {rules : Rules} :
    rules? items = some rules ↔ items = rules.map fun _ rule => Item.ofRule rule := by
  unfold rules?
  constructor
  · intro same
    split at same
    · rename_i all
      cases same
      refine Table.ext ?_
      simp only [Table.map, List.map_map]
      refine ((List.map_congr_left fun entry member => ?_).trans (List.map_id _)).symm
      obtain ⟨rule, made⟩ := Option.isSome_iff_exists.1 (List.all_eq_true.1 all entry member)
      simp [made, ← Item.rule?_eq_some.1 made]
    · simp at same
  · rintro rfl
    have made (rule : Rule) : (Item.ofRule rule).rule? = some rule := Item.rule?_eq_some.2 rfl
    rw [if_pos (by simp [Table.map, made]), Option.some.injEq]
    exact Table.ext (by simp [Table.map, Function.comp_def, made])

def repository? (a : Artifact) : Option Repository := do
  return {
    metadata := ⟨a.name, a.scopeName, a.fileTypes⟩
    entry := ← Item.patterns? a.patterns
    rules := ← rules? a.repository }

/-- An artifact tells the repository that it was made of, and every artifact that tells one was
made of it. -/
theorem ofRepository_lossless :
    (∀ (a : Artifact) (r : Repository), repository? a = some r ↔ a = ofRepository .unset r) ∧
      ∀ r r' : Repository, ofRepository .unset r = ofRepository .unset r' ↔ r = r' := by
  have recovers (a : Artifact) (r : Repository) :
      repository? a = some r ↔ a = ofRepository .unset r := by
    simp only [repository?, Option.bind_eq_bind, Option.pure_def, Option.bind_eq_some_iff,
      Item.patterns?_eq_some, rules?_eq_some, Option.some.injEq]
    constructor
    · rintro ⟨entry, patterns, rules, repository, rfl⟩
      simp [ofRepository, Overrides.unset, ← patterns, ← repository]
    · rintro rfl
      exact ⟨r.entry, rfl, r.rules, rfl, rfl⟩
  refine ⟨recovers, fun r r' => ⟨fun same => ?_, congrArg _⟩⟩
  have first := (recovers _ r).2 rfl
  have second := (recovers _ r').2 same
  exact Option.some.inj (first.symm.trans second)

end Artifact

end ScopeGrammar
