import Mathlib.Data.List.Nodup
import ScopeGrammar.Proofs.Settings.Overriding

/-!
What layers of settings amount to: the files that there are, in their order, and then the last value
for each single key. Where no key leads into another one, nothing else about the layers counts.
-/

set_option autoImplicit false

namespace ScopeGrammar.Settings

def Layer.text? : Layer → Option String
  | .file text _ => text
  | .setting _ _ => none

def Layer.isLacking : Layer → Bool
  | .file text required => required && text.isNone
  | .setting _ _ => false

def Layer.setting? : Layer → Option (String × Value)
  | .file _ _ => none
  | .setting key value => some (key, value)

def filesOf (layers : List Layer) : List String := layers.filterMap Layer.text?

def lacksFile (layers : List Layer) : Bool := layers.any Layer.isLacking

def settingsOf (layers : List Layer) : List (String × Value) := layers.filterMap Layer.setting?

def lastValue (layers : List Layer) (key : String) : Option Value :=
  (settingsOf layers).reverse.lookup key

/-- The keys of single settings are dotted paths, and none of them, in small letters, is another one
or leads into it. -/
structure KeysApart (layers : List Layer) : Prop where
  dotted : ∀ key ∈ (settingsOf layers).map (·.1), isDotted key = true
  separate : ∀ key ∈ (settingsOf layers).map (·.1), ∀ other ∈ (settingsOf layers).map (·.1),
    key ≠ other → ¬ keyNames key <+: keyNames other

/-- Single settings, each key once, that have the last value for every key, in any order. -/
structure Lists (order : List (String × Value)) (layers : List Layer) : Prop where
  once : (order.map (·.1)).Nodup
  last : ∀ key, order.lookup key = lastValue layers key

def addTexts (there : Value.Entries) (files : List String) : Option Value.Entries :=
  files.foldlM (fun there text => (Toml.read text.toList).map (addFile there)) there

def addSetting (there : Value.Entries) (entry : String × Value) : Value.Entries :=
  entry.2.putAt (pathOf (keyNames entry.1)) there

/-- What comes of files, one of which may be missing, and single settings in an order. -/
def outcome (files : List String) (lacking : Bool) (order : List (String × Value)) :
    Except LoadError Settings :=
  match (if lacking then none else addTexts defaults files).bind fun there =>
    ofEntries (order.foldl addSetting there) with
  | some settings => .ok settings
  | none => .error .notBuilt

section Views

variable {layers others : List Layer} {key : String} {v : Value}

theorem mem_keys_iff : key ∈ (settingsOf layers).map (·.1) ↔ (lastValue layers key).isSome = true := by
  rw [lastValue, lookup_isSome_iff, List.map_reverse, List.mem_reverse]

theorem lastValue_append (key : String) :
    lastValue (layers ++ others) key = (lastValue others key).or (lastValue layers key) := by
  simp [lastValue, settingsOf, List.lookup_append]

theorem exists_lists (layers : List Layer) : ∃ order, Lists order layers := by
  refine ⟨(Table.ofList (settingsOf layers)).entries, Table.keys_nodup _, fun key => ?_⟩
  have held := Table.get?_foldl_insert (settingsOf layers) Table.empty key
  rwa [Table.get?_empty, Option.or_none] at held

theorem exists_lists_last (last : lastValue layers key = some v) :
    ∃ order, Lists (order ++ [(key, v)]) layers := by
  obtain ⟨order, lists⟩ := exists_lists layers
  have member := (lookup_eq_some_iff_mem lists.once).1 ((lists.last key).trans last)
  obtain ⟨before, after, rfl⟩ := List.append_of_mem member
  have moved : (before ++ (key, v) :: after).Perm (before ++ after ++ [(key, v)]) :=
    List.perm_middle.trans (List.perm_append_singleton _ _).symm
  exact ⟨before ++ after, (moved.map (·.1)).nodup_iff.1 lists.once,
    fun other => (lookup_perm moved lists.once other).symm.trans (lists.last other)⟩

theorem KeysApart.foldKey_inj (apart : KeysApart layers) {other : String}
    (among : key ∈ (settingsOf layers).map (·.1)) (among' : other ∈ (settingsOf layers).map (·.1))
    (same : foldKey key = foldKey other) : key = other := by
  refine Classical.byContradiction fun differ => apart.separate key among other among' differ ?_
  exact ⟨[], by rw [List.append_nil, keyNames, same, ← keyNames]⟩

end Views

section Overlay

variable {layers : List Layer} {order : List (String × Value)}

def addressed (entry : String × Value) : String × (KeyPath × Value) :=
  (foldKey entry.1, pathOf (keyNames entry.1), entry.2)

theorem putAt_addressed (entry : String × Value) (there : Value.Entries) :
    (addressed entry).2.2.putAt (addressed entry).2.1 there = addSetting there entry := by
  simp only [addressed, addSetting]

theorem overlay_dotted (dotted : ∀ key ∈ (settingsOf layers).map (·.1), isDotted key = true)
    (number : Nat) (o : Overlay) :
    overlay number o layers =
      .ok (((settingsOf layers).map addressed).foldl (fun o entry => o.insert entry.1 entry.2) o) := by
  induction layers generalizing number o with
  | nil => rfl
  | cons layer rest ih =>
    cases layer with
    | file text required => exact ih dotted (number + 1) o
    | setting key value =>
      obtain ⟨first, later⟩ := List.forall_mem_cons.1 dotted
      rw [overlay, read_dotted first]
      exact (ih later (number + 1) _).trans (by rw [text_pathOf]; rfl)

theorem lookup_addressed {entries : List (String × Value)} {key : String}
    (inj : ∀ other ∈ entries.map (·.1), foldKey key = foldKey other → key = other) :
    (entries.map addressed).lookup (foldKey key) =
      (entries.lookup key).map fun v => (pathOf (keyNames key), v) := by
  induction entries with
  | nil => rfl
  | cons entry rest ih =>
    obtain ⟨first, later⟩ := List.forall_mem_cons.1 inj
    rw [List.map_cons, lookup_cons_entry, lookup_cons_entry, ih later]
    by_cases same : key = entry.1
    · simp [addressed, same]
    · have differ : foldKey key ≠ (addressed entry).1 := fun equal => same (first equal)
      simp [same, differ]

theorem Lists.mem_iff (lists : Lists order layers) {entry : String × Value} :
    entry ∈ order ↔ lastValue layers entry.1 = some entry.2 := by
  rw [← lists.last, lookup_eq_some_iff_mem lists.once]

theorem Lists.among (lists : Lists order layers) {key : String} (member : key ∈ order.map (·.1)) :
    key ∈ (settingsOf layers).map (·.1) := by
  rwa [mem_keys_iff, ← lists.last, lookup_isSome_iff]

theorem Lists.eq_of_key (lists : Lists order layers) {a b : String × Value} (member : a ∈ order)
    (member' : b ∈ order) (same : a.1 = b.1) : a = b := by
  have value := lists.mem_iff.1 member
  rw [same, lists.mem_iff.1 member'] at value
  exact Prod.ext same (Option.some.inj value).symm

/-- Where no key leads into another one, single settings may be put in either order. -/
theorem addSetting_comm (apart : KeysApart layers) (lists : Lists order layers)
    {a b : String × Value} (member : a ∈ order) (member' : b ∈ order) (there : Value.Entries) :
    addSetting (addSetting there a) b = addSetting (addSetting there b) a := by
  by_cases same : a.1 = b.1
  · rw [lists.eq_of_key member member' same]
  · have among := lists.among (List.mem_map_of_mem member)
    have among' := lists.among (List.mem_map_of_mem member')
    unfold addSetting
    exact Value.putAt_comm (apart.separate _ among' _ among (Ne.symm same))
      (apart.separate _ among _ among' same) there

theorem get?_overlay (apart : KeysApart layers) {o : Overlay}
    (read : overlay 0 .empty layers = .ok o) {key : String}
    (among : key ∈ (settingsOf layers).map (·.1)) :
    o.get? (foldKey key) = (lastValue layers key).map fun v => (pathOf (keyNames key), v) := by
  rw [overlay_dotted apart.dotted] at read
  cases read
  rw [Table.get?_foldl_insert, Table.get?_empty, Option.or_none, ← List.map_reverse]
  refine lookup_addressed fun other among' same => apart.foldKey_inj among ?_ same
  simpa using among'

theorem exists_key_of_overlay (apart : KeysApart layers) {o : Overlay}
    (read : overlay 0 .empty layers = .ok o) {text : String} {held : KeyPath × Value}
    (found : o.get? text = some held) :
    ∃ key ∈ (settingsOf layers).map (·.1), foldKey key = text := by
  rw [overlay_dotted apart.dotted] at read
  cases read
  rw [Table.get?_foldl_insert, Table.get?_empty, Option.or_none, ← List.map_reverse] at found
  have member := lookup_isSome_iff.1 (Option.isSome_of_eq_some found)
  simp only [List.mem_map, List.mem_reverse] at member
  obtain ⟨-, ⟨entry, among, rfl⟩, same⟩ := member
  exact ⟨entry.1, List.mem_map_of_mem among, same⟩

/-- The overlay holds the last value for each key, whatever order they are listed in. -/
theorem overlay_perm (apart : KeysApart layers) (lists : Lists order layers) {o : Overlay}
    (read : overlay 0 .empty layers = .ok o) : (order.map addressed).Perm o.entries := by
  have texts : (order.map addressed).map (·.1) = (order.map (·.1)).map foldKey := by
    simp [addressed, Function.comp_def]
  have once : ((order.map addressed).map (·.1)).Nodup := by
    rw [texts]
    exact lists.once.map_on fun key member other member' =>
      apart.foldKey_inj (lists.among member) (lists.among member')
  refine (List.perm_ext_iff_of_nodup (nodup_of_keys once) (nodup_of_keys o.keys_nodup)).2
    fun entry => ?_
  rw [← Table.get?_eq_some_iff, List.mem_map]
  constructor
  · rintro ⟨entry, member, rfl⟩
    rw [addressed, get?_overlay apart read (lists.among (List.mem_map_of_mem member)),
      lists.mem_iff.1 member]
    rfl
  · intro found
    obtain ⟨key, among, same⟩ := exists_key_of_overlay apart read found
    rw [← same, get?_overlay apart read among, Option.map_eq_some_iff] at found
    obtain ⟨v, last, path⟩ := found
    exact ⟨(key, v), lists.mem_iff.2 last, Prod.ext same path⟩

theorem addOverlay_eq (apart : KeysApart layers) (lists : Lists order layers) {o : Overlay}
    (read : overlay 0 .empty layers = .ok o) (there : Value.Entries) :
    addOverlay there o = order.foldl addSetting there := by
  have perm := overlay_perm apart lists read
  rw [addOverlay, ← perm.foldl_eq' _ there, List.foldl_map]
  · simp only [putAt_addressed]
  · intro a member b member' there
    obtain ⟨a, among, rfl⟩ := List.mem_map.1 member
    obtain ⟨b, among', rfl⟩ := List.mem_map.1 member'
    simp only [putAt_addressed]
    exact addSetting_comm apart lists among among' there

end Overlay

theorem addTexts_cons (there : Value.Entries) (text : String) (files : List String) :
    addTexts there (text :: files) =
      (Toml.read text.toList).bind fun entries => addTexts (addFile there entries) files := by
  rw [addTexts, List.foldlM_cons]
  cases Toml.read text.toList <;> rfl

theorem addFiles_eq (there : Value.Entries) (layers : List Layer) :
    addFiles there layers = if lacksFile layers then none else addTexts there (filesOf layers) := by
  induction layers generalizing there with
  | nil => rfl
  | cons layer rest ih =>
    match layer with
    | .setting _ _ | .file none false => exact ih there
    | .file none true => rfl
    | .file (some text) required =>
      have lacks : lacksFile (.file (some text) required :: rest) = lacksFile rest := by
        simp [lacksFile, Layer.isLacking]
      have files : filesOf (.file (some text) required :: rest) = text :: filesOf rest := rfl
      rw [addFiles, lacks, files, addTexts_cons]
      cases Toml.read text.toList with
      | none => simp
      | some entries => exact ih (addFile there entries)

/-- What layers amount to. -/
theorem load_eq_outcome {layers : List Layer} {order : List (String × Value)}
    (apart : KeysApart layers) (lists : Lists order layers) :
    load layers = outcome (filesOf layers) (lacksFile layers) order := by
  have read := overlay_dotted apart.dotted 0 .empty
  have whole := fun there => addOverlay_eq apart lists read there
  simp only [load, read, outcome, bind, Except.bind, addFiles_eq, whole]
  rfl

end ScopeGrammar.Settings
