import Mathlib.Logic.Relation
import ScopeGrammar.Proofs.Settings.Layering

set_option autoImplicit false

namespace ScopeGrammar.Settings

/-- A change of layers that leaves the files and the last value for every key alone. -/
inductive Rearranges : List Layer → List Layer → Prop
  /-- A single setting goes behind a file. -/
  | pass (before after : List Layer) (key : String) (v : Value) (text : Option String)
      (required : Bool) :
      Rearranges (before ++ .setting key v :: .file text required :: after)
        (before ++ .file text required :: .setting key v :: after)
  /-- Settings of different keys change places. -/
  | swap (before after : List Layer) {key other : String} (v w : Value) (differ : key ≠ other) :
      Rearranges (before ++ .setting key v :: .setting other w :: after)
        (before ++ .setting other w :: .setting key v :: after)
  /-- A value is left out whose key is set again. -/
  | drop (before after : List Layer) {key : String} (v : Value)
      (again : key ∈ (settingsOf after).map (·.1)) :
      Rearranges (before ++ .setting key v :: after) (before ++ after)
  /-- A file that is missing, and may be, comes in. -/
  | missing (before after : List Layer) :
      Rearranges (before ++ after) (before ++ .file none false :: after)

structure Alike (layers others : List Layer) : Prop where
  files : filesOf others = filesOf layers
  lacking : lacksFile others = lacksFile layers
  last : ∀ key, lastValue others key = lastValue layers key

theorem lastValue_setting (key : String) (v : Value) (after : List Layer) (other : String) :
    lastValue (.setting key v :: after) other =
      (lastValue after other).or (if other = key then some v else none) := by
  rw [← List.singleton_append, lastValue_append]
  simp [lastValue, settingsOf, Layer.setting?, lookup_cons_entry]

theorem lastValue_file (text : Option String) (required : Bool) (after : List Layer)
    (other : String) : lastValue (.file text required :: after) other = lastValue after other := rfl

theorem Alike.append {layers others : List Layer} (alike : Alike layers others)
    (before : List Layer) : Alike (before ++ layers) (before ++ others) where
  files := by
    have files := alike.files
    unfold filesOf at files ⊢
    rw [List.filterMap_append, List.filterMap_append, files]
  lacking := by
    have lacking := alike.lacking
    unfold lacksFile at lacking ⊢
    rw [List.any_append, List.any_append, lacking]
  last key := by rw [lastValue_append, lastValue_append, alike.last]

theorem Rearranges.alike {layers others : List Layer} (change : Rearranges layers others) :
    Alike layers others := by
  cases change with
  | pass before after key v text required =>
    refine Alike.append ?_ before
    refine ⟨by cases text <;> rfl, ?_, fun other => ?_⟩
    · simp [lacksFile, Layer.isLacking]
    · rw [lastValue_file, lastValue_setting, lastValue_setting, lastValue_file]
  | @swap before after key key' v w differ =>
    refine Alike.append ?_ before
    refine ⟨rfl, rfl, fun other => ?_⟩
    simp only [lastValue_setting]
    by_cases first : other = key <;> by_cases second : other = key' <;> simp_all
  | @drop before after key v again =>
    refine Alike.append ?_ before
    refine ⟨rfl, rfl, fun other => ?_⟩
    rw [lastValue_setting]
    by_cases same : other = key
    · obtain ⟨w, last⟩ := Option.isSome_iff_exists.1 (mem_keys_iff.1 again)
      rw [same, last]
      rfl
    · simp [same]
  | missing before after =>
    refine Alike.append ?_ before
    exact ⟨rfl, rfl, fun other => lastValue_file none false after other⟩

theorem Alike.of_eqvGen {layers others : List Layer}
    (changes : Relation.EqvGen Rearranges layers others) : Alike layers others := by
  induction changes with
  | rel layers others change => exact change.alike
  | refl layers => exact ⟨rfl, rfl, fun _ => rfl⟩
  | symm layers others _ ih =>
    exact ⟨ih.files.symm, ih.lacking.symm, fun key => (ih.last key).symm⟩
  | trans layers between others _ _ ih ih' =>
    exact ⟨ih'.files.trans ih.files, ih'.lacking.trans ih.lacking,
      fun key => (ih'.last key).trans (ih.last key)⟩

theorem Alike.load_eq {layers others : List Layer} (alike : Alike layers others)
    (apart : KeysApart layers) : load others = load layers := by
  obtain ⟨order, lists⟩ := exists_lists layers
  have keys {key : String} (among : key ∈ (settingsOf others).map (·.1)) :
      key ∈ (settingsOf layers).map (·.1) := by
    rwa [mem_keys_iff, alike.last, ← mem_keys_iff] at among
  have apart' : KeysApart others :=
    ⟨fun key among => apart.dotted key (keys among),
      fun key among other among' => apart.separate key (keys among) other (keys among')⟩
  have lists' : Lists order others :=
    ⟨lists.once, fun key => (lists.last key).trans (alike.last key).symm⟩
  rw [load_eq_outcome apart lists, load_eq_outcome apart' lists', alike.files, alike.lacking]

theorem takes_of_load {layers : List Layer} {s : Settings} {key : String} {v : Value}
    (apart : KeysApart layers) (loaded : load layers = .ok s)
    (last : lastValue layers key = some v) (notEmpty : v ≠ .table []) :
    s.Takes key (v.onto none) := by
  -- The order in which settings are put does not count, so let this one be put last.
  obtain ⟨order, lists⟩ := exists_lists_last last
  rw [load_eq_outcome apart lists, outcome] at loaded
  split at loaded
  · rename_i settings read
    cases loaded
    obtain ⟨there, -, read⟩ := Option.bind_eq_some_iff.1 read
    rw [List.foldl_append] at read
    exact takes_of_putAt notEmpty read
  · cases loaded

/-- What layers of settings amount to, where their keys are dotted paths and none leads into another.
It is the files that there are, in their order, whether one is missing that must not, and the last
value for each key, in whatever order these are put. So it stays when single settings are moved past
files or past settings of other keys, when a value is left out whose key is set again, and when a
file comes in that is missing and may be. Each single setting that has been set under its own key,
and not to an empty table, has the value that was set last, whatever the files contain. -/
theorem load_layers (layers : List Layer) (apart : KeysApart layers) :
    (∀ order, Lists order layers →
      load layers = outcome (filesOf layers) (lacksFile layers) order) ∧
    (∀ others, filesOf others = filesOf layers → lacksFile others = lacksFile layers →
      (∀ key, lastValue others key = lastValue layers key) → load others = load layers) ∧
    (∀ others, Relation.EqvGen Rearranges layers others → load others = load layers) ∧
    ∀ s key v, load layers = .ok s → lastValue layers key = some v → v ≠ .table [] →
      s.Takes key (v.onto none) :=
  ⟨fun _ lists => load_eq_outcome apart lists,
    fun _ files lacking last => Alike.load_eq ⟨files, lacking, last⟩ apart,
    fun _ changes => (Alike.of_eqvGen changes).load_eq apart,
    fun _ _ _ loaded last notEmpty => takes_of_load apart loaded last notEmpty⟩

def nameAndFormat : List Layer :=
  [.setting "output.format" (.text "json"),
    .file (some "[metadata]\nname = \"WAT\"\n") true,
    .setting "Metadata.Name" (.text "WebAssembly"),
    .setting "output.format" (.text "yaml")]

theorem load_layers_nameAndFormat :
    KeysApart nameAndFormat ∧
      load (nameAndFormat.drop 1) = load nameAndFormat ∧
      load nameAndFormat = .ok ⟨.yaml, true, ⟨some "WebAssembly", none, none⟩⟩ ∧
      Settings.Takes ⟨.yaml, true, ⟨some "WebAssembly", none, none⟩⟩ "Metadata.Name"
        (.text "WebAssembly") := by
  have apart : KeysApart nameAndFormat := ⟨by decide +kernel, by decide +kernel⟩
  have loaded : load nameAndFormat = .ok ⟨.yaml, true, ⟨some "WebAssembly", none, none⟩⟩ := by
    decide +kernel
  have first : Rearranges nameAndFormat (nameAndFormat.drop 1) :=
    .drop [] (nameAndFormat.drop 1) (.text "json") (by decide +kernel)
  obtain ⟨-, -, changed, taken⟩ := load_layers nameAndFormat apart
  exact ⟨apart, changed _ (.rel _ _ first), loaded,
    taken _ "Metadata.Name" (.text "WebAssembly") loaded rfl (by simp)⟩

/-- An empty table leaves the format of a file alone, so that it is not the one without the file; and
a missing file that must not be missing is none of the files that there are, but fails. -/
theorem load_empty_table_or_lacking :
    KeysApart [.file (some "[output]\nformat = \"yaml\"\n") true, .setting "output.format" (.table [])] ∧
      load [.file (some "[output]\nformat = \"yaml\"\n") true,
        .setting "output.format" (.table [])] = .ok ⟨.yaml, true, ⟨none, none, none⟩⟩ ∧
      load [.setting "output.format" (.table [])] = .ok ⟨.json, true, ⟨none, none, none⟩⟩ ∧
      ¬ Settings.Takes ⟨.yaml, true, ⟨none, none, none⟩⟩ "output.format" (.table []) ∧
      load [.file none true] = .error .notBuilt ∧
      load [] = .ok ⟨.json, true, ⟨none, none, none⟩⟩ := by
  refine ⟨⟨by decide +kernel, by decide +kernel⟩, by decide +kernel, by decide +kernel, ?_,
    by decide +kernel, by decide +kernel⟩
  intro takes
  cases takes.format (by decide +kernel)

end ScopeGrammar.Settings
