import ScopeGrammar.Proofs.Settings.Putting
import ScopeGrammar.Settings.Layer

set_option autoImplicit false

namespace ScopeGrammar.Settings

/-- Where the key is that of a single setting, the settings have there what a value says. -/
structure Takes (s : Settings) (key : String) (v : Value) : Prop where
  format : foldKey key = "output.format" → v.asFormat = some s.format
  pretty : foldKey key = "output.pretty" → v.asBool = some s.pretty
  name : foldKey key = "metadata.name" →
    Value.asOption Value.asText (some v) = some s.overrides.name
  scopeName : foldKey key = "metadata.scope_name" →
    Value.asOption Value.asText (some v) = some s.overrides.scopeName
  fileTypes : foldKey key = "metadata.file_types" →
    Value.asOption Value.asTexts (some v) = some s.overrides.fileTypes

namespace Value

variable {v : Value} {old : Option Value} {new there : Entries} {name : String}

theorem mem_keys_insertEntry {key other : String} :
    other ∈ (Table.insertEntry key v there).map (·.1) ↔ other = key ∨ other ∈ there.map (·.1) := by
  rw [← lookup_isSome_iff, ← lookup_isSome_iff, Table.lookup_insertEntry]
  by_cases same : other = key <;> simp [same]

theorem mem_keys_ontoEntries :
    name ∈ (ontoEntries new there).map (·.1) ↔
      name ∈ there.map (·.1) ∨ ∃ entry ∈ new, foldKey entry.1 = name := by
  induction new generalizing there with
  | nil => simp [ontoEntries]
  | cons entry rest ih =>
    rw [ontoEntries, ih, mem_keys_insertEntry]
    simp [eq_comm, or_assoc, or_left_comm]

theorem ontoEntries_singleton (one : ∀ entry ∈ new, foldKey entry.1 = name) (w : Value) :
    ∃ x, ontoEntries new [(name, w)] = [(name, x)] := by
  induction new generalizing w with
  | nil => exact ⟨w, by rw [ontoEntries]⟩
  | cons entry rest ih =>
    obtain ⟨first, later⟩ := List.forall_mem_cons.1 one
    rw [ontoEntries, first]
    simpa [Table.insertEntry, Std.ReflOrd.compare_self] using ih later _

theorem onto_cases (notEmpty : v ≠ .table []) :
    (∃ new, v = .table new ∧ new ≠ [] ∧
      ∀ old, v.onto old = .table (ontoEntries new (entries old))) ∨ ∀ old, v.onto old = v := by
  cases v with
  | table new =>
    cases new with
    | nil => exact absurd rfl notEmpty
    | cons entry rest => exact .inl ⟨_, rfl, by simp, fun old => by simp [onto]⟩
  | nil | bool | int | float | text | list => exact .inr fun old => by simp [onto]

theorem read_onto {α : Type} (read : Value → Option α) (noTable : ∀ new, read (.table new) = none)
    (notEmpty : v ≠ .table []) {a : α} (there : read (v.onto old) = some a) :
    read (v.onto none) = some a := by
  rcases onto_cases notEmpty with ⟨new, -, -, whole⟩ | same
  · rw [whole, noTable] at there
    cases there
  · rwa [same] at there ⊢

theorem asFormat_table {format : Format} :
    (table new).asFormat = some format ↔
      ∃ name w, new = [(name, w)] ∧ Format.ofName name = some format := by
  match new with
  | [] | [(_, _)] | _ :: _ :: _ => simp [asFormat]

theorem asFormat_onto (notEmpty : v ≠ .table []) {format : Format}
    (there : (v.onto old).asFormat = some format) : (v.onto none).asFormat = some format := by
  rcases onto_cases notEmpty with ⟨new, -, someEntry, whole⟩ | same
  · rw [whole, asFormat_table] at there
    obtain ⟨name, w, single, known⟩ := there
    have one (entry : String × Value) (member : entry ∈ new) : foldKey entry.1 = name := by
      have held : foldKey entry.1 ∈ (ontoEntries new (entries old)).map (·.1) :=
        mem_keys_ontoEntries.2 (.inr ⟨entry, member, rfl⟩)
      simpa [single] using held
    rw [whole, asFormat_table]
    cases new with
    | nil => exact absurd rfl someEntry
    | cons entry rest =>
      obtain ⟨first, later⟩ := List.forall_mem_cons.1 one
      obtain ⟨x, alone⟩ := ontoEntries_singleton later (entry.2.onto none)
      refine ⟨name, x, ?_, known⟩
      simpa [ontoEntries, entries, first, Table.insertEntry] using alone
  · rwa [same] at there ⊢

theorem asOption_onto {α : Type} {read : Value → Option α}
    (noTable : ∀ new, read (.table new) = none) (notEmpty : v ≠ .table []) {a : Option α}
    (there : asOption read (some (v.onto old)) = some a) :
    asOption read (some (v.onto none)) = some a :=
  read_onto (fun v => asOption read (some v)) (fun new => by simp [asOption, noTable])
    notEmpty there

end Value

section Reading

variable {there inner : Value.Entries} {s : Settings}

theorem output_of_ofEntries (read : ofEntries there = some s)
    (output : there.lookup "output" = some (.table inner)) :
    (∃ v, inner.lookup "format" = some v ∧ v.asFormat = some s.format) ∧
      ∃ v, inner.lookup "pretty" = some v ∧ v.asBool = some s.pretty := by
  simp only [ofEntries, output, Value.fields, bind, Option.bind_some] at read
  simp only [Option.bind_eq_some_iff] at read
  obtain ⟨v, found, format, asFormat, w, found', pretty, asBool, overrides, -, same⟩ := read
  cases same
  exact ⟨⟨v, found, asFormat⟩, w, found', asBool⟩

theorem overrides_of_ofEntries (read : ofEntries there = some s) :
    readOverrides (there.lookup "metadata") = some s.overrides := by
  simp only [ofEntries, bind, Option.bind_eq_some_iff] at read
  obtain ⟨_, _, _, _, _, _, _, _, _, _, _, _, overrides, read, same⟩ := read
  cases same
  exact read

theorem metadata_of_ofEntries (read : ofEntries there = some s)
    (metadata : there.lookup "metadata" = some (.table inner)) :
    Value.asOption Value.asText (inner.lookup "name") = some s.overrides.name ∧
      Value.asOption Value.asText (inner.lookup "scope_name") = some s.overrides.scopeName ∧
      Value.asOption Value.asTexts (inner.lookup "file_types") = some s.overrides.fileTypes := by
  have read := overrides_of_ofEntries read
  rw [metadata] at read
  simp only [readOverrides, Value.fields, bind, Option.bind_some] at read
  simp only [Option.bind_eq_some_iff] at read
  obtain ⟨name, asName, scopeName, asScopeName, fileTypes, asFileTypes, same⟩ := read
  cases overrides : s.overrides
  rw [overrides] at same
  cases same
  exact ⟨asName, asScopeName, asFileTypes⟩

end Reading

theorem asOption_of_putAt {α : Type} {read : Value → Option α} {key name : String} {v : Value}
    {there : Value.Entries} {a : Option α} (noTable : ∀ new, read (.table new) = none)
    (notEmpty : v ≠ .table []) (names : keyNames key = ["metadata", name])
    (found : ∀ inner, (v.putAt (pathOf (keyNames key)) there).lookup "metadata" =
      some (.table inner) → Value.asOption read (inner.lookup name) = some a) :
    Value.asOption read (some (v.onto none)) = some a := by
  rw [names] at found
  obtain ⟨inner, old, metadata, held⟩ := Value.lookup_putAt v "metadata" name there
  have value := found inner metadata
  rw [held] at value
  exact Value.asOption_onto noTable notEmpty value

/-- Settings read after a value has been put at the path of a key take it, if it is no empty table. -/
theorem takes_of_putAt {s : Settings} {key : String} {v : Value} {there : Value.Entries}
    (notEmpty : v ≠ .table []) (read : ofEntries (v.putAt (pathOf (keyNames key)) there) = some s) :
    s.Takes key (v.onto none) := by
  have output (name : String) (names : keyNames key = ["output", name]) :=
    names ▸ Value.lookup_putAt v "output" name there
  constructor <;> intro own
  case format =>
    obtain ⟨inner, old, output, format⟩ := output "format" (by rw [keyNames, own]; rfl)
    obtain ⟨⟨w, found, asFormat⟩, -⟩ := output_of_ofEntries read output
    cases format.symm.trans found
    exact Value.asFormat_onto notEmpty asFormat
  case pretty =>
    obtain ⟨inner, old, output, pretty⟩ := output "pretty" (by rw [keyNames, own]; rfl)
    obtain ⟨-, w, found, asBool⟩ := output_of_ofEntries read output
    cases pretty.symm.trans found
    exact Value.read_onto Value.asBool (fun _ => rfl) notEmpty asBool
  case name =>
    exact asOption_of_putAt (fun _ => rfl) notEmpty (by rw [keyNames, own]; rfl) fun _ held =>
      (metadata_of_ofEntries read held).1
  case scopeName =>
    exact asOption_of_putAt (fun _ => rfl) notEmpty (by rw [keyNames, own]; rfl) fun _ held =>
      (metadata_of_ofEntries read held).2.1
  case fileTypes =>
    exact asOption_of_putAt (fun _ => rfl) notEmpty (by rw [keyNames, own]; rfl) fun _ held =>
      (metadata_of_ofEntries read held).2.2

end ScopeGrammar.Settings
