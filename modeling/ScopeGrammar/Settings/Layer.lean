import ScopeGrammar.Artifact.Basic
import ScopeGrammar.Settings.Toml

/-!
Loading settings from layers. The defaults come first, then files in their order, then overrides of
single settings, wherever these stand among the files.
-/

set_option autoImplicit false

namespace ScopeGrammar

def Format.ofName (name : String) : Option Format :=
  match Settings.foldKey name with
  | "json" => some .json
  | "yaml" => some .yaml
  | _ => none

namespace Settings

inductive Layer where
  /-- A settings file, with its text if there is such a file. -/
  | file (text : Option String) (required : Bool)
  | setting (key : String) (value : Value)

inductive LoadError where
  /-- The key of a layer is no path. -/
  | badKey (layer : Nat)
  /-- A file is missing or cannot be read, or a setting has a value that it cannot have. -/
  | notBuilt
  deriving DecidableEq, Repr

def LoadError.message : LoadError → String
  | .badKey _ | .notBuilt => "failed to load configuration"

/-- The settings of single keys, by the text of their paths; the last one for a path counts. -/
abbrev Overlay := Table String (KeyPath × Value)

/-- The settings of single keys among the layers, the first of which has the given number. -/
def overlay (number : Nat) (o : Overlay) : List Layer → Except LoadError Overlay
  | [] => .ok o
  | .file _ _ :: rest => overlay (number + 1) o rest
  | .setting key value :: rest =>
    match KeyPath.read key.toList with
    | none => .error (.badKey number)
    | some path => overlay (number + 1) (o.insert path.text (path, value)) rest

/-- The entries of a file on top of others. A key of a file that writes a path is one. -/
def addFile (there : Value.Entries) : Value.Entries → Value.Entries
  | [] => there
  | (key, value) :: rest =>
    let path := (KeyPath.read key.toList).getD ⟨foldKey key, []⟩
    addFile (value.putAt path there) rest

def addFiles (there : Value.Entries) : List Layer → Option Value.Entries
  | [] => some there
  | .file (some text) _ :: rest => do
    addFiles (addFile there (← Toml.read text.toList)) rest
  | .file none required :: rest => if required then none else addFiles there rest
  | .setting _ _ :: rest => addFiles there rest

def addOverlay (there : Value.Entries) (o : Overlay) : Value.Entries :=
  o.entries.foldl (fun there entry => entry.2.2.putAt entry.2.1 there) there

def defaults : Value.Entries :=
  [("output", .table [("format", .text "json"), ("pretty", .bool true)])]

def Value.asText : Value → Option String
  | .text s => some s
  | .bool true => some "true"
  | .bool false => some "false"
  | .int n => some (toString n)
  | .float x => some x.text
  | _ => none

def Value.asBool : Value → Option Bool
  | .bool b => some b
  | .int n => some (n ≠ 0)
  | .float x => some (x.significand ≠ 0)
  | .text s =>
    let word := foldKey s
    if ["1", "true", "on", "yes"].contains word then some true
    else if ["0", "false", "off", "no"].contains word then some false
    else none
  | _ => none

def Value.asFormat : Value → Option Format
  | .text s => Format.ofName s
  | .table [(name, _)] => Format.ofName name
  | _ => none

/-- Nothing set is absent, and so is nil. -/
def Value.asOption {α : Type} (read : Value → Option α) : Option Value → Option (Option α)
  | none | some .nil => some none
  | some v => (read v).map some

def Value.asTexts : Value → Option (List String)
  | .list items => items.mapM Value.asText
  | _ => none

/-- The fields of a record: a table of them, or a list of them in their order. -/
def Value.fields (names : List String) : Value → Option (String → Option Value)
  | .table entries => some fun name => entries.lookup name
  | .list items => some fun name => (names.zip items).lookup name
  | _ => none

def readOverrides : Option Value → Option Overrides
  | none => some ⟨none, none, none⟩
  | some v => do
    let field ← v.fields ["name", "scope_name", "file_types"]
    return {
      name := ← Value.asOption Value.asText (field "name")
      scopeName := ← Value.asOption Value.asText (field "scope_name")
      fileTypes := ← Value.asOption Value.asTexts (field "file_types") }

/-- The settings that entries describe; others than theirs are ignored. -/
def ofEntries (entries : Value.Entries) : Option Settings := do
  let field ← (← entries.lookup "output").fields ["format", "pretty"]
  return {
    format := ← (← field "format").asFormat
    pretty := ← (← field "pretty").asBool
    overrides := ← readOverrides (entries.lookup "metadata") }

def load (layers : List Layer) : Except LoadError Settings := do
  let o ← overlay 0 .empty layers
  match (addFiles defaults layers).bind fun there => ofEntries (addOverlay there o) with
  | some settings => return settings
  | none => throw .notBuilt

end Settings

end ScopeGrammar
