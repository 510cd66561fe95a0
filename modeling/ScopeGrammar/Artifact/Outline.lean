import ScopeGrammar.Artifact.Basic

set_option autoImplicit false

namespace ScopeGrammar

/-- What a field of a record is found under. -/
inductive Outline.Key where
  | name (s : String)
  | index (n : Nat)
  deriving DecidableEq, Repr

inductive Outline where
  | text (s : String)
  | list (items : List Outline)
  | record (fields : List (Outline.Key × Outline))

namespace Outline

instance : Inhabited Outline := ⟨.record []⟩

def texts (items : List String) : Outline := .list (items.map .text)

def field (name : String) (value : Outline) : Key × Outline := (.name name, value)

def field? {α : Type} (name : String) (value : α → Outline) : Option α → List (Key × Outline)
  | none => []
  | some a => [field name (value a)]

end Outline

namespace Artifact

open Outline (field field?)

def captureOutline (scope : String) : Outline := .record [field "name" (.text scope)]

def capturesOutline (captures : Captures) : Outline :=
  .record (captures.entries.map fun (index, scope) => (.index index, captureOutline scope))

def Fields.outline (f : Fields) : List (Outline.Key × Outline) :=
  field? "include" .text f.reference ++
  field? "name" .text f.name ++
  field? "contentName" .text f.contentName ++
  field? "match" .text f.pattern ++
  field? "captures" capturesOutline f.captures ++
  field? "begin" .text f.opening ++
  field? "beginCaptures" capturesOutline f.openingCaptures ++
  field? "end" .text f.closing ++
  field? "endCaptures" capturesOutline f.closingCaptures

mutual

def Item.outline : Item → Outline
  | .leaf fields => .record fields.outline
  | .nest fields children =>
    .record (fields.outline ++ [field "patterns" (.list (Item.outlines children))])

def Item.outlines : List Item → List Outline
  | [] => []
  | item :: rest => item.outline :: Item.outlines rest

end

def outline (a : Artifact) : Outline :=
  .record [
    field "name" (.text a.name),
    field "scopeName" (.text a.scopeName),
    field "fileTypes" (.texts a.fileTypes),
    field "patterns" (.list (Item.outlines a.patterns)),
    field "repository"
      (.record (a.repository.entries.map fun (name, item) => field name item.outline))]

end Artifact

end ScopeGrammar
