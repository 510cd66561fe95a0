import ScopeGrammar.Artifact.Basic
import ScopeGrammar.Json.Document

/-!
Reading artifacts from JSON. What is wrong first, in the order of the text, decides how reading
fails. A record is an object, or a list of its fields in their order.
-/

set_option autoImplicit false

namespace ScopeGrammar.Json

abbrev Decoder (α : Type) := Document → Except Fault α

def decodeText : Decoder String
  | .string q => q.decode
  | document => .error document.refuse

def decodeOption {α : Type} (value : Decoder α) : Decoder (Option α)
  | .null => .ok none
  | document => (value document).map some

def decodeList {α : Type} (item : Decoder α) : Decoder (List α)
  | .array items ending => do
    let values ← items.mapM item
    ending.check
    return values
  | document => .error document.refuse

/-- Put members into a table one after the other; of equal keys the last one counts. -/
def decodeMembers {κ α : Type} [Ord κ] [Std.TransOrd κ] [Std.LawfulEqOrd κ]
    (key : Quoted → Except Fault κ) (value : Decoder α) :
    Table κ α → List (Quoted × Document) → Except Fault (Table κ α)
  | table, [] => .ok table
  | table, (q, document) :: rest => do
    let k ← key q
    let a ← value document
    decodeMembers key value (table.insert k a) rest

def decodeTable {κ α : Type} [Ord κ] [Std.TransOrd κ] [Std.LawfulEqOrd κ]
    (key : Quoted → Except Fault κ) (value : Decoder α) : Decoder (Table κ α)
  | .object members ending => do
    let table ← decodeMembers key value .empty members
    ending.check
    return table
  | document => .error document.refuse

/-- A field of a record: its name and what its value changes. -/
structure Slot (σ : Type) where
  name : String
  put : Document → σ → Except Fault σ

def Slot.of {σ α : Type} (name : String) (value : Decoder α) (keep : σ → α → σ) : Slot σ :=
  ⟨name, fun document state => (value document).map (keep state)⟩

/-- The members of a record in any order; a field is given once, and other members are skipped. -/
def decodeNamed {σ : Type} (slots : List (Slot σ)) :
    (seen : List String) → σ → List (Quoted × Document) → Except Fault σ
  | _, state, [] => .ok state
  | seen, state, (q, document) :: rest => do
    let name ← q.decode
    match slots.find? (·.name = name) with
    | none =>
      document.skip
      decodeNamed slots seen state rest
    | some slot =>
      if seen.contains name then throw .mismatched
      let state ← slot.put document state
      decodeNamed slots (name :: seen) state rest

/-- The fields of a record in their order; the last ones may be missing, and there are no more. -/
def decodePlaced {σ : Type} : List (Slot σ) → σ → List Document → Except Fault σ
  | _, state, [] => .ok state
  | [], _, _ :: _ => .error .malformed
  | slot :: slots, state, document :: rest => do
    let state ← slot.put document state
    decodePlaced slots state rest

def decodeRecord {σ : Type} (slots : List (Slot σ)) (blank : σ) : Decoder σ
  | .array items ending => do
    let state ← decodePlaced slots blank items
    ending.check
    return state
  | .object members ending => do
    let state ← decodeNamed slots [] blank members
    ending.check
    return state
  | document => .error document.refuse

def tooDeep {α : Type} : Decoder α
  | .array _ _ | .object _ _ => .error .malformed
  | document => .error document.refuse

def require {α : Type} : Option α → Except Fault α
  | none => .error .mismatched
  | some a => .ok a

def deepest : Nat := 127

end ScopeGrammar.Json

namespace ScopeGrammar.Artifact

open Json (Decoder Document Fault Slot decodeText decodeOption decodeList decodeTable decodeRecord
  tooDeep require)

/-- The tag of a capture; `room` more lists and objects may be entered. -/
def decodeCapture : (room : Nat) → Decoder String
  | 0 => tooDeep
  | _ + 1 => fun document => do
    require (← decodeRecord [.of "name" decodeText fun _ name => some name] none document)

def decodeCaptures : (room : Nat) → Decoder Captures
  | 0, .array _ _ => .error .mismatched
  | 0, document => tooDeep document
  | room + 1, document => decodeTable Json.Quoted.index (decodeCapture room) document

/-- The fields of an item and how they are kept with what has been read of it. -/
def itemSlots (captures : Decoder Captures) (children : Decoder (List Item)) :
    List (Slot (Fields × Option (List Item))) := [
  .of "include" (decodeOption decodeText) fun (f, c) a => ({ f with reference := a }, c),
  .of "name" (decodeOption decodeText) fun (f, c) a => ({ f with name := a }, c),
  .of "contentName" (decodeOption decodeText) fun (f, c) a => ({ f with contentName := a }, c),
  .of "match" (decodeOption decodeText) fun (f, c) a => ({ f with pattern := a }, c),
  .of "captures" (decodeOption captures) fun (f, c) a => ({ f with captures := a }, c),
  .of "begin" (decodeOption decodeText) fun (f, c) a => ({ f with opening := a }, c),
  .of "beginCaptures" (decodeOption captures) fun (f, c) a => ({ f with openingCaptures := a }, c),
  .of "end" (decodeOption decodeText) fun (f, c) a => ({ f with closing := a }, c),
  .of "endCaptures" (decodeOption captures) fun (f, c) a => ({ f with closingCaptures := a }, c),
  .of "patterns" (decodeOption children) fun (f, _) a => (f, a)]

mutual

def decodeItem : (room : Nat) → Decoder Item
  | 0, document => tooDeep document
  | room + 1, document => do
    let slots := itemSlots (decodeCaptures room) (decodeItems room)
    let (fields, children) ← decodeRecord slots ({}, none) document
    return Item.ofParts fields children

def decodeItems : (room : Nat) → Decoder (List Item)
  | 0, .object _ _ => .error .mismatched
  | 0, document => tooDeep document
  | room + 1, document => decodeList (decodeItem room) document

end

def decodeRules : (room : Nat) → Decoder (Table String Item)
  | 0, .array _ _ => .error .mismatched
  | 0, document => tooDeep document
  | room + 1, document => decodeTable Json.Quoted.decode (decodeItem room) document

/-- What has been read of an artifact. -/
structure Draft where
  name : Option String := none
  scopeName : Option String := none
  fileTypes : Option (List String) := none
  patterns : Option (List Item) := none
  repository : Option (Table String Item) := none

def Draft.finish (d : Draft) : Except Fault Artifact := do
  return {
    name := ← require d.name
    scopeName := ← require d.scopeName
    fileTypes := ← require d.fileTypes
    patterns := ← require d.patterns
    repository := ← require d.repository }

def draftSlots (room : Nat) : List (Slot Draft) := [
  .of "name" decodeText fun d a => { d with name := some a },
  .of "scopeName" decodeText fun d a => { d with scopeName := some a },
  .of "fileTypes" (decodeList decodeText) fun d a => { d with fileTypes := some a },
  .of "patterns" (decodeItems room) fun d a => { d with patterns := some a },
  .of "repository" (decodeRules room) fun d a => { d with repository := some a }]

def decode (document : Document) : Except Fault Artifact := do
  (← decodeRecord (draftSlots (Json.deepest - 1)) {} document).finish

def read (text : String) : Except Fault Artifact :=
  let (document, rest) := Document.read text.toList
  do
    let artifact ← decode document
    if rest.all (Json.skipBlanks · ≠ []) then throw .malformed
    return artifact

end ScopeGrammar.Artifact
