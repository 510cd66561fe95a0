import ScopeGrammar.Artifact.Emission
import ScopeGrammar.Proofs.Json.Decoding

set_option autoImplicit false

namespace ScopeGrammar.Artifact

open Outline (field field? fieldsDepth itemsDepth)
open Json (Decoder Document Fault Slot Written given given_of given_and given_bind given_congr decodeText
  decodeText_document decodeOption decodeList decodeTable decodeRecord decodeRecord_written
  put_field put_field?)

/-- The groups that are tagged have numbers of 64 bits. -/
def isIndexed (captures : Captures) : Bool := captures.entries.all fun capture => capture.1 < 1 <<< 64

def Fields.isIndexed (f : Fields) : Bool :=
  f.captures.all Artifact.isIndexed && f.openingCaptures.all Artifact.isIndexed &&
    f.closingCaptures.all Artifact.isIndexed

mutual

def Item.isIndexed : Item → Bool
  | .leaf fields => fields.isIndexed
  | .nest fields children => fields.isIndexed && Item.areIndexed children

def Item.areIndexed : List Item → Bool
  | [] => true
  | item :: rest => item.isIndexed && Item.areIndexed rest

end

/-- All groups that an artifact tags have numbers of 64 bits. -/
def hasIndices (a : Artifact) : Bool :=
  Item.areIndexed a.patterns && a.repository.entries.all fun entry => entry.2.isIndexed

theorem Item.areIndexed_iff {items : List Item} :
    Item.areIndexed items = true ↔ ∀ item ∈ items, item.isIndexed = true := by
  induction items with
  | nil => simp [Item.areIndexed]
  | cons item rest ih => rw [Item.areIndexed, Bool.and_eq_true, ih, List.forall_mem_cons]

theorem Item.outlines_eq_map (items : List Item) : Item.outlines items = items.map Item.outline := by
  induction items with
  | nil => rfl
  | cons item rest ih => simp [Item.outlines, ih]

def childrenOutline (children : List Item) : Outline := .list (Item.outlines children)

theorem Item.outline_eq (item : Item) :
    item.outline =
      .record (item.fields.outline ++ field? "patterns" childrenOutline item.children?) := by
  cases item with
  | leaf fields => simp [Item.outline, Item.fields, Item.children?, field?]
  | nest fields children =>
    simp [Item.outline, Item.fields, Item.children?, field?, childrenOutline]

theorem fieldsDepth_field? {α : Type} {name : String} {value : α → Outline} {a? : Option α}
    {n : Nat} : fieldsDepth (field? name value a?) ≤ n ↔ ∀ a ∈ a?, (value a).depth ≤ n := by
  cases a? with
  | none => simp [field?, fieldsDepth]
  | some a => simp [field?, field, fieldsDepth]

section Written

variable {σ α : Type}

theorem members_field? (name : String) (value : α → Outline) (a? : Option α) :
    Outline.members (field? name value a?) =
      (a?.map fun a => (⟨Json.body name, true⟩, (value a).document)).toList := by
  cases a? <;> rfl

theorem members_nil : Written.members ([] : Written σ) = [] := rfl

theorem members_cons (slot : Slot σ) (document? : Option Document) (rest : Written σ) :
    Written.members ((slot, document?) :: rest) =
      (document?.map fun document => (⟨Json.body slot.name, true⟩, document)).toList ++
        rest.members := by
  cases document? <;> rfl

theorem decodeRecord_outline {slots : List (Slot σ)} (distinct : (slots.map (·.name)).Nodup)
    {fields : List (Outline.Key × Outline)} {written : Written σ} (all : slots = written.map (·.1))
    (members : Outline.members fields = written.members) (blank : σ) :
    decodeRecord slots blank (Outline.record fields).document = written.put blank := by
  rw [Outline.document, members, decodeRecord_written distinct all]

theorem put_text? {name : String} {keep : σ → Option String → σ} (text : Option String)
    (rest : Written σ) {state : σ} (absent : keep state none = state) :
    Written.put ((.of name (decodeOption decodeText) keep,
        text.map fun s => (Outline.text s).document) :: rest) state =
      rest.put (keep state text) := by
  have reads : ∀ s ∈ text, decodeText (Outline.text s).document = given True s := fun s _ =>
    (decodeText_document s).trans (given_of trivial).symm
  rw [put_field? Outline.text text reads rest absent, if_pos fun _ _ => trivial]

theorem put_text {name : String} {keep : σ → String → σ} (s : String) (rest : Written σ)
    (state : σ) :
    Written.put ((.of name decodeText keep, some (Outline.text s).document) :: rest) state =
      rest.put (keep state s) := by
  rw [put_field ((decodeText_document s).trans (given_of trivial).symm), if_pos trivial]

end Written

theorem decodeCapture_outline (room : Nat) (scope : String) :
    decodeCapture room (captureOutline scope).document =
      given ((captureOutline scope).depth ≤ room) scope := by
  have depth : (captureOutline scope).depth = 1 := by
    simp [captureOutline, Outline.depth, fieldsDepth, field]
  cases room with
  | zero =>
    rw [given, if_neg (by omega)]
    rfl
  | succ room =>
    have slots : List.map (·.1) [(Slot.of "name" decodeText fun (_ : Option String) name => some name,
        some (Outline.text scope).document)] =
          [.of "name" decodeText fun (_ : Option String) name => some name] := rfl
    have members : Outline.members [field "name" (.text scope)] =
        Written.members [(.of "name" decodeText fun (_ : Option String) name => some name,
          some (Outline.text scope).document)] := rfl
    have record := decodeRecord_outline (by simp [Slot.of]) slots.symm members none
    rw [put_text] at record
    rw [decodeCapture, given_of (by omega)]
    exact congrArg (· >>= Json.require) record

theorem decodeCaptures_outline (room : Nat) {captures : Captures}
    (indexed : isIndexed captures = true) :
    decodeCaptures room (capturesOutline captures).document =
      given ((capturesOutline captures).depth ≤ room) captures := by
  cases room with
  | zero =>
    rw [given, if_neg (by simp [capturesOutline, Outline.depth])]
    rfl
  | succ room =>
    have keys : ∀ entry ∈ captures.entries, Json.Quoted.index ⟨Nat.toDigits 10 entry.1, true⟩ =
        .ok entry.1 := fun entry member =>
      Json.index_toDigits (by simpa using List.all_eq_true.1 indexed entry member)
    have table := Json.decodeTable_members captures (fun entry =>
        (⟨Nat.toDigits 10 entry.1, true⟩, (captureOutline entry.2).document)) keys
      fun entry _ => decodeCapture_outline room entry.2
    have document : (capturesOutline captures).document = .object (captures.entries.map fun entry =>
        (⟨Nat.toDigits 10 entry.1, true⟩, (captureOutline entry.2).document)) .closed := by
      simp [capturesOutline, Outline.document, Outline.members_eq_map, Outline.Key.quoted]
    rw [decodeCaptures, document, table]
    refine given_congr ?_ captures
    simp only [capturesOutline, Outline.depth, Nat.add_le_add_iff_right, Outline.fieldsDepth_le,
      List.forall_mem_map]

section Items

variable {room : Nat}

def written (captures : Decoder Captures) (children : Decoder (List Item)) (f : Fields)
    (items : Option (List Item)) : Written (Fields × Option (List Item)) :=
  let text := fun s => (Outline.text s).document
  let tagged := fun c => (capturesOutline c).document
  (itemSlots captures children).zip [f.reference.map text, f.name.map text, f.contentName.map text,
    f.pattern.map text, f.captures.map tagged, f.opening.map text, f.openingCaptures.map tagged,
    f.closing.map text, f.closingCaptures.map tagged,
    items.map fun items => (childrenOutline items).document]

theorem members_outline (captures : Decoder Captures) (children : Decoder (List Item)) (f : Fields)
    (items : Option (List Item)) :
    Outline.members (f.outline ++ field? "patterns" childrenOutline items) =
      Written.members (written captures children f items) := by
  simp [written, itemSlots, Fields.outline, Slot.of, members_field?, members_cons, members_nil,
    Function.comp_def]

theorem fieldsDepth_outline {f : Fields} {items : Option (List Item)} :
    fieldsDepth (f.outline ++ field? "patterns" childrenOutline items) ≤ room ↔
      (∀ c ∈ f.captures, (capturesOutline c).depth ≤ room) ∧
        (∀ c ∈ f.openingCaptures, (capturesOutline c).depth ≤ room) ∧
        (∀ c ∈ f.closingCaptures, (capturesOutline c).depth ≤ room) ∧
        ∀ c ∈ items, (childrenOutline c).depth ≤ room := by
  have text (name : String) (s : Option String) : fieldsDepth (field? name .text s) ≤ room :=
    fieldsDepth_field?.2 fun _ _ => Nat.zero_le _
  simp only [Fields.outline, Outline.fieldsDepth_append, Nat.max_le, text, fieldsDepth_field?,
    true_and, and_true, and_assoc]

theorem put_written {captures : Decoder Captures} {children : Decoder (List Item)} {f : Fields}
    {items : Option (List Item)}
    (tagged : ∀ c, f.captures = some c ∨ f.openingCaptures = some c ∨ f.closingCaptures = some c →
      captures (capturesOutline c).document = given ((capturesOutline c).depth ≤ room) c)
    (nested : ∀ c ∈ items,
      children (childrenOutline c).document = given ((childrenOutline c).depth ≤ room) c) :
    (written captures children f items).put ({}, none) =
      given (fieldsDepth (f.outline ++ field? "patterns" childrenOutline items) ≤ room)
        (f, items) := by
  simp only [written, itemSlots, List.zip_cons_cons, List.zip_nil_left]
  rw [put_text? f.reference _ rfl, put_text? f.name _ rfl, put_text? f.contentName _ rfl,
    put_text? f.pattern _ rfl,
    put_field? capturesOutline f.captures (fun c is => tagged c (.inl is)) _ rfl,
    put_text? f.opening _ rfl,
    put_field? capturesOutline f.openingCaptures (fun c is => tagged c (.inr (.inl is))) _ rfl,
    put_text? f.closing _ rfl,
    put_field? capturesOutline f.closingCaptures (fun c is => tagged c (.inr (.inr is))) _ rfl,
    put_field? childrenOutline items nested _ rfl]
  refine Eq.trans ?_ (given_congr fieldsDepth_outline.symm (f, items))
  simp only [given_and]
  rfl

theorem decodeItems_of_each (room : Nat) {items : List Item}
    (each : ∀ room, ∀ item ∈ items,
      decodeItem room item.outline.document = given (item.outline.depth ≤ room) item) :
    decodeItems room (childrenOutline items).document =
      given ((childrenOutline items).depth ≤ room) items := by
  have depth (n : Nat) : (childrenOutline items).depth ≤ n + 1 ↔
      ∀ item ∈ items, item.outline.depth ≤ n := by
    rw [childrenOutline, Item.outlines_eq_map, Outline.depth, Nat.add_le_add_iff_right,
      Outline.itemsDepth_le, List.forall_mem_map]
  cases room with
  | zero =>
    rw [given, if_neg (by simp [childrenOutline, Outline.depth]), childrenOutline,
      Outline.document, decodeItems]
    · rfl
    · rintro members ending ⟨⟩
  | succ room =>
    rw [decodeItems, given_congr (depth room), childrenOutline, Item.outlines_eq_map]
    exact Json.decodeList_documents (each room)

theorem decodeItem_of_children {item : Item} (indexed : item.fields.isIndexed = true)
    (nested : ∀ room, ∀ c ∈ item.children?,
      decodeItems room (childrenOutline c).document = given ((childrenOutline c).depth ≤ room) c) :
    decodeItem room item.outline.document = given (item.outline.depth ≤ room) item := by
  rw [Item.outline_eq]
  cases room with
  | zero =>
    rw [given, if_neg (by simp [Outline.depth])]
    rfl
  | succ room =>
    simp only [Fields.isIndexed, Bool.and_eq_true, Option.all_eq_true] at indexed
    have tagged : ∀ c, item.fields.captures = some c ∨ item.fields.openingCaptures = some c ∨
        item.fields.closingCaptures = some c → isIndexed c = true := by
      rintro c (is | is | is)
      · exact indexed.1.1 c is
      · exact indexed.1.2 c is
      · exact indexed.2 c is
    have distinct (captures : Decoder Captures) (children : Decoder (List Item)) :
        ((itemSlots captures children).map (·.name)).Nodup := by
      simp [itemSlots, Slot.of]
    rw [decodeItem, decodeRecord_outline (distinct _ _) rfl (members_outline _ _ _ _),
      put_written (fun c is => decodeCaptures_outline room (tagged c is)) (nested room)]
    rw [given_bind]
    simp only [Item.ofParts_fields_children?]
    exact given_congr (Nat.add_le_add_iff_right ..).symm item

end Items

mutual

theorem decodeItem_outline (item : Item) (indexed : item.isIndexed = true) (room : Nat) :
    decodeItem room item.outline.document = given (item.outline.depth ≤ room) item :=
  match item with
  | .leaf fields => decodeItem_of_children indexed (by simp [Item.children?])
  | .nest fields children => by
    rw [Item.isIndexed, Bool.and_eq_true] at indexed
    have each (room : Nat) := decodeItem_outlines children indexed.2 room
    refine decodeItem_of_children indexed.1 fun room c is => ?_
    cases is
    exact decodeItems_of_each _ each

theorem decodeItem_outlines (items : List Item) (indexed : Item.areIndexed items = true)
    (room : Nat) :
    ∀ item ∈ items, decodeItem room item.outline.document = given (item.outline.depth ≤ room) item :=
  match items with
  | [] => by simp
  | item :: rest => by
    rw [Item.areIndexed, Bool.and_eq_true] at indexed
    exact List.forall_mem_cons.2
      ⟨decodeItem_outline item indexed.1 room, decodeItem_outlines rest indexed.2 room⟩

end

def rulesOutline (rules : Table String Item) : Outline :=
  .record (rules.entries.map fun (name, item) => field name item.outline)

theorem decodeRules_outline (room : Nat) {rules : Table String Item}
    (indexed : ∀ entry ∈ rules.entries, entry.2.isIndexed = true) :
    decodeRules room (rulesOutline rules).document =
      given ((rulesOutline rules).depth ≤ room) rules := by
  cases room with
  | zero =>
    rw [given, if_neg (by simp [rulesOutline, Outline.depth])]
    rfl
  | succ room =>
    have keys : ∀ entry ∈ rules.entries, Json.Quoted.decode ⟨Json.body entry.1, true⟩ = .ok entry.1 :=
      fun entry _ => Json.decode_body entry.1
    have table := Json.decodeTable_members rules
      (fun entry => (⟨Json.body entry.1, true⟩, entry.2.outline.document)) keys
      fun entry member => decodeItem_outline entry.2 (indexed entry member) room
    have document : (rulesOutline rules).document = .object (rules.entries.map fun entry =>
        (⟨Json.body entry.1, true⟩, entry.2.outline.document)) .closed := by
      simp [rulesOutline, Outline.document, Outline.members_eq_map, Outline.Key.quoted, field]
    rw [decodeRules, document, table]
    refine given_congr ?_ rules
    simp only [rulesOutline, Outline.depth, Nat.add_le_add_iff_right, Outline.fieldsDepth_le,
      List.forall_mem_map, field]

theorem decodeTexts_outline (texts : List String) :
    decodeList decodeText (Outline.texts texts).document = .ok texts := by
  have reads : ∀ s ∈ texts, decodeText (Outline.text s).document = given True s := fun s _ =>
    (decodeText_document s).trans (given_of trivial).symm
  rw [Outline.texts, Json.decodeList_documents reads, given_of fun _ _ => trivial]

theorem outline_eq (a : Artifact) :
    a.outline = .record [
      field "name" (.text a.name),
      field "scopeName" (.text a.scopeName),
      field "fileTypes" (.texts a.fileTypes),
      field "patterns" (childrenOutline a.patterns),
      field "repository" (rulesOutline a.repository)] := rfl

theorem depth_outline (a : Artifact) {room : Nat} (room_pos : 0 < room) :
    a.outline.depth ≤ room + 1 ↔
      (childrenOutline a.patterns).depth ≤ room ∧ (rulesOutline a.repository).depth ≤ room := by
  have texts : (Outline.texts a.fileTypes).depth ≤ room := by
    rw [Outline.texts, Outline.depth]
    exact Nat.succ_le_of_lt (Nat.lt_of_le_of_lt (Outline.itemsDepth_le.2 (by simp [Outline.depth]))
      room_pos)
  rw [outline_eq, Outline.depth, Nat.add_le_add_iff_right, Outline.fieldsDepth_le]
  simp [field, texts, Outline.depth]

theorem put_draft {a : Artifact} {room : Nat}
    (patterns : decodeItems room (childrenOutline a.patterns).document =
      given ((childrenOutline a.patterns).depth ≤ room) a.patterns)
    (rules : decodeRules room (rulesOutline a.repository).document =
      given ((rulesOutline a.repository).depth ≤ room) a.repository) :
    decodeRecord (draftSlots room) {} a.outline.document =
      given ((childrenOutline a.patterns).depth ≤ room ∧ (rulesOutline a.repository).depth ≤ room)
        ⟨a.name, a.scopeName, a.fileTypes, a.patterns, a.repository⟩ := by
  have distinct : ((draftSlots room).map (·.name)).Nodup := by simp [draftSlots, Slot.of]
  have texts := (decodeTexts_outline a.fileTypes).trans (given_of trivial).symm
  let documents := [some (Outline.text a.name).document, some (Outline.text a.scopeName).document,
    some (Outline.texts a.fileTypes).document, some (childrenOutline a.patterns).document,
    some (rulesOutline a.repository).document]
  have all : draftSlots room = ((draftSlots room).zip documents).map (·.1) := rfl
  rw [outline_eq, decodeRecord_outline distinct all rfl]
  simp only [draftSlots, documents, List.zip_cons_cons, List.zip_nil_left]
  rw [put_text, put_text, put_field texts, if_pos trivial, put_field patterns, put_field rules,
    given_and]
  rfl

/-- An artifact is read from its document if that nests no deeper than lists and objects may. -/
theorem decode_outline {a : Artifact} (indices : a.hasIndices = true) :
    decode a.outline.document = given (a.outline.depth ≤ Json.deepest) a := by
  rw [hasIndices, Bool.and_eq_true, Item.areIndexed_iff, List.all_eq_true] at indices
  have patterns := decodeItems_of_each (Json.deepest - 1)
    fun room item member => decodeItem_outline item (indices.1 item member) room
  have rules := decodeRules_outline (Json.deepest - 1) indices.2
  have positive : 0 < Json.deepest - 1 := by decide
  have depth := depth_outline a positive
  rw [decode, put_draft patterns rules, given_bind]
  exact given_congr depth.symm a

end ScopeGrammar.Artifact
