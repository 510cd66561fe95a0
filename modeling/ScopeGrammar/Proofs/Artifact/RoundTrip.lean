import ScopeGrammar.Artifact.Emission
import ScopeGrammar.Proofs.Artifact.Written

set_option autoImplicit false

namespace ScopeGrammar.Artifact

open Outline (field? fieldsDepth)
open Json (Document Fault Slot given given_of given_bind decodeOption_ok
  decodeRecord_keeps decodeTable_ok decodeList_ok)

theorem decodeCapture_ok {room : Nat} {document : Document} {scope : String}
    (read : decodeCapture room document = .ok scope) : (captureOutline scope).depth ≤ room := by
  cases room with
  | zero => cases document <;> cases read
  | succ room => simp [captureOutline, Outline.depth, Outline.field, fieldsDepth]

theorem index_ok {q : Json.Quoted} {n : Nat} (read : q.index = .ok n) : n < 1 <<< 64 := by
  unfold Json.Quoted.index at read
  grind

structure CapturesFit (room : Nat) (captures : Captures) : Prop where
  indexed : isIndexed captures = true
  shallow : (capturesOutline captures).depth ≤ room

theorem decodeCaptures_ok {room : Nat} {document : Document} {captures : Captures}
    (read : decodeCaptures room document = .ok captures) : CapturesFit room captures := by
  cases room with
  | zero => cases document <;> cases read
  | succ room =>
    have each := decodeTable_ok
      (P := fun entry => entry.1 < 1 <<< 64 ∧ (captureOutline entry.2).depth ≤ room)
      (fun _ _ _ _ named tagged => ⟨index_ok named, decodeCapture_ok tagged⟩) read
    refine ⟨List.all_eq_true.2 fun entry member => decide_eq_true (each entry member).1, ?_⟩
    rw [capturesOutline, Outline.depth, Nat.add_le_add_iff_right, Outline.fieldsDepth_le,
      List.forall_mem_map]
    exact fun entry member => (each entry member).2

structure ItemsFit (room : Nat) (items : List Item) : Prop where
  indexed : Item.areIndexed items = true
  shallow : (childrenOutline items).depth ≤ room

/-- What has been read of an item is written no deeper than `room`. -/
structure PartsFit (room : Nat) (parts : Fields × Option (List Item)) : Prop where
  captures : ∀ c ∈ parts.1.captures, CapturesFit room c
  openingCaptures : ∀ c ∈ parts.1.openingCaptures, CapturesFit room c
  closingCaptures : ∀ c ∈ parts.1.closingCaptures, CapturesFit room c
  children : ∀ items ∈ parts.2, ItemsFit room items

theorem PartsFit.item {room : Nat} {fields : Fields} {children : Option (List Item)}
    (fit : PartsFit room (fields, children)) :
    (Item.ofParts fields children).isIndexed = true ∧
      (Item.ofParts fields children).outline.depth ≤ room + 1 := by
  have indexed : fields.isIndexed = true := by
    simp only [Fields.isIndexed, Bool.and_eq_true, Option.all_eq_true]
    exact ⟨⟨fun c is => (fit.captures c is).indexed, fun c is => (fit.openingCaptures c is).indexed⟩,
      fun c is => (fit.closingCaptures c is).indexed⟩
  have shallow := fieldsDepth_outline.2 ⟨fun c is => (fit.captures c is).shallow,
    fun c is => (fit.openingCaptures c is).shallow, fun c is => (fit.closingCaptures c is).shallow,
    fun items is => (fit.children items is).shallow⟩
  cases children with
  | none => exact ⟨indexed, by simpa [Item.outline_eq, Item.ofParts, Item.fields, Item.children?,
      Outline.depth] using shallow⟩
  | some items =>
    refine ⟨?_, by simpa [Item.outline_eq, Item.ofParts, Item.fields, Item.children?,
      Outline.depth] using shallow⟩
    rw [Item.ofParts, Item.isIndexed, indexed, (fit.children items rfl).indexed, Bool.and_self]

theorem itemSlots_keep {room : Nat}
    (nested : ∀ document items, decodeItems room document = .ok items → ItemsFit room items) :
    ∀ slot ∈ itemSlots (decodeCaptures room) (decodeItems room), ∀ document state state',
      slot.put document state = .ok state' → PartsFit room state → PartsFit room state' := by
  have tagged (document : Document) (c? : Option Captures)
      (read : Json.decodeOption (decodeCaptures room) document = .ok c?) :
      ∀ c ∈ c?, CapturesFit room c := fun c is => decodeCaptures_ok (decodeOption_ok read c is)
  have listed (document : Document) (items? : Option (List Item))
      (read : Json.decodeOption (decodeItems room) document = .ok items?) :
      ∀ items ∈ items?, ItemsFit room items := fun items is =>
    nested document items (decodeOption_ok read items is)
  simp only [itemSlots, List.forall_mem_cons]
  refine ⟨Slot.of_keeps fun _ _ _ _ fit => { fit with }, Slot.of_keeps fun _ _ _ _ fit => { fit with },
    Slot.of_keeps fun _ _ _ _ fit => { fit with }, Slot.of_keeps fun _ _ _ _ fit => { fit with },
    Slot.of_keeps fun document _ _ read fit => { fit with captures := tagged document _ read },
    Slot.of_keeps fun _ _ _ _ fit => { fit with },
    Slot.of_keeps fun document _ _ read fit => { fit with openingCaptures := tagged document _ read },
    Slot.of_keeps fun _ _ _ _ fit => { fit with },
    Slot.of_keeps fun document _ _ read fit => { fit with closingCaptures := tagged document _ read },
    Slot.of_keeps fun document _ _ read fit => { fit with children := listed document _ read },
    by simp⟩

theorem decodeItem_ok (room : Nat) :
    (∀ document item, decodeItem room document = .ok item →
      item.isIndexed = true ∧ item.outline.depth ≤ room) ∧
    ∀ document items, decodeItems room document = .ok items → ItemsFit room items := by
  induction room with
  | zero =>
    constructor
    · intro document item read
      cases document <;> cases read
    · intro document items read
      cases document <;> cases read
  | succ room ih =>
    constructor
    · intro document item read
      rw [decodeItem] at read
      obtain ⟨⟨fields, children⟩, record, ⟨⟩⟩ := bind_eq_ok.1 read
      exact (decodeRecord_keeps (itemSlots_keep ih.2) record ⟨by simp, by simp, by simp, by simp⟩).item
    · intro document items read
      rw [decodeItems] at read
      have each := decodeList_ok ih.1 read
      refine ⟨Item.areIndexed_iff.2 fun item member => (each item member).1, ?_⟩
      rw [childrenOutline, Outline.depth, Nat.add_le_add_iff_right, Outline.itemsDepth_le,
        Item.outlines_eq_map, List.forall_mem_map]
      exact fun item member => (each item member).2

theorem decodeRules_ok {room : Nat} {document : Document} {rules : Table String Item}
    (read : decodeRules room document = .ok rules) :
    (∀ entry ∈ rules.entries, entry.2.isIndexed = true) ∧ (rulesOutline rules).depth ≤ room := by
  cases room with
  | zero => cases document <;> cases read
  | succ room =>
    have each := decodeTable_ok
      (P := fun entry => entry.2.isIndexed = true ∧ entry.2.outline.depth ≤ room)
      (fun _ _ _ _ _ item => (decodeItem_ok room).1 _ _ item) read
    refine ⟨fun entry member => (each entry member).1, ?_⟩
    rw [rulesOutline, Outline.depth, Nat.add_le_add_iff_right, Outline.fieldsDepth_le,
      List.forall_mem_map]
    exact fun entry member => (each entry member).2

/-- What has been read of an artifact is written no deeper than `room`. -/
structure Draft.Fits (room : Nat) (d : Draft) : Prop where
  patterns : ∀ items ∈ d.patterns, ItemsFit room items
  repository : ∀ rules ∈ d.repository,
    (∀ entry ∈ rules.entries, entry.2.isIndexed = true) ∧ (rulesOutline rules).depth ≤ room

theorem draftSlots_keep (room : Nat) :
    ∀ slot ∈ draftSlots room, ∀ document state state', slot.put document state = .ok state' →
      state.Fits room → state'.Fits room := by
  simp only [draftSlots, List.forall_mem_cons]
  refine ⟨Slot.of_keeps fun _ _ _ _ fit => { fit with }, Slot.of_keeps fun _ _ _ _ fit => { fit with },
    Slot.of_keeps fun _ _ _ _ fit => { fit with },
    Slot.of_keeps fun _ _ _ read fit => { fit with patterns := ?_ },
    Slot.of_keeps fun _ _ _ read fit => { fit with repository := ?_ }, by simp⟩
  · rintro items ⟨⟩
    exact (decodeItem_ok room).2 _ _ read
  · rintro rules ⟨⟩
    exact decodeRules_ok read

theorem require_ok {α : Type} {a? : Option α} {a : α} (required : Json.require a? = .ok a) :
    a? = some a := by
  cases a? <;> cases required
  rfl

theorem Draft.finish_ok {d : Draft} {a : Artifact} (finished : d.finish = .ok a) :
    d.patterns = some a.patterns ∧ d.repository = some a.repository := by
  obtain ⟨_, _, finished⟩ := bind_eq_ok.1 finished
  obtain ⟨_, _, finished⟩ := bind_eq_ok.1 finished
  obtain ⟨_, _, finished⟩ := bind_eq_ok.1 finished
  obtain ⟨patterns, given, finished⟩ := bind_eq_ok.1 finished
  obtain ⟨rules, given', ⟨⟩⟩ := bind_eq_ok.1 finished
  exact ⟨require_ok given, require_ok given'⟩

/-- What has been read nests no deeper than it may when it is written. -/
theorem decode_ok {document : Document} {a : Artifact} (read : decode document = .ok a) :
    a.hasIndices = true ∧ a.outline.depth ≤ Json.deepest := by
  obtain ⟨draft, record, finished⟩ := bind_eq_ok.1 read
  have fit := decodeRecord_keeps (draftSlots_keep _) record ⟨by simp, by simp⟩
  obtain ⟨patterns, rules⟩ := Draft.finish_ok finished
  have items := fit.patterns _ patterns
  have repository := fit.repository _ rules
  constructor
  · rw [hasIndices, items.indexed, Bool.true_and, List.all_eq_true]
    exact repository.1
  · exact (depth_outline _ (by decide)).2 ⟨items.shallow, repository.2⟩

theorem read_print (pretty : Bool) (a : Artifact) :
    read (print .json pretty a.outline) = decode a.outline.document := by
  have text : ∃ l : Json.Layout, l.Blank ∧ print .json pretty a.outline = Json.print l a.outline := by
    cases pretty
    · exact ⟨.compact, Json.Layout.compact_blank, rfl⟩
    · exact ⟨.indented, Json.Layout.indented_blank, rfl⟩
  obtain ⟨l, blank, text⟩ := text
  rw [read, text, Json.read_print blank]
  show (decode a.outline.document >>= fun artifact => _) = _
  cases decode a.outline.document <;> rfl

theorem read_ok {text : String} {a : Artifact} (accepted : read text = .ok a) :
    a.hasIndices = true ∧ a.outline.depth ≤ Json.deepest := by
  rw [read] at accepted
  generalize Document.read text.toList = document at accepted
  obtain ⟨b, decoded, accepted⟩ := bind_eq_ok.1 accepted
  have same : b = a := by
    split at accepted <;> cases accepted
    rfl
  exact decode_ok (same ▸ decoded)

/-- Written as JSON, in one line or in many, an artifact is read as it was if it nests no deeper than
a text may, and is no JSON otherwise; an artifact that has been read never nests deeper. -/
theorem read_print_json (pretty : Bool) :
    (∀ a : Artifact, a.hasIndices = true →
      read (print .json pretty a.outline) =
        if a.outline.depth ≤ Json.deepest then .ok a else .error .malformed) ∧
      ∀ (text : String) (a : Artifact), read text = .ok a →
        read (print .json pretty a.outline) = .ok a := by
  constructor
  · intro a indices
    rw [read_print, decode_outline indices, given]
  · intro text a accepted
    obtain ⟨indices, shallow⟩ := read_ok accepted
    rw [read_print, decode_outline indices, given_of shallow]

def Item.wrapped : (levels : Nat) → Item
  | 0 => .leaf { pattern := "(\"a\")", captures := some (Table.empty.insert (1 <<< 64 - 1) "x.y") }
  | levels + 1 => .nest {} [Item.wrapped levels]

def wrapped (levels : Nat) : Artifact := ⟨"A\n", "source.a", ["a"], [Item.wrapped levels], .empty⟩

theorem wrapped_hasIndices (levels : Nat) : (wrapped levels).hasIndices = true := by
  have item : (Item.wrapped levels).isIndexed = true := by
    induction levels with
    | zero => rfl
    | succ levels ih =>
      rw [Item.wrapped, Item.isIndexed, Item.areIndexed, ih]
      rfl
  simp [wrapped, hasIndices, Item.areIndexed, item, Table.empty]

theorem wrapped_depth (levels : Nat) : (wrapped levels).outline.depth = 2 * levels + 5 := by
  have item : (Item.wrapped levels).outline.depth = 2 * levels + 3 := by
    induction levels with
    | zero => rfl
    | succ levels ih =>
      simp [Item.wrapped, Item.outline, Item.outlines, Fields.outline, Outline.depth, field?,
        Outline.field, fieldsDepth, Outline.itemsDepth, ih]
      omega
  simp [wrapped, outline, Item.outlines, Outline.depth, Outline.field, fieldsDepth,
    Outline.itemsDepth, Outline.texts, Table.empty, item]

theorem read_print_json_wrapped :
    read (print .json false (wrapped 61).outline) = .ok (wrapped 61) ∧
      read (print .json true (wrapped 61).outline) = .ok (wrapped 61) ∧
      read (print .json true (wrapped 62).outline) = .error .malformed := by
  have written := (read_print_json false).1 (wrapped 61) (wrapped_hasIndices 61)
  rw [if_pos (by rw [wrapped_depth]; decide)] at written
  refine ⟨written, (read_print_json true).2 _ _ written, ?_⟩
  rw [(read_print_json true).1 (wrapped 62) (wrapped_hasIndices 62),
    if_neg (by rw [wrapped_depth]; decide)]

end ScopeGrammar.Artifact
