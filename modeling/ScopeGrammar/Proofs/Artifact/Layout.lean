import Mathlib.Logic.Relation
import ScopeGrammar.Proofs.Json.Decoding
import ScopeGrammar.Proofs.Json.Members
import ScopeGrammar.Proofs.Json.Spelling

/-!
How an artifact is laid out does not count: the order of members, members that belong to no field, fields
of items that are written as null, and the blanks of the text. Documents that differ in this way, at any
depth, are read alike.
-/

set_option autoImplicit false

namespace ScopeGrammar.Artifact

open Json (Decoder Document Fault Quoted Ending Slot IsJson Reordered memberKey decodeRecord decodeOption
  tooDeep)

/-- What is read at a place of a document. -/
inductive Kind where
  | artifact
  | rules
  | items
  | item
  | captures
  | tag
  deriving DecidableEq

namespace Kind

def artifactFields : List String := ["name", "scopeName", "fileTypes", "patterns", "repository"]

def itemFields : List String :=
  ["include", "name", "contentName", "match", "captures", "begin", "beginCaptures", "end", "endCaptures",
    "patterns"]

def fields? : Kind → Option (List String)
  | .artifact => some artifactFields
  | .item => some itemFields
  | .tag => some ["name"]
  | .rules | .items | .captures => none

def member : Kind → String → Option Kind
  | .artifact, name =>
    if name = "patterns" then some .items else if name = "repository" then some .rules else none
  | .item, name =>
    if name = "patterns" then some .items
    else if name ∈ ["captures", "beginCaptures", "endCaptures"] then some .captures
    else none
  | .rules, _ => some .item
  | .captures, _ => some .tag
  | .items, _ | .tag, _ => none

def element : Kind → Nat → Option Kind
  | .items, _ => some .item
  | kind, i => (kind.fields?.bind (·[i]?)).bind kind.member

abbrev Value : Kind → Type
  | .artifact => Artifact
  | .rules => Table String Item
  | .items => List Item
  | .item => Item
  | .captures => Captures
  | .tag => String

def read : (kind : Kind) → (room : Nat) → Decoder kind.Value
  | .artifact, 0 => tooDeep
  | .artifact, room + 1 => fun document => do (← decodeRecord (draftSlots room) {} document).finish
  | .rules, room => decodeRules room
  | .items, room => decodeItems room
  | .item, room => decodeItem room
  | .captures, room => decodeCaptures room
  | .tag, room => decodeCapture room

end Kind

/-- A change of the layout at one place of a document. -/
inductive Change : Kind → Document → Document → Prop
  /-- Members with equal keys keep their order. -/
  | reorder {kind : Kind} {ms ms' : List (Quoted × Document)} (same : Reordered memberKey ms ms')
      (ending : Ending) : Change kind (.object ms ending) (.object ms' ending)
  /-- A value of any kind and depth comes in under a name that is no field of the record. -/
  | insert {kind : Kind} {fields : List String} {before behind : List (Quoted × Document)} {q : Quoted}
      {name : String} {d : Document} (record : kind.fields? = some fields) (key : q.decode = .ok name)
      (other : name ∉ fields) (value : IsJson d) (ending : Ending) :
      Change kind (.object (before ++ behind) ending) (.object (before ++ (q, d) :: behind) ending)
  /-- A field that an item does not have is written as null. -/
  | null {before behind : List (Quoted × Document)} {q : Quoted} {name : String}
      (key : q.decode = .ok name) (field : name ∈ Kind.itemFields)
      (absent : ∀ m ∈ before ++ behind, m.1.decode ≠ .ok name) (ending : Ending) :
      Change .item (.object (before ++ behind) ending) (.object (before ++ (q, .null) :: behind) ending)
  | member {kind inner : Kind} {before behind : List (Quoted × Document)} {q : Quoted} {name : String}
      {d d' : Document} (key : q.decode = .ok name) (is : kind.member name = some inner)
      (change : Change inner d d') (ending : Ending) :
      Change kind (.object (before ++ (q, d) :: behind) ending)
        (.object (before ++ (q, d') :: behind) ending)
  | element {kind inner : Kind} {before behind : List Document} {d d' : Document}
      (is : kind.element before.length = some inner) (change : Change inner d d') (ending : Ending) :
      Change kind (.array (before ++ d :: behind) ending) (.array (before ++ d' :: behind) ending)

def IsNested : Document → Prop
  | .array _ _ | .object _ _ => True
  | _ => False

structure Alike (kind : Kind) (d d' : Document) : Prop where
  nested : IsNested d
  nested' : IsNested d'
  read : ∀ room, (kind.read room d).toOption = (kind.read room d').toOption

/-- How a record is read: what is kept of its fields and what is made of it. -/
structure Record (kind : Kind) (room : Nat) (fields : List String) where
  State : Type
  slots : List (Slot State)
  blank : State
  finish : State → Except Fault kind.Value
  reads : ∀ d, kind.read room d = decodeRecord slots blank d >>= finish
  names : slots.map (·.name) = fields
  commute : slots.Pairwise Slot.Commutes
  inside : ∀ slot ∈ slots, ∀ inner, kind.member slot.name = some inner → ∀ d d', Alike inner d d' →
    ∀ state, (slot.put d state).toOption = (slot.put d' state).toOption

theorem read_shallow {kind : Kind} {d : Document} (nested : IsNested d) :
    (kind.read 0 d).toOption = none := by
  cases d with
  | array | object => cases kind <;> rfl
  | null | bool | number | string | broken => cases nested

theorem decodeOption_alike {α : Type} {value : Decoder α} {d d' : Document} (nested : IsNested d)
    (nested' : IsNested d') (same : (value d).toOption = (value d').toOption) :
    (decodeOption value d).toOption = (decodeOption value d').toOption := by
  have some {d : Document} (nested : IsNested d) : d ≠ .null := by
    rintro rfl
    cases nested
  rw [Json.decodeOption_of (some nested), Json.decodeOption_of (some nested')]
  cases first : value d <;> cases second : value d' <;> simp_all [Except.toOption, Except.map]

theorem draftSlots_commute (room : Nat) : (draftSlots room).Pairwise Slot.Commutes := by
  simp only [draftSlots, List.pairwise_cons, List.forall_mem_cons, List.not_mem_nil, false_implies,
    implies_true, List.Pairwise.nil, and_true]
  and_intros <;> exact Slot.commutes_of fun _ _ _ => rfl

theorem itemSlots_commute (captures : Decoder Captures) (children : Decoder (List Item)) :
    (itemSlots captures children).Pairwise Slot.Commutes := by
  simp only [itemSlots, List.pairwise_cons, List.forall_mem_cons, List.not_mem_nil, false_implies,
    implies_true, List.Pairwise.nil, and_true]
  and_intros <;> exact Slot.commutes_of fun _ _ _ => rfl

def tagRecord (room : Nat) : Record .tag (room + 1) ["name"] where
  State := Option String
  slots := [.of "name" Json.decodeText fun _ name => some name]
  blank := none
  finish := Json.require
  reads _ := rfl
  names := rfl
  commute := List.pairwise_singleton _ _
  inside _ _ _ is := by cases is

def draftRecord (room : Nat) : Record .artifact (room + 1) Kind.artifactFields where
  State := Draft
  slots := draftSlots room
  blank := {}
  finish := Draft.finish
  reads _ := rfl
  names := rfl
  commute := draftSlots_commute room
  inside slot there inner is d d' alike state := by
    simp only [draftSlots, List.mem_cons, List.not_mem_nil, or_false] at there
    rcases there with rfl | rfl | rfl | rfl | rfl
    · cases is
    · cases is
    · cases is
    · cases is
      exact Slot.put_alike (alike.read room) state
    · cases is
      exact Slot.put_alike (alike.read room) state

def itemRecord (room : Nat) : Record .item (room + 1) Kind.itemFields where
  State := Fields × Option (List Item)
  slots := itemSlots (decodeCaptures room) (decodeItems room)
  blank := ({}, none)
  finish parts := return Item.ofParts parts.1 parts.2
  reads _ := rfl
  names := rfl
  commute := itemSlots_commute _ _
  inside slot there inner is d d' alike state := by
    have same := decodeOption_alike alike.nested alike.nested' (alike.read room)
    simp only [itemSlots, List.mem_cons, List.not_mem_nil, or_false] at there
    rcases there with rfl | rfl | rfl | rfl | rfl | rfl | rfl | rfl | rfl | rfl <;> cases is <;>
      exact Slot.put_alike same state

theorem Kind.record {kind : Kind} {fields : List String} (is : kind.fields? = some fields)
    (room : Nat) : Nonempty (Record kind (room + 1) fields) := by
  cases kind with
  | artifact => cases is; exact ⟨draftRecord room⟩
  | item => cases is; exact ⟨itemRecord room⟩
  | tag => cases is; exact ⟨tagRecord room⟩
  | rules | items | captures => cases is

section Found

variable {kind inner : Kind} {fields : List String} {name : String}

theorem Kind.mem_fields (record : kind.fields? = some fields) (is : kind.member name = some inner) :
    name ∈ fields := by
  cases kind with
  | artifact =>
    cases record
    simp only [Kind.member] at is
    split at is
    · simp_all [Kind.artifactFields]
    · split at is
      · simp_all [Kind.artifactFields]
      · cases is
  | item =>
    cases record
    simp only [Kind.member] at is
    split at is
    · simp_all [Kind.itemFields]
    · split at is
      · rename_i among
        have all : ∀ name ∈ ["captures", "beginCaptures", "endCaptures"], name ∈ Kind.itemFields := by
          decide
        exact all name among
      · cases is
  | tag => cases is
  | rules | items | captures => cases record

theorem Kind.element_record (record : kind.fields? = some fields) {i : Nat}
    (is : kind.element i = some inner) :
    ∃ name, fields[i]? = some name ∧ kind.member name = some inner := by
  cases kind with
  | artifact | item | tag =>
    cases record
    exact Option.bind_eq_some_iff.1 is
  | rules | items | captures => cases record

variable {room : Nat} (r : Record kind room fields)

theorem Record.find_field (field : name ∈ fields) :
    ∃ slot ∈ r.slots, slot.name = name ∧ r.slots.find? (·.name = name) = some slot := by
  have there : ∃ slot ∈ r.slots, slot.name = name := by simpa [← r.names] using field
  obtain ⟨slot, found⟩ := Option.isSome_iff_exists.1
    (List.find?_isSome.2 (by simpa using there : ∃ slot ∈ r.slots, decide (slot.name = name) = true))
  exact ⟨slot, List.mem_of_find?_eq_some found, by simpa using List.find?_some found, found⟩

theorem Record.find_other (other : name ∉ fields) : ∀ slot ∈ r.slots, slot.name ≠ name := by
  rintro slot there rfl
  have named := List.mem_map_of_mem (f := Slot.name) there
  rw [r.names] at named
  exact other named

theorem Record.getElem?_field {i : Nat} (field : fields[i]? = some name) :
    ∃ slot, r.slots[i]? = some slot ∧ slot.name = name := by
  rw [← r.names, List.getElem?_map] at field
  exact Option.map_eq_some_iff.1 field

end Found

section Alike

variable {kind : Kind} {d d' : Document}

theorem Alike.of_read (nested : IsNested d) (nested' : IsNested d')
    (read : ∀ room, (kind.read (room + 1) d).toOption = (kind.read (room + 1) d').toOption) :
    Alike kind d d' := by
  refine ⟨nested, nested', fun room => ?_⟩
  cases room with
  | zero => rw [read_shallow nested, read_shallow nested']
  | succ room => exact read room

theorem Alike.of_record {fields : List String} (is : kind.fields? = some fields) (nested : IsNested d)
    (nested' : IsNested d') (read : ∀ room (r : Record kind (room + 1) fields),
      (decodeRecord r.slots r.blank d).toOption = (decodeRecord r.slots r.blank d').toOption) :
    Alike kind d d' :=
  .of_read nested nested' fun room => by
    obtain ⟨r⟩ := Kind.record is room
    rw [r.reads, r.reads, toOption_bind, toOption_bind, read room r]

end Alike

theorem tells_name (q q' : Quoted) (name : String) (here : q.decode = .ok name)
    (there : q'.decode = .ok name) : q.decode = q'.decode := here.trans there.symm

theorem tells_index (q q' : Quoted) (n : Nat) (here : q.index = .ok n) (there : q'.index = .ok n) :
    q.decode = q'.decode := by
  rw [Json.index_eq_ok here, Json.index_eq_ok there]

theorem alike_reordered {ms ms' : List (Quoted × Document)} (same : Reordered memberKey ms ms')
    (kind : Kind) (ending : Ending) : Alike kind (.object ms ending) (.object ms' ending) := by
  cases fields : kind.fields? with
  | some names =>
    exact .of_record fields trivial trivial fun room r =>
      Json.decodeRecord_reordered (Json.apart_of_pairwise r.commute) r.blank same ending
  | none =>
    refine .of_read trivial trivial fun room => ?_
    cases kind with
    | rules => exact Json.decodeTable_reordered tells_name same ending
    | captures => exact Json.decodeTable_reordered tells_index same ending
    | items => rfl
    | artifact | item | tag => cases fields

theorem blank_null (captures : Decoder Captures) (children : Decoder (List Item)) :
    ∀ slot ∈ itemSlots captures children, slot.put .null ({}, none) = .ok ({}, none) := by
  simp only [itemSlots, List.forall_mem_cons, List.not_mem_nil, false_implies, implies_true, and_true]
  and_intros <;> rfl

theorem alike_member {kind inner : Kind} {before behind : List (Quoted × Document)} {q : Quoted}
    {name : String} {d d' : Document} (key : q.decode = .ok name) (is : kind.member name = some inner)
    (alike : Alike inner d d') (ending : Ending) :
    Alike kind (.object (before ++ (q, d) :: behind) ending)
      (.object (before ++ (q, d') :: behind) ending) := by
  cases fields : kind.fields? with
  | some names =>
    refine .of_record fields trivial trivial fun room r => ?_
    obtain ⟨slot, there, rfl, found⟩ := r.find_field (Kind.mem_fields fields is)
    exact Json.decodeRecord_field (Json.apart_of_pairwise r.commute) r.blank key found
      (r.inside slot there inner is d d' alike) ending
  | none =>
    refine .of_read trivial trivial fun room => ?_
    cases kind with
    | rules =>
      cases is
      exact Json.decodeTable_entry tells_name (alike.read room) ending
    | captures =>
      cases is
      exact Json.decodeTable_entry tells_index (alike.read room) ending
    | items => cases is
    | artifact | item | tag => cases fields

theorem alike_element {kind inner : Kind} {before behind : List Document} {d d' : Document}
    (is : kind.element before.length = some inner) (alike : Alike inner d d') (ending : Ending) :
    Alike kind (.array (before ++ d :: behind) ending) (.array (before ++ d' :: behind) ending) := by
  cases fields : kind.fields? with
  | some names =>
    refine .of_record fields trivial trivial fun room r => ?_
    obtain ⟨name, place, is⟩ := Kind.element_record fields is
    obtain ⟨slot, found, rfl⟩ := r.getElem?_field place
    exact Json.decodeRecord_at found
      (r.inside slot (List.mem_of_getElem? found) inner is d d' alike) r.blank ending
  | none =>
    refine .of_read trivial trivial fun room => ?_
    cases kind with
    | items =>
      cases is
      exact Json.decodeList_at (alike.read room) before behind ending
    | rules | captures => cases is
    | artifact | item | tag => cases fields

theorem Change.alike {kind : Kind} {d d' : Document} (change : Change kind d d') : Alike kind d d' := by
  induction change with
  | reorder same ending => exact alike_reordered same _ ending
  | insert record key other value ending =>
    exact .of_record record trivial trivial fun room r =>
      (Json.decodeRecord_insert (Json.apart_of_pairwise r.commute) r.blank key (r.find_other other)
        (Json.skip_isJson value) ending).symm
  | null key field absent ending =>
    refine .of_read trivial trivial fun room => ?_
    obtain ⟨slot, there, -, found⟩ := (itemRecord room).find_field field
    have same := Json.decodeRecord_absent (Json.apart_of_pairwise (itemRecord room).commute)
      (itemRecord room).blank key found (blank_null _ _ slot there) absent ending
    rw [(itemRecord room).reads, (itemRecord room).reads, toOption_bind, toOption_bind, same]
  | member key is _ ending alike => exact alike_member key is alike ending
  | element is _ ending alike => exact alike_element is alike ending

theorem decode_eqvGen {d d' : Document} (changes : Relation.EqvGen (Change .artifact) d d') :
    (decode d).toOption = (decode d').toOption := by
  induction changes with
  | rel d d' change => exact change.alike.read Json.deepest
  | refl d => rfl
  | symm d d' _ ih => exact ih.symm
  | trans d between d' _ _ ih ih' => exact ih.trans ih'

/-- A text is read as the artifact of the document that it spells. -/
theorem read_eq_ok_iff {text : String} {a : Artifact} :
    read text = .ok a ↔ ∃ d : Document, d.IsSpelled text.toList ∧ decode d = .ok a := by
  simp only [Json.isSpelled_iff]
  unfold read
  split
  rename_i document rest whole
  constructor
  · intro accepted
    obtain ⟨artifact, decoded, kept⟩ := bind_eq_ok.1 accepted
    cases rest with
    | none => cases kept
    | some rest =>
      by_cases blank : Json.skipBlanks rest = []
      · rw [if_neg (by simp [blank])] at kept
        cases kept
        exact ⟨document, ⟨rest, whole, blank⟩, decoded⟩
      · rw [if_pos (by simpa using blank)] at kept
        cases kept
  · rintro ⟨d, ⟨rest', read, blank⟩, decoded⟩
    rw [whole] at read
    cases read
    rw [decoded]
    simp [blank, bind, Except.bind]
    rfl

/-- Reading does not depend on the layout of a text. A text that is read as an artifact spells one
document, and whatever spells a document that comes from this one by changes of the layout, made or undone,
however many and at whatever depth, is read as the same artifact. -/
theorem read_layout {text : String} {a : Artifact} (accepted : read text = .ok a) :
    ∃ d : Document, d.IsSpelled text.toList ∧ (∀ other, other.IsSpelled text.toList → other = d) ∧
      ∀ d' (text' : String), Relation.EqvGen (Change .artifact) d d' → d'.IsSpelled text'.toList →
        read text' = .ok a := by
  obtain ⟨d, spelled, decoded⟩ := read_eq_ok_iff.1 accepted
  refine ⟨d, spelled, fun other spelled' => ?_, fun d' text' changes spelled' => ?_⟩
  · obtain ⟨rest, read, -⟩ := Json.isSpelled_iff.1 spelled
    obtain ⟨rest', read', -⟩ := Json.isSpelled_iff.1 spelled'
    rw [read] at read'
    cases read'
    rfl
  · have same := decode_eqvGen changes
    rw [toOption_eq_some.2 decoded] at same
    exact read_eq_ok_iff.2 ⟨d', spelled', toOption_eq_some.1 same.symm⟩

section Spread

def narrow : String := "[\"A\",\"a\",[],[\x7b\"name\":\"b\",\"match\":\"c\"\x7d],\x7b\x7d]"

def wide : String :=
  " [\"A\", \"a\", [], [\x7b\"match\": \"c\", \"x\": [1], \"end\": null, \"name\": \"b\"\x7d], \x7b \x7d]\n"

def nameMember : Quoted × Document := (⟨['n', 'a', 'm', 'e'], true⟩, .string ⟨['b'], true⟩)

def matchMember : Quoted × Document := (⟨['m', 'a', 't', 'c', 'h'], true⟩, .string ⟨['c'], true⟩)

def otherMember : Quoted × Document :=
  (⟨['x'], true⟩, .array [.number ⟨false, ['1'], none, none⟩] .closed)

def endMember : Quoted × Document := (⟨['e', 'n', 'd'], true⟩, .null)

def around (members : List (Quoted × Document)) : Document :=
  .array [.string ⟨['A'], true⟩, .string ⟨['a'], true⟩, .array [] .closed,
    .array [.object members .closed] .closed, .object [] .closed] .closed

theorem around_change {ms ms' : List (Quoted × Document)}
    (change : Change .item (.object ms .closed) (.object ms' .closed)) :
    Change .artifact (around ms) (around ms') :=
  have items : Change .items (.array [.object ms .closed] .closed)
      (.array [.object ms' .closed] .closed) := @Change.element .items .item [] [] _ _ rfl change .closed
  @Change.element .artifact .items [.string ⟨['A'], true⟩, .string ⟨['a'], true⟩, .array [] .closed]
    [.object [] .closed] _ _ rfl items .closed

def ofOneItem : Artifact :=
  ⟨"A", "a", [], [.leaf { name := some "b", pattern := some "c" }], .empty⟩

theorem read_layout_wide : read narrow = .ok ofOneItem ∧ read wide = .ok ofOneItem := by
  have accepted : read narrow = .ok ofOneItem := by cbv
  obtain ⟨d, -, only, same⟩ := read_layout accepted
  have spelled : (around [nameMember, matchMember]).IsSpelled narrow.toList :=
    Json.isSpelled_iff.2 ⟨[], by cbv, rfl⟩
  have spelled' : (around [matchMember, otherMember, endMember, nameMember]).IsSpelled wide.toList :=
    Json.isSpelled_iff.2 ⟨['\n'], by cbv, rfl⟩
  have reordered : Change .artifact (around [nameMember, matchMember])
      (around [matchMember, nameMember]) :=
    around_change (.reorder (Json.reordered_swap (by decide) [] []) .closed)
  have inserted : Change .artifact (around [matchMember, nameMember])
      (around [matchMember, otherMember, nameMember]) :=
    around_change (@Change.insert .item _ [matchMember] [nameMember] _ "x" _ rfl rfl (by decide)
      (.array (List.forall_mem_singleton.2 (.number _))) .closed)
  have given : Change .artifact (around [matchMember, otherMember, nameMember])
      (around [matchMember, otherMember, endMember, nameMember]) :=
    around_change (@Change.null [matchMember, otherMember] [nameMember] _ "end" rfl (by decide)
      (by decide) .closed)
  have changes := (Relation.EqvGen.rel _ _ reordered).trans _ _ _
    ((Relation.EqvGen.rel _ _ inserted).trans _ _ _ (.rel _ _ given))
  rw [only _ spelled] at changes
  exact ⟨accepted, same _ wide changes spelled'⟩

end Spread

end ScopeGrammar.Artifact
