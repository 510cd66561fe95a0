import ScopeGrammar.Artifact.Reader
import ScopeGrammar.Proofs.Json.Printing
import ScopeGrammar.Proofs.Result

/-!
Decoding the documents of outlines. The members of a written record stand in the order of its
fields, those of a written table in the order of its keys, so that each is put in its place; where a
document is entered too deep the text is no JSON any more.
-/

set_option autoImplicit false

namespace ScopeGrammar

mutual

def Outline.depth : Outline → Nat
  | .text _ => 0
  | .list items => Outline.itemsDepth items + 1
  | .record fields => Outline.fieldsDepth fields + 1

def Outline.itemsDepth : List Outline → Nat
  | [] => 0
  | item :: rest => max item.depth (Outline.itemsDepth rest)

def Outline.fieldsDepth : List (Outline.Key × Outline) → Nat
  | [] => 0
  | (_, value) :: rest => max value.depth (Outline.fieldsDepth rest)

end

namespace Outline

@[simp] theorem fieldsDepth_append (fields others : List (Key × Outline)) :
    fieldsDepth (fields ++ others) = max (fieldsDepth fields) (fieldsDepth others) := by
  induction fields with
  | nil => simp [fieldsDepth]
  | cons field rest ih => simp [fieldsDepth, ih, Nat.max_assoc]

@[simp] theorem members_append (fields others : List (Key × Outline)) :
    members (fields ++ others) = members fields ++ members others := by
  induction fields with
  | nil => rfl
  | cons field rest ih => simp [members, ih]

theorem documents_eq_map (items : List Outline) : documents items = items.map document := by
  induction items with
  | nil => rfl
  | cons item rest ih => simp [documents, ih]

theorem members_eq_map (fields : List (Key × Outline)) :
    members fields = fields.map fun field => (field.1.quoted, field.2.document) := by
  induction fields with
  | nil => rfl
  | cons field rest ih => simp [members, ih]

theorem itemsDepth_le {items : List Outline} {n : Nat} :
    itemsDepth items ≤ n ↔ ∀ item ∈ items, item.depth ≤ n := by
  induction items with
  | nil => simp [itemsDepth]
  | cons item rest ih => rw [itemsDepth, Nat.max_le, ih, List.forall_mem_cons]

theorem fieldsDepth_le {fields : List (Key × Outline)} {n : Nat} :
    fieldsDepth fields ≤ n ↔ ∀ field ∈ fields, field.2.depth ≤ n := by
  induction fields with
  | nil => simp [fieldsDepth]
  | cons field rest ih => rw [fieldsDepth, Nat.max_le, ih, List.forall_mem_cons]

theorem document_ne_null (o : Outline) : o.document ≠ .null := by
  cases o <;> simp [document]

end Outline

namespace Json

/-- What reading gives where it fails only for the depth of what is read. -/
def given {α : Type} (fits : Prop) [Decidable fits] (a : α) : Except Fault α :=
  if fits then .ok a else .error .malformed

section Given

variable {α β : Type} {p q : Prop} [Decidable p] [Decidable q]

theorem given_of {a : α} (fits : p) : given p a = .ok a := if_pos fits

@[simp] theorem given_map (f : α → β) (a : α) : (given p a).map f = given p (f a) := by
  unfold given
  split <;> rfl

theorem given_bind (a : α) (f : α → Except Fault β) :
    (given p a >>= f) = if p then f a else .error .malformed := by
  unfold given
  split <;> rfl

theorem given_and (a : α) :
    given (p ∧ q) a = if p then given q a else .error .malformed := by
  unfold given
  by_cases first : p <;> simp [first]

theorem given_congr (same : p ↔ q) (a : α) : given p a = given q a := by
  unfold given
  by_cases first : p
  · rw [if_pos first, if_pos (same.1 first)]
  · rw [if_neg first, if_neg fun second => first (same.2 second)]

end Given

theorem decodeText_document (s : String) : decodeText (Outline.text s).document = .ok s := by
  rw [Outline.document, decodeText, decode_body]

section Record

variable {σ α : Type}

/-- Fields with what is written of them, in the order of the fields. -/
abbrev Written (σ : Type) := List (Slot σ × Option Document)

def Written.members (written : Written σ) : List (Quoted × Document) :=
  written.filterMap fun field => field.2.map fun document => (⟨body field.1.name, true⟩, document)

def Written.put : Written σ → σ → Except Fault σ
  | [], state => .ok state
  | (_, none) :: rest, state => Written.put rest state
  | (slot, some document) :: rest, state => do Written.put rest (← slot.put document state)

theorem find?_slot {slots before after : List (Slot σ)} {slot : Slot σ}
    (split : slots = before ++ slot :: after) (distinct : (slots.map (·.name)).Nodup) :
    slots.find? (·.name = slot.name) = some slot := by
  subst split
  rw [List.find?_append, List.find?_cons_of_pos (by simp), Option.or_eq_right_of_none]
  rw [List.find?_eq_none]
  intro other member
  simp only [List.map_append, List.map_cons, List.nodup_append, List.nodup_cons] at distinct
  have different := distinct.2.2 other.name (List.mem_map.2 ⟨other, member, rfl⟩) slot.name
    (List.mem_cons_self ..)
  simpa using different

theorem decodeNamed_written {slots : List (Slot σ)} (distinct : (slots.map (·.name)).Nodup)
    (before : List (Slot σ)) (behind : Written σ) (split : slots = before ++ behind.map (·.1))
    (seen : List String) (earlier : ∀ name ∈ seen, name ∈ before.map (·.name)) (state : σ) :
    decodeNamed slots seen state behind.members = behind.put state := by
  induction behind generalizing before seen state with
  | nil => rfl
  | cons field rest ih =>
    obtain ⟨slot, document?⟩ := field
    have split' : slots = (before ++ [slot]) ++ rest.map (·.1) := by rw [split]; simp
    have grown : ∀ name ∈ seen, name ∈ (before ++ [slot]).map (·.name) := fun name member => by
      rw [List.map_append]
      exact List.mem_append_left _ (earlier name member)
    cases document? with
    | none => exact ih (before ++ [slot]) split' seen grown state
    | some document =>
      have found : slots.find? (·.name = slot.name) = some slot :=
        find?_slot (by rw [split]; rfl) distinct
      have unseen : seen.contains slot.name = false := by
        rw [Bool.eq_false_iff, ne_eq, List.contains_iff_mem]
        intro member
        obtain ⟨other, there, same⟩ := List.mem_map.1 (earlier _ member)
        rw [split] at distinct
        simp only [List.map_append, List.map_cons, List.nodup_append] at distinct
        exact distinct.2.2 other.name (List.mem_map.2 ⟨other, there, rfl⟩) slot.name
          (List.mem_cons_self ..) same
      have later (state : σ) := ih (before ++ [slot]) split' (slot.name :: seen)
        (List.forall_mem_cons.2 ⟨by simp, grown⟩) state
      have members : Written.members ((slot, some document) :: rest) =
          (⟨body slot.name, true⟩, document) :: Written.members rest := rfl
      rw [members, decodeNamed, decode_body, Written.put]
      simp only [bind, Except.bind, found, unseen, Bool.false_eq_true, if_false, later]

theorem decodeRecord_written {slots : List (Slot σ)} (distinct : (slots.map (·.name)).Nodup)
    {written : Written σ} (all : slots = written.map (·.1)) (blank : σ) :
    decodeRecord slots blank (.object written.members .closed) = written.put blank := by
  rw [decodeRecord, decodeNamed_written distinct [] written all [] (by simp) blank]
  cases written.put blank <;> rfl

theorem put_field {name : String} {value : Decoder α} {keep : σ → α → σ} {document : Document}
    {fits : Prop} [Decidable fits] {a : α} (reads : value document = given fits a)
    (rest : Written σ) (state : σ) :
    Written.put ((.of name value keep, some document) :: rest) state =
      if fits then rest.put (keep state a) else .error .malformed := by
  simp only [Written.put, Slot.of, reads, given_map, given_bind]

theorem decodeOption_of {value : Decoder α} {document : Document} (some : document ≠ .null) :
    decodeOption value document = (value document).map Option.some := by
  rw [decodeOption]
  exact some

theorem put_field? {name : String} {value : Decoder α} {keep : σ → Option α → σ}
    (outline : α → Outline) (field : Option α) {fits : α → Prop} [∀ a, Decidable (fits a)]
    (reads : ∀ a ∈ field, value (outline a).document = given (fits a) a)
    (rest : Written σ) {state : σ} (absent : keep state none = state) :
    Written.put ((.of name (decodeOption value) keep, field.map fun a => (outline a).document) ::
        rest) state =
      if ∀ a ∈ field, fits a then rest.put (keep state field) else .error .malformed := by
  cases field with
  | none => simp [Written.put, absent]
  | some a =>
    have read : decodeOption value (outline a).document = given (fits a) (some a) := by
      rw [decodeOption_of (outline a).document_ne_null, reads a rfl, given_map]
    simpa using put_field read rest state

end Record

theorem insertEntry_behind {κ α : Type} [Ord κ] [Std.OrientedOrd κ] {k : κ} {v : α}
    {entries : List (κ × α)}
    (above : ∀ entry ∈ entries, compare entry.1 k = .lt) :
    Table.insertEntry k v entries = entries ++ [(k, v)] := by
  induction entries with
  | nil => rfl
  | cons entry rest ih =>
    have gt : compare k entry.1 = .gt := Std.OrientedCmp.gt_iff_lt.2 (above entry (by simp))
    rw [Table.insertEntry, gt]
    simp only [ih fun other member => above other (List.mem_cons_of_mem _ member),
      List.cons_append]

section Table

variable {κ α : Type} [Ord κ] [Std.TransOrd κ] [Std.LawfulEqOrd κ]

theorem decodeTable_members {key : Quoted → Except Fault κ} {value : Decoder α}
    (table : Table κ α) (member : κ × α → Quoted × Document) {fits : κ × α → Prop}
    [∀ entry, Decidable (fits entry)]
    (keys : ∀ entry ∈ table.entries, key (member entry).1 = .ok entry.1)
    (values : ∀ entry ∈ table.entries,
      value (member entry).2 = given (fits entry) entry.2) :
    decodeTable key value (.object (table.entries.map member) .closed) =
      given (∀ entry ∈ table.entries, fits entry) table := by
  have go (behind : List (κ × α)) : ∀ front : Table κ α, table.entries = front.entries ++ behind →
      decodeMembers key value front (behind.map member) =
        given (∀ entry ∈ behind, fits entry) table := by
    induction behind with
    | nil =>
      intro front split
      rw [List.map_nil, decodeMembers, given_of (by simp)]
      exact congrArg _ (Table.ext (by simpa using split.symm))
    | cons entry behind ih =>
      intro front split
      have there : entry ∈ table.entries := by simp [split]
      have increasing := table.increasing
      rw [split, List.pairwise_append] at increasing
      have above : ∀ other ∈ front.entries, compare other.1 entry.1 = .lt := fun other member =>
        increasing.2.2 other member entry (by simp)
      have grown : table.entries = (front.insert entry.1 entry.2).entries ++ behind := by
        show table.entries = Table.insertEntry entry.1 entry.2 front.entries ++ behind
        rw [insertEntry_behind above, split]
        simp
      rw [List.map_cons, decodeMembers, keys entry there, values entry there]
      show (given (fits entry) entry.2 >>= fun a =>
        decodeMembers key value (front.insert entry.1 a) (behind.map member)) = _
      rw [given_bind, ih (front.insert entry.1 entry.2) grown, ← given_and]
      exact given_congr (by simp) table
  rw [decodeTable, go table.entries .empty rfl]
  unfold given
  split <;> rfl

end Table

theorem mapM_given {α : Type} {decode : Decoder α} {outline : α → Outline} {fits : α → Prop}
    [∀ a, Decidable (fits a)] {items : List α}
    (reads : ∀ a ∈ items, decode (outline a).document = given (fits a) a) :
    (items.map fun a => (outline a).document).mapM decode =
      given (∀ a ∈ items, fits a) items := by
  induction items with
  | nil => simp [given, pure, Except.pure]
  | cons a rest ih =>
    have later := ih fun b member => reads b (List.mem_cons_of_mem _ member)
    rw [List.map_cons, List.mapM_cons, reads a (by simp), later]
    simp only [List.forall_mem_cons, given_bind]
    unfold given
    by_cases first : fits a <;> simp only [first, if_true, if_false, true_and, false_and]
    split <;> rfl

theorem decodeList_documents {α : Type} {decode : Decoder α} {outline : α → Outline}
    {fits : α → Prop} [∀ a, Decidable (fits a)] {items : List α}
    (reads : ∀ a ∈ items, decode (outline a).document = given (fits a) a) :
    decodeList decode (Outline.list (items.map outline)).document =
      given (∀ a ∈ items, fits a) items := by
  rw [Outline.document, Outline.documents_eq_map, List.map_map, decodeList]
  have all := mapM_given reads
  simp only [Function.comp_def, all]
  unfold given
  split <;> rfl

/-!
What has been decoded is what the parts were decoded to.
-/

theorem Slot.of_keeps {σ α : Type} {P : σ → Prop} {name : String} {value : Decoder α}
    {keep : σ → α → σ}
    (kept : ∀ document state a, value document = .ok a → P state → P (keep state a)) :
    ∀ document state state', (Slot.of name value keep).put document state = .ok state' →
      P state → P state' := by
  intro document state state' put good
  obtain ⟨a, read, rfl⟩ := map_eq_ok.1 put
  exact kept document state a read good

theorem decodeOption_ok {α : Type} {value : Decoder α} {document : Document} {a? : Option α}
    (read : decodeOption value document = .ok a?) : ∀ a ∈ a?, value document = .ok a := by
  rintro a rfl
  by_cases null : document = .null
  · rw [null] at read
    cases read
  · rw [decodeOption_of null, map_eq_ok] at read
    obtain ⟨_, read, ⟨⟩⟩ := read
    exact read

theorem mapM_ok {α : Type} {decode : Decoder α} {P : α → Prop}
    (each : ∀ document a, decode document = .ok a → P a) {documents : List Document}
    {items : List α} (read : documents.mapM decode = .ok items) : ∀ a ∈ items, P a := by
  induction documents generalizing items with
  | nil =>
    cases read
    simp
  | cons document rest ih =>
    rw [List.mapM_cons, bind_eq_ok] at read
    obtain ⟨a, first, read⟩ := read
    obtain ⟨later, others, ⟨⟩⟩ := bind_eq_ok.1 read
    exact List.forall_mem_cons.2 ⟨each document a first, ih others⟩

theorem decodeList_ok {α : Type} {decode : Decoder α} {P : α → Prop}
    (each : ∀ document a, decode document = .ok a → P a) {document : Document} {items : List α}
    (read : decodeList decode document = .ok items) : ∀ a ∈ items, P a := by
  cases document with
  | array documents ending =>
    obtain ⟨all, decoded, read⟩ := bind_eq_ok.1 read
    obtain ⟨_, _, ⟨⟩⟩ := bind_eq_ok.1 read
    exact mapM_ok each decoded
  | _ => cases read

theorem decodeTable_ok {κ α : Type} [Ord κ] [Std.TransOrd κ] [Std.LawfulEqOrd κ]
    {key : Quoted → Except Fault κ} {value : Decoder α} {P : κ × α → Prop}
    (each : ∀ q document k a, key q = .ok k → value document = .ok a → P (k, a))
    {document : Document} {table : Table κ α} (read : decodeTable key value document = .ok table) :
    ∀ entry ∈ table.entries, P entry := by
  have go (members : List (Quoted × Document)) : ∀ front : Table κ α,
      (∀ entry ∈ front.entries, P entry) → ∀ {table : Table κ α},
        decodeMembers key value front members = .ok table → ∀ entry ∈ table.entries, P entry := by
    induction members with
    | nil =>
      rintro front good table ⟨⟩
      exact good
    | cons member rest ih =>
      intro front good table read
      rw [decodeMembers, bind_eq_ok] at read
      obtain ⟨k, named, read⟩ := read
      obtain ⟨a, valued, read⟩ := bind_eq_ok.1 read
      refine ih (front.insert k a) (fun entry there => ?_) read
      rcases Table.mem_insertEntry there with rfl | there
      · exact each member.1 member.2 k a named valued
      · exact good entry there
  cases document with
  | object members ending =>
    obtain ⟨all, decoded, read⟩ := bind_eq_ok.1 read
    obtain ⟨_, _, ⟨⟩⟩ := bind_eq_ok.1 read
    exact go members .empty (by simp [Table.empty]) decoded
  | _ => cases read

section Kept

variable {σ : Type} {slots : List (Slot σ)} {P : σ → Prop}
  (each : ∀ slot ∈ slots, ∀ document state state', slot.put document state = .ok state' →
    P state → P state')

include each

theorem decodePlaced_keeps {state state' : σ} {documents : List Document}
    (read : decodePlaced slots state documents = .ok state') (good : P state) : P state' := by
  induction documents generalizing slots state with
  | nil =>
    rw [decodePlaced] at read
    cases read
    exact good
  | cons document rest ih =>
    cases slots with
    | nil => cases read
    | cons slot slots =>
      obtain ⟨next, put, read⟩ := bind_eq_ok.1 read
      exact ih (fun other member => each other (List.mem_cons_of_mem _ member)) read
        (each slot (List.mem_cons_self ..) document state next put good)

theorem decodeNamed_keeps {seen : List String} {state state' : σ}
    {members : List (Quoted × Document)}
    (read : decodeNamed slots seen state members = .ok state') (good : P state) : P state' := by
  induction members generalizing seen state with
  | nil =>
    cases read
    exact good
  | cons member rest ih =>
    rw [decodeNamed, bind_eq_ok] at read
    obtain ⟨name, named, read⟩ := read
    split at read
    · obtain ⟨_, _, read⟩ := bind_eq_ok.1 read
      exact ih read good
    · rename_i slot found
      split at read
      · cases read
      · obtain ⟨next, put, read⟩ := bind_eq_ok.1 read
        exact ih read (each slot (List.mem_of_find?_eq_some found) member.2 state next put good)

theorem decodeRecord_keeps {blank state : σ} {document : Document}
    (read : decodeRecord slots blank document = .ok state) (good : P blank) : P state := by
  cases document with
  | array documents ending =>
    obtain ⟨all, decoded, read⟩ := bind_eq_ok.1 read
    obtain ⟨_, _, ⟨⟩⟩ := bind_eq_ok.1 read
    exact decodePlaced_keeps each decoded good
  | object members ending =>
    obtain ⟨all, decoded, read⟩ := bind_eq_ok.1 read
    obtain ⟨_, _, ⟨⟩⟩ := bind_eq_ok.1 read
    exact decodeNamed_keeps each decoded good
  | _ => cases read

end Kept

end Json

end ScopeGrammar
