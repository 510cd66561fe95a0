import ScopeGrammar.Json.Document
import ScopeGrammar.Proofs.Json.Numerals
import ScopeGrammar.Proofs.Json.Quoted

set_option autoImplicit false

namespace ScopeGrammar

def Outline.Key.quoted : Outline.Key → Json.Quoted
  | .name s => ⟨Json.body s, true⟩
  | .index n => ⟨Nat.toDigits 10 n, true⟩

mutual

def Outline.document : Outline → Json.Document
  | .text s => .string ⟨Json.body s, true⟩
  | .list items => .array (Outline.documents items) .closed
  | .record fields => .object (Outline.members fields) .closed

def Outline.documents : List Outline → List Json.Document
  | [] => []
  | item :: rest => item.document :: Outline.documents rest

def Outline.members : List (Outline.Key × Outline) → List (Json.Quoted × Json.Document)
  | [] => []
  | (key, value) :: rest => (key.quoted, value.document) :: Outline.members rest

end

mutual

def Outline.weight : Outline → Nat
  | .text _ => 1
  | .list items => Outline.itemsWeight items + 1
  | .record fields => Outline.fieldsWeight fields + 1

def Outline.itemsWeight : List Outline → Nat
  | [] => 0
  | item :: rest => item.weight + Outline.itemsWeight rest + 1

def Outline.fieldsWeight : List (Outline.Key × Outline) → Nat
  | [] => 0
  | (_, value) :: rest => value.weight + Outline.fieldsWeight rest + 1

end

namespace Json

/-- Nothing but blanks is put between the parts of a text. -/
structure Layout.Blank (l : Layout) : Prop where
  lineBreak : ∀ depth, ∀ c ∈ l.lineBreak depth, isBlank c = true
  gap : ∀ c ∈ l.gap, isBlank c = true

theorem Layout.compact_blank : Layout.compact.Blank :=
  ⟨fun _ _ member => absurd member List.not_mem_nil, fun _ member => absurd member List.not_mem_nil⟩

theorem Layout.indented_blank : Layout.indented.Blank := by
  refine ⟨fun depth c member => ?_, fun c member => ?_⟩
  · rcases List.mem_cons.1 member with rfl | blank
    · rfl
    · rw [(List.mem_replicate.1 blank).2]
      rfl
  · rw [List.mem_singleton.1 member]
    rfl

theorem skipBlanks_append {blanks : List Char} (all : ∀ c ∈ blanks, isBlank c = true)
    (cs : List Char) : skipBlanks (blanks ++ cs) = skipBlanks cs := by
  induction blanks with
  | nil => rfl
  | cons c blanks ih =>
    rw [skipBlanks, List.cons_append, List.dropWhile_cons_of_pos (all c (by simp))]
    exact ih fun d member => all d (List.mem_cons_of_mem _ member)

theorem skipBlanks_cons {c : Char} (shown : isBlank c = false) (cs : List Char) :
    skipBlanks (c :: cs) = c :: cs := by
  simp [skipBlanks, shown]

def behindEntry (l : Layout) (depth : Nat) (closing : Char) : List (List Char) → List Char
  | [] => l.lineBreak depth ++ [closing]
  | entry :: rest =>
    ',' :: l.lineBreak (depth + 1) ++ entry ++ behindEntry l depth closing rest

theorem writeEntries_cons (l : Layout) (depth : Nat) (opening closing : Char) (entry : List Char)
    (rest : List (List Char)) :
    writeEntries l depth opening closing (entry :: rest) =
      opening :: l.lineBreak (depth + 1) ++ entry ++ behindEntry l depth closing rest := by
  have lines : List.intercalate [','] ((entry :: rest).map (l.lineBreak (depth + 1) ++ ·)) ++
      l.lineBreak depth ++ [closing] =
        l.lineBreak (depth + 1) ++ entry ++ behindEntry l depth closing rest := by
    induction rest generalizing entry with
    | nil => simp [behindEntry]
    | cons next rest ih =>
      have later := ih next
      simp only [List.map_cons, List.intercalate_cons_cons, List.append_assoc] at later ⊢
      simp only [behindEntry, later, List.nil_append, List.append_assoc, List.cons_append]
  simp only [writeEntries, List.cons_append, List.append_assoc] at lines ⊢
  rw [lines]

theorem write_head (l : Layout) (depth : Nat) (o : Outline) :
    ∃ c rest, write l depth o = c :: rest ∧ isBlank c = false ∧ c ≠ ']' := by
  cases o with
  | text s => exact ⟨_, _, by rw [write, encode_eq, List.cons_append], rfl, by decide⟩
  | list items =>
    cases items with
    | nil => exact ⟨_, _, by rw [write, writeItems, writeEntries], rfl, by decide⟩
    | cons item items =>
      exact ⟨_, _, by rw [write, writeItems, writeEntries_cons]; rfl, rfl, by decide⟩
  | record fields =>
    cases fields with
    | nil => exact ⟨_, _, by rw [write, writeFields, writeEntries], rfl, by decide⟩
    | cons field fields =>
      exact ⟨_, _, by rw [write, writeFields, writeEntries_cons]; rfl, rfl, by decide⟩

section Read

variable {l : Layout}

theorem readDocument_blanks {blanks : List Char} (all : ∀ c ∈ blanks, isBlank c = true)
    (fuel : Nat) (cs : List Char) : readDocument fuel (blanks ++ cs) = readDocument fuel cs := by
  cases fuel with
  | zero => rw [readDocument, readDocument]
  | succ fuel => rw [readDocument, readDocument, skipBlanks_append all]

theorem cutQuoted_key (key : Outline.Key) (rest : List Char) :
    ∃ cs, writeKey key ++ rest = '"' :: cs ∧ cutQuoted cs = (key.quoted, rest) := by
  cases key with
  | name s => exact ⟨_, by simp [writeKey, encode_eq, body], cutQuoted_body s.toList rest⟩
  | index n => exact ⟨_, by simp [writeKey], cutQuoted_digits (toDigits_isDigit n) rest⟩

mutual

theorem readDocument_write (blank : l.Blank) (o : Outline) (depth : Nat) (fuel : Nat)
    (room : o.weight ≤ fuel) (rest : List Char) :
    readDocument fuel (write l depth o ++ rest) = (o.document, some rest) := by
  obtain ⟨fuel, rfl⟩ : ∃ k, fuel = k + 1 := by
    refine ⟨fuel - 1, ?_⟩
    cases o <;> simp only [Outline.weight] at room <;> omega
  match o with
  | .text s =>
    have cut := cutQuoted_body s.toList rest
    simp [write, encode_eq, body, readDocument, skipBlanks_cons, isBlank, cut, Outline.document]
  | .list [] =>
    simp [write, writeItems, writeEntries, readDocument, skipBlanks_cons, isBlank, Outline.document,
      Outline.documents]
  | .list (item :: items) =>
    simp only [Outline.weight] at room
    have inside := readItems_write blank item items depth fuel (Nat.le_of_succ_le_succ room) rest
    obtain ⟨c, cs, head, shown, bracket⟩ := write_head l (depth + 1) item
    rw [write, writeItems, writeEntries_cons, readDocument]
    simp only [List.cons_append, List.append_assoc, head] at inside ⊢
    rw [skipBlanks_cons (by rfl)]
    simp only [skipBlanks_append (blank.lineBreak (depth + 1)), skipBlanks_cons shown]
    simp [bracket, inside, Outline.document]
  | .record [] =>
    simp [write, writeFields, writeEntries, readDocument, skipBlanks_cons, isBlank,
      Outline.document, Outline.members]
  | .record ((key, value) :: fields) =>
    simp only [Outline.weight] at room
    have inside := readMembers_write blank key value fields depth fuel (Nat.le_of_succ_le_succ room) rest
    obtain ⟨cs, quote, reads⟩ := inside
    rw [write, writeFields, writeEntries_cons, readDocument]
    simp only [List.cons_append, List.append_assoc] at quote ⊢
    rw [skipBlanks_cons (by rfl)]
    simp only [skipBlanks_append (blank.lineBreak (depth + 1)), quote]
    rw [skipBlanks_cons (by rfl)]
    simp [reads, Outline.document]
termination_by fuel

theorem readItems_write (blank : l.Blank) (item : Outline) (items : List Outline) (depth : Nat)
    (fuel : Nat) (room : Outline.itemsWeight (item :: items) ≤ fuel) (rest : List Char) :
    readItems fuel (write l (depth + 1) item ++
        behindEntry l depth ']' (writeItems l (depth + 1) items) ++ rest) =
      ((Outline.documents (item :: items), .closed), some rest) := by
  simp only [Outline.itemsWeight] at room
  obtain ⟨fuel, rfl⟩ : ∃ k, fuel = k + 1 := ⟨fuel - 1, by omega⟩
  have first := readDocument_write blank item (depth + 1) fuel (by omega)
  rw [readItems, List.append_assoc, first]
  match items with
  | [] =>
    simp [writeItems, behindEntry, skipBlanks_append (blank.lineBreak depth), skipBlanks_cons,
      isBlank, Outline.documents]
  | next :: items =>
    have later := readItems_write blank next items depth fuel (by omega) rest
    obtain ⟨c, cs, head, shown, bracket⟩ := write_head l (depth + 1) next
    simp only [writeItems, behindEntry, List.cons_append, List.append_assoc, head] at later ⊢
    rw [skipBlanks_cons (by rfl)]
    simp only [skipBlanks_append (blank.lineBreak (depth + 1)), skipBlanks_cons shown]
    simp [bracket, later, Outline.documents]
termination_by fuel

theorem readMembers_write (blank : l.Blank) (key : Outline.Key) (value : Outline)
    (fields : List (Outline.Key × Outline)) (depth : Nat)
    (fuel : Nat) (room : Outline.fieldsWeight ((key, value) :: fields) ≤ fuel) (rest : List Char) :
    ∃ cs, writeKey key ++ ':' :: l.gap ++ write l (depth + 1) value ++
        behindEntry l depth '\x7d' (writeFields l (depth + 1) fields) ++ rest = '"' :: cs ∧
      readMembers fuel cs = ((Outline.members ((key, value) :: fields), .closed), some rest) := by
  simp only [Outline.fieldsWeight] at room
  obtain ⟨fuel, rfl⟩ : ∃ k, fuel = k + 1 := ⟨fuel - 1, by omega⟩
  have first := readDocument_write blank value (depth + 1) fuel (by omega)
  simp only [List.append_assoc]
  obtain ⟨cs, quote, cut⟩ := cutQuoted_key key (':' :: l.gap ++ (write l (depth + 1) value ++
    (behindEntry l depth '\x7d' (writeFields l (depth + 1) fields) ++ rest)))
  refine ⟨cs, quote, ?_⟩
  rw [readMembers, cut]
  simp only [List.cons_append]
  rw [skipBlanks_cons (by rfl)]
  simp only [readDocument_blanks blank.gap, first]
  match fields with
  | [] =>
    simp [writeFields, behindEntry, skipBlanks_append (blank.lineBreak depth), skipBlanks_cons,
      isBlank, Outline.members]
  | (next, value') :: fields =>
    obtain ⟨cs', quote', later⟩ :=
      readMembers_write blank next value' fields depth fuel (by omega) rest
    simp only [writeFields, behindEntry, List.cons_append, List.append_assoc] at quote' ⊢
    rw [skipBlanks_cons (by rfl)]
    simp only [skipBlanks_append (blank.lineBreak (depth + 1)), quote']
    rw [skipBlanks_cons (by rfl)]
    simp [later, Outline.members]
termination_by fuel

end

end Read

section Length

variable (l : Layout)

theorem le_length_behindEntry (depth : Nat) (closing : Char) (entries : List (List Char)) :
    entries.flatten.length + entries.length + 1 ≤
      (behindEntry l depth closing entries).length := by
  induction entries with
  | nil => simp [behindEntry]
  | cons entry rest ih =>
    simp only [List.flatten_cons, List.length_cons, behindEntry, List.length_append]
    omega

theorem le_length_writeEntries (depth : Nat) (opening closing : Char) (entries : List (List Char)) :
    entries.flatten.length + entries.length + 1 ≤
      (writeEntries l depth opening closing entries).length := by
  cases entries with
  | nil => simp [writeEntries]
  | cons entry rest =>
    have behind := le_length_behindEntry l depth closing rest
    rw [writeEntries_cons]
    simp only [List.flatten_cons, List.length_cons, List.length_append]
    omega

mutual

theorem weight_le_write (o : Outline) (depth : Nat) : o.weight ≤ 2 * (write l depth o).length :=
  match o with
  | .text s => by
    simp only [Outline.weight, write, encode_eq, List.length_append, List.length_cons]
    omega
  | .list items => by
    have entries := weight_le_writeItems items (depth + 1)
    have whole := le_length_writeEntries l depth '[' ']' (writeItems l (depth + 1) items)
    simp only [Outline.weight, write]
    omega
  | .record fields => by
    have entries := weight_le_writeFields fields (depth + 1)
    have whole := le_length_writeEntries l depth '\x7b' '\x7d' (writeFields l (depth + 1) fields)
    simp only [Outline.weight, write]
    omega

theorem weight_le_writeItems (items : List Outline) (depth : Nat) :
    Outline.itemsWeight items ≤
      2 * (writeItems l depth items).flatten.length + (writeItems l depth items).length :=
  match items with
  | [] => by simp [Outline.itemsWeight]
  | item :: rest => by
    have first := weight_le_write item depth
    have later := weight_le_writeItems rest depth
    simp only [Outline.itemsWeight, writeItems, List.flatten_cons, List.length_cons,
      List.length_append]
    omega

theorem weight_le_writeFields (fields : List (Outline.Key × Outline)) (depth : Nat) :
    Outline.fieldsWeight fields ≤
      2 * (writeFields l depth fields).flatten.length + (writeFields l depth fields).length :=
  match fields with
  | [] => by simp [Outline.fieldsWeight]
  | (key, value) :: rest => by
    have first := weight_le_write value depth
    have later := weight_le_writeFields rest depth
    simp only [Outline.fieldsWeight, writeFields, List.flatten_cons, List.length_cons,
      List.length_append]
    omega

end

end Length

/-- The text of an outline is read to its end. -/
theorem read_print {l : Layout} (blank : l.Blank) (o : Outline) :
    Document.read (print l o).toList = (o.document, some []) := by
  have room : o.weight ≤ 2 * (write l 0 o).length + 2 := by
    have := weight_le_write l o 0
    omega
  have all := readDocument_write blank o 0 _ room []
  rw [List.append_nil] at all
  rw [print, String.toList_ofList, Document.read, all]

end Json

end ScopeGrammar
