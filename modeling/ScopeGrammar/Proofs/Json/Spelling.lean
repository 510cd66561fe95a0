import Mathlib.Data.List.TakeWhile
import ScopeGrammar.Proofs.Json.Printing

/-!
Which texts spell a document, told by the grammar of JSON: blanks may stand between any two tokens. A
document is what is read of the texts that spell it, and of no others. What a string says is not asked
for here, so that a string is anything up to its closing quote.
-/

set_option autoImplicit false

namespace ScopeGrammar.Json

inductive IsBody : List Char → Prop
  | nil : IsBody []
  | plain {c : Char} {body : List Char} (quote : c ≠ '"') (backslash : c ≠ '\\')
      (later : IsBody body) : IsBody (c :: body)
  | escape (c : Char) {body : List Char} (later : IsBody body) : IsBody ('\\' :: c :: body)

def Stands (c : Char) (cs rest : List Char) : Prop :=
  ∃ blanks, (∀ b ∈ blanks, isBlank b = true) ∧ cs = blanks ++ c :: rest

/-- The parts of a text that have a text of their own. -/
inductive Phrase where
  | value (d : Document)
  /-- What follows on an item of a list: other items and the closing bracket. -/
  | items (ds : List Document)
  | member (m : Quoted × Document)
  /-- What follows on a member of an object. -/
  | members (ms : List (Quoted × Document))

/-- A phrase stands at the start of a text, and the rest is behind it. -/
inductive Spells : Phrase → List Char → List Char → Prop
  | blank {c : Char} {cs rest : List Char} {d : Document} (is : isBlank c = true)
      (later : Spells (.value d) cs rest) : Spells (.value d) (c :: cs) rest
  | null (rest : List Char) : Spells (.value .null) ("null".toList ++ rest) rest
  | bool (b : Bool) (rest : List Char) :
      Spells (.value (.bool b)) ((if b then "true" else "false").toList ++ rest) rest
  | number {n : Number} {text rest : List Char} (written : n.IsWritten text) (ends : Ends rest) :
      Spells (.value (.number n)) (text ++ rest) rest
  | string {body : List Char} (is : IsBody body) (rest : List Char) :
      Spells (.value (.string ⟨body, true⟩)) ('"' :: (body ++ '"' :: rest)) rest
  | emptyArray {cs rest : List Char} (closing : Stands ']' cs rest) :
      Spells (.value (.array [] .closed)) ('[' :: cs) rest
  | array {cs behind rest : List Char} {d : Document} {ds : List Document}
      (first : Spells (.value d) cs behind) (others : Spells (.items ds) behind rest) :
      Spells (.value (.array (d :: ds) .closed)) ('[' :: cs) rest
  | noItem {cs rest : List Char} (closing : Stands ']' cs rest) : Spells (.items []) cs rest
  | item {cs next behind rest : List Char} {d : Document} {ds : List Document}
      (comma : Stands ',' cs next) (first : Spells (.value d) next behind)
      (others : Spells (.items ds) behind rest) : Spells (.items (d :: ds)) cs rest
  | emptyObject {cs rest : List Char} (closing : Stands '\x7d' cs rest) :
      Spells (.value (.object [] .closed)) ('\x7b' :: cs) rest
  | object {cs behind rest : List Char} {m : Quoted × Document} {ms : List (Quoted × Document)}
      (first : Spells (.member m) cs behind) (others : Spells (.members ms) behind rest) :
      Spells (.value (.object (m :: ms) .closed)) ('\x7b' :: cs) rest
  | key {cs body behind next rest : List Char} {d : Document}
      (quote : Stands '"' cs (body ++ '"' :: behind)) (is : IsBody body)
      (colon : Stands ':' behind next) (value : Spells (.value d) next rest) :
      Spells (.member (⟨body, true⟩, d)) cs rest
  | noMember {cs rest : List Char} (closing : Stands '\x7d' cs rest) : Spells (.members []) cs rest
  | member {cs next behind rest : List Char} {m : Quoted × Document} {ms : List (Quoted × Document)}
      (comma : Stands ',' cs next) (first : Spells (.member m) next behind)
      (others : Spells (.members ms) behind rest) : Spells (.members (m :: ms)) cs rest

/-- A text spells a document: there is nothing but blanks behind it. -/
def Document.IsSpelled (d : Document) (text : List Char) : Prop :=
  ∃ blanks, (∀ b ∈ blanks, isBlank b = true) ∧ Spells (.value d) text blanks

section Parts

variable {c : Char} {cs rest body : List Char} {q : Quoted}

theorem stands_iff (shown : isBlank c = false) : Stands c cs rest ↔ skipBlanks cs = c :: rest := by
  constructor
  · rintro ⟨blanks, all, rfl⟩
    rw [skipBlanks_append all, skipBlanks_cons shown]
  · intro behind
    obtain ⟨whole, blank⟩ := Text.split_span isBlank cs
    exact ⟨cs.takeWhile isBlank, blank, behind ▸ whole⟩

theorem Stands.length (stands : Stands c cs rest) : rest.length < cs.length := by
  obtain ⟨blanks, -, rfl⟩ := stands
  simp only [List.length_append, List.length_cons]
  omega

theorem cutQuoted_append (is : IsBody body) (rest : List Char) :
    cutQuoted (body ++ '"' :: rest) = (⟨body, true⟩, rest) := by
  induction is with
  | nil => rfl
  | plain quote backslash _ ih => rw [List.cons_append, cutQuoted_plain quote backslash, ih]
  | escape c _ ih => rw [List.cons_append, List.cons_append, cutQuoted_escape, ih]

theorem isBody_of_cutQuoted (cut : cutQuoted cs = (q, rest))
    (closed : q.closed = true ∨ rest ≠ []) :
    ∃ body, q = ⟨body, true⟩ ∧ IsBody body ∧ cs = body ++ '"' :: rest := by
  fun_induction cutQuoted cs generalizing q with
  | case1 | case3 =>
    cases cut
    simp at closed
  | case2 behind =>
    cases cut
    exact ⟨[], rfl, .nil, rfl⟩
  | case4 c behind q' rest' later ih =>
    cases cut
    obtain ⟨body, rfl, is, rfl⟩ := ih later closed
    exact ⟨_, rfl, .escape c is, rfl⟩
  | case5 c behind quote short long q' rest' later ih =>
    cases cut
    obtain ⟨body, rfl, is, same⟩ := ih later closed
    have backslash : c ≠ '\\' := by
      rintro rfl
      cases behind with
      | nil => exact short rfl rfl
      | cons c behind => exact long c behind rfl rfl
    exact ⟨_, rfl, .plain quote backslash is, by rw [same]; rfl⟩

end Parts

theorem isWritten_some {n : Number} {text : List Char} (written : n.IsWritten text) :
    ∃ c cs, text = c :: cs ∧ (c = '-' ∨ isDigit c = true) := by
  obtain @⟨negative, whole, f, e, _, _, first, second, third⟩ := written
  cases negative with
  | true => exact ⟨'-', _, rfl, .inl rfl⟩
  | false =>
    obtain ⟨d, digits, rfl⟩ := List.exists_cons_of_ne_nil first.some
    exact ⟨d, _, rfl, .inr (first.all d (by simp))⟩

theorem Spells.length {p : Phrase} {cs rest : List Char} (spelled : Spells p cs rest) :
    rest.length < cs.length := by
  induction spelled with
  | blank is _ ih => exact Nat.lt_succ_of_lt ih
  | null rest =>
    rw [List.length_append]
    exact Nat.lt_add_of_pos_left (by decide)
  | bool b rest =>
    rw [List.length_append]
    cases b <;> exact Nat.lt_add_of_pos_left (by decide)
  | number written ends =>
    obtain ⟨c, cs, rfl, -⟩ := isWritten_some written
    simp only [List.cons_append, List.length_cons, List.length_append]
    omega
  | string is rest =>
    simp only [List.length_cons, List.length_append]
    omega
  | emptyArray closing | emptyObject closing => exact Nat.lt_succ_of_lt closing.length
  | array _ _ first others | object _ _ first others =>
    exact Nat.lt_succ_of_lt (Nat.lt_trans others first)
  | noItem closing | noMember closing => exact closing.length
  | item comma _ _ first others | member comma _ _ first others =>
    exact Nat.lt_trans others (Nat.lt_trans first comma.length)
  | key quote _ colon _ ih =>
    have opened := quote.length
    have parted := colon.length
    simp only [List.length_append, List.length_cons] at opened
    omega

section Reading

def ReadsMember (fuel : Nat) (cs : List Char) (m : Quoted × Document) (rest : List Char) : Prop :=
  ∃ behind next, cutQuoted cs = (m.1, behind) ∧ skipBlanks behind = ':' :: next ∧
    readDocument fuel next = (m.2, some rest)

/-- A phrase is read where there is fuel enough for the text that it stands in. What follows on an item
or a member is read together with it. -/
def Reads : Phrase → List Char → List Char → Prop
  | .value d, cs, rest =>
    ∀ fuel, 2 * cs.length < fuel → readDocument fuel cs = (d, some rest)
  | .items ds, cs, rest =>
    ∀ fuel d before, 2 * cs.length < fuel → readDocument fuel before = (d, some cs) →
      readItems (fuel + 1) before = ((d :: ds, .closed), some rest)
  | .member m, cs, rest =>
    ∃ behind, Stands '"' cs behind ∧ ∀ fuel, 2 * cs.length < fuel → ReadsMember fuel behind m rest
  | .members ms, cs, rest =>
    ∀ fuel m before, 2 * cs.length < fuel → ReadsMember fuel before m cs →
      readMembers (fuel + 1) before = ((m :: ms, .closed), some rest)

variable {cs rest : List Char} {d : Document}

theorem readDocument_skipBlanks (fuel : Nat) (cs : List Char) :
    readDocument fuel (skipBlanks cs) = readDocument fuel cs := by
  obtain ⟨whole, blank⟩ := Text.split_span isBlank cs
  conv_rhs => rw [whole, readDocument_blanks blank]
  rfl

theorem readItems_skipBlanks (fuel : Nat) (cs : List Char) :
    readItems fuel (skipBlanks cs) = readItems fuel cs := by
  cases fuel with
  | zero => rw [readItems, readItems]
  | succ fuel => rw [readItems, readItems, readDocument_skipBlanks]

theorem number_first {c : Char} (first : c = '-' ∨ isDigit c = true) :
    isBlank c = false ∧ c ∉ ['"', '[', ']', '\x7b', 'n', 't', 'f'] := by
  have other : [' ', '\n', '\t', '\r', '"', '[', ']', '\x7b', 'n', 't', 'f'].all
      (fun c => c != '-' && !isDigit c) = true := rfl
  have never (member : c ∈ [' ', '\n', '\t', '\r', '"', '[', ']', '\x7b', 'n', 't', 'f']) :
      False := by
    have none := List.all_eq_true.1 other c member
    rcases first with rfl | digit
    · cases none
    · simp [digit] at none
  refine ⟨Bool.eq_false_iff.2 fun blank => never ?_, fun member => never (by simp_all)⟩
  simp only [isBlank, Bool.or_eq_true, beq_iff_eq] at blank
  rcases blank with ((rfl | rfl) | rfl) | rfl <;> simp

theorem readDocument_number {c : Char} {n : Number} (first : c = '-' ∨ isDigit c = true)
    (read : readNumber (c :: cs) = .ok (n, rest)) (fuel : Nat) :
    readDocument (fuel + 1) (c :: cs) = (.number n, some rest) := by
  obtain ⟨shown, other⟩ := number_first first
  simp only [List.mem_cons, List.not_mem_nil, or_false, not_or] at other
  rw [readDocument, skipBlanks_cons shown]
  simp_all

theorem readDocument_array {c : Char} {behind : List Char} (head : skipBlanks cs = c :: behind)
    (other : c ≠ ']') (fuel : Nat) :
    readDocument (fuel + 1) ('[' :: cs) =
      (.array (readItems fuel cs).1.1 (readItems fuel cs).1.2, (readItems fuel cs).2) := by
  rw [readDocument, skipBlanks_cons (by rfl), ← readItems_skipBlanks fuel cs]
  simp only [head]
  split
  · contradiction
  · rename_i same
    cases same
    contradiction
  · rfl

theorem Spells.first {p : Phrase} (spelled : Spells p cs rest) (value : p = .value d) :
    ∃ c behind, skipBlanks cs = c :: behind ∧ c ≠ ']' := by
  induction spelled with
  | blank is _ ih =>
    obtain ⟨c, behind, same, other⟩ := ih value
    exact ⟨c, behind, by rw [skipBlanks, List.dropWhile_cons_of_pos is]; exact same, other⟩
  | null => exact ⟨_, _, rfl, by decide⟩
  | bool b => cases b <;> exact ⟨_, _, rfl, by decide⟩
  | number written =>
    obtain ⟨c, cs, rfl, first⟩ := isWritten_some written
    obtain ⟨shown, other⟩ := number_first first
    exact ⟨c, _, skipBlanks_cons shown _, fun bracket => other (by simp [bracket])⟩
  | string | emptyArray | array | emptyObject | object => exact ⟨_, _, rfl, by decide⟩
  | noItem | item | key | noMember | member => cases value

/-- What a text spells is what is read of it. -/
theorem reads_of_spells {p : Phrase} {cs rest : List Char} (spelled : Spells p cs rest) :
    Reads p cs rest := by
  induction spelled with
  | blank is _ ih =>
    intro fuel room
    have later := ih fuel (by simp only [List.length_cons] at room; omega)
    rw [← later, ← List.singleton_append]
    exact readDocument_blanks (by simpa using is) fuel _
  | null rest =>
    rintro (_ | fuel) room
    · omega
    · rfl
  | bool b rest =>
    rintro (_ | fuel) room
    · omega
    · cases b <;> rfl
  | number written ends =>
    rintro (_ | fuel) room
    · omega
    · have read := readNumber_append written ends
      obtain ⟨c, cs, rfl, first⟩ := isWritten_some written
      exact readDocument_number first read fuel
  | string is rest =>
    rintro (_ | fuel) room
    · omega
    · rw [readDocument, skipBlanks_cons (by rfl)]
      simp only [cutQuoted_append is]
      rfl
  | emptyArray closing =>
    rintro (_ | fuel) room
    · omega
    · rw [readDocument, skipBlanks_cons (by rfl)]
      simp only [(stands_iff (by rfl)).1 closing]
  | array value _ first others =>
    rintro (_ | _ | fuel) room
    · omega
    · simp at room
    · simp only [List.length_cons] at room
      obtain ⟨c, behind, head, other⟩ := value.first rfl
      have shorter := value.length
      have read := others fuel _ _ (by omega) (first fuel (by omega))
      rw [readDocument_array head other, read]
  | noItem closing =>
    intro fuel d before room read
    simp only [readItems, read, (stands_iff (by rfl)).1 closing]
  | item comma value _ first others =>
    rintro (_ | fuel) d before room read
    · omega
    · obtain ⟨c, behind, head, other⟩ := value.first rfl
      have shorter := comma.length
      have later := value.length
      have items := others fuel _ _ (by omega) (first fuel (by omega))
      rw [← readItems_skipBlanks, head] at items
      rw [readItems]
      simp only [read, (stands_iff (by rfl)).1 comma, head]
      split
      · rename_i same
        cases same
        contradiction
      · rw [items]
  | emptyObject closing =>
    rintro (_ | fuel) room
    · omega
    · rw [readDocument, skipBlanks_cons (by rfl)]
      simp only [(stands_iff (by rfl)).1 closing]
  | object member _ first others =>
    rintro (_ | _ | fuel) room
    · omega
    · simp at room
    · simp only [List.length_cons] at room
      obtain ⟨behind, quote, first⟩ := first
      have shorter := member.length
      have read := others fuel _ _ (by omega) (first fuel (by omega))
      rw [readDocument, skipBlanks_cons (by rfl)]
      simp only [(stands_iff (by rfl)).1 quote, read]
  | key quote is colon _ ih =>
    refine ⟨_, quote, fun fuel room => ⟨_, _, cutQuoted_append is _, (stands_iff (by rfl)).1 colon,
      ih fuel ?_⟩⟩
    have opened := quote.length
    have parted := colon.length
    simp only [List.length_append, List.length_cons] at opened
    omega
  | noMember closing =>
    rintro fuel m before room ⟨behind, next, key, colon, value⟩
    simp only [readMembers, key, colon, value, (stands_iff (by rfl)).1 closing]
  | member comma member _ first others =>
    rintro (_ | fuel) m before room ⟨behind, next, key, colon, value⟩
    · omega
    · obtain ⟨opened, quote, first⟩ := first
      have shorter := comma.length
      have later := member.length
      have members := others fuel _ _ (by omega) (first fuel (by omega))
      rw [readMembers]
      simp only [key, colon, value, (stands_iff (by rfl)).1 comma, (stands_iff (by rfl)).1 quote,
        members]

theorem Spells.behind_blanks (later : Spells (.value d) (skipBlanks cs) rest) :
    Spells (.value d) cs rest := by
  induction cs with
  | nil => exact later
  | cons c cs ih =>
    rw [skipBlanks, List.dropWhile_cons] at later
    split at later
    · rename_i is
      exact .blank is (ih later)
    · exact later

theorem Spells.opened {m : Quoted × Document} {behind : List Char} (quote : Stands '"' cs behind)
    (later : Spells (.member m) ('"' :: behind) rest) : Spells (.member m) cs rest := by
  cases later with
  | key own is colon value =>
    have same := (stands_iff (by rfl)).1 own
    rw [skipBlanks_cons (by rfl)] at same
    cases same
    exact .key quote is colon value

theorem ends_of_skipBlanks {c : Char} {behind : List Char} (next : skipBlanks cs = c :: behind)
    (closing : c ∈ [',', ']', '\x7d']) : Ends cs := by
  intro first head
  cases cs with
  | nil => cases head
  | cons c cs =>
    cases head
    rw [skipBlanks, List.dropWhile_cons] at next
    split at next
    · rename_i is
      exact .inl is
    · cases next
      exact .inr closing

theorem readLetters_ok {word : List Char} (read : readLetters word cs = .ok rest) :
    cs = word ++ rest := by
  induction word generalizing cs with
  | nil =>
    cases read
    rfl
  | cons x word ih =>
    cases cs with
    | nil => cases read
    | cons c cs =>
      rw [readLetters] at read
      split at read
      · rename_i same
        rw [same, ih read]
        rfl
      · cases read

theorem readWord_ok {word : String} {document : Document}
    (read : readWord word document cs = (d, some rest)) :
    d = document ∧ cs = word.toList ++ rest := by
  unfold readWord at read
  split at read
  · rename_i letters
    cases read
    exact ⟨rfl, readLetters_ok letters⟩
  · cases read

-- The three readers call one another with less fuel, and that is what the induction is on. Where a value
-- ends is known only from what is read behind it, except at the end of the text.
mutual

theorem spells_of_readDocument (fuel : Nat) {cs rest : List Char} {d : Document}
    (read : readDocument fuel cs = (d, some rest)) (ends : Ends rest) : Spells (.value d) cs rest := by
  match fuel with
  | 0 => cases read
  | fuel + 1 =>
    refine Spells.behind_blanks ?_
    rw [readDocument] at read
    generalize skipBlanks cs = text at read ⊢
    split at read
    · cases read
    · split at read
      rename_i q behind cut
      split at read
      · rename_i closed
        cases read
        obtain ⟨body, rfl, is, rfl⟩ := isBody_of_cutQuoted cut (.inl closed)
        exact .string is rest
      · cases read
    · split at read
      · cases read
      · rename_i next
        cases read
        exact .emptyArray ((stands_iff (by rfl)).2 next)
      · split at read
        rename_i items ending left inside
        cases read
        rw [readItems_skipBlanks] at inside
        obtain ⟨rfl, first, others, between, rfl, value, later⟩ := spells_of_readItems fuel inside
        exact .array value later
    · split at read
      · cases read
      · rename_i next
        cases read
        exact .emptyObject ((stands_iff (by rfl)).2 next)
      · rename_i next
        split at read
        rename_i members ending left inside
        cases read
        obtain ⟨rfl, first, others, between, rfl, member, later⟩ := spells_of_readMembers fuel inside
        exact .object (member.opened ((stands_iff (by rfl)).2 next)) later
      · cases read
    · split at read
      · obtain ⟨rfl, same⟩ := readWord_ok read
        exact same ▸ .null rest
      split at read
      · obtain ⟨rfl, same⟩ := readWord_ok read
        exact same ▸ .bool true rest
      split at read
      · obtain ⟨rfl, same⟩ := readWord_ok read
        exact same ▸ .bool false rest
      split at read
      · split at read
        · rename_i n left number
          cases read
          obtain ⟨text, written, same⟩ := isWritten_of_readNumber number
          exact same ▸ .number written ends
        · cases read
      · cases read
termination_by fuel

theorem spells_of_readItems (fuel : Nat) {cs rest : List Char} {items : List Document} {ending : Ending}
    (read : readItems fuel cs = ((items, ending), some rest)) :
    ending = .closed ∧ ∃ d ds behind, items = d :: ds ∧ Spells (.value d) cs behind ∧
      Spells (.items ds) behind rest := by
  match fuel with
  | 0 => cases read
  | fuel + 1 =>
    rw [readItems] at read
    split at read
    rename_i item left first
    split at read
    · cases read
    · rename_i behind
      split at read
      · cases read
      · rename_i next
        cases read
        have value := spells_of_readDocument fuel first (ends_of_skipBlanks next (by simp))
        exact ⟨rfl, item, [], behind, rfl, value, .noItem ((stands_iff (by rfl)).2 next)⟩
      · rename_i after next
        have value := spells_of_readDocument fuel first (ends_of_skipBlanks next (by simp))
        have comma := (stands_iff (by rfl)).2 next
        split at read
        · cases read
        · split at read
          rename_i others ending left inside
          cases read
          rw [readItems_skipBlanks] at inside
          obtain ⟨rfl, d, ds, between, rfl, second, later⟩ := spells_of_readItems fuel inside
          exact ⟨rfl, item, d :: ds, behind, rfl, value, .item comma second later⟩
      · cases read
termination_by fuel

theorem spells_of_readMembers (fuel : Nat) {cs rest : List Char} {members : List (Quoted × Document)}
    {ending : Ending} (read : readMembers fuel cs = ((members, ending), some rest)) :
    ending = .closed ∧ ∃ m ms behind, members = m :: ms ∧ Spells (.member m) ('"' :: cs) behind ∧
      Spells (.members ms) behind rest := by
  match fuel with
  | 0 => cases read
  | fuel + 1 =>
    rw [readMembers] at read
    split at read
    rename_i key parted cut
    split at read
    · cases read
    · rename_i next colon
      split at read
      rename_i value left first
      split at read
      · cases read
      · rename_i behind
        have one {c : Char} {after : List Char} (stands : skipBlanks behind = c :: after)
            (closing : c ∈ [',', ']', '\x7d']) :
            Spells (.member (key, value)) ('"' :: cs) behind := by
          have spelled := spells_of_readDocument fuel first (ends_of_skipBlanks stands closing)
          have open' : parted ≠ [] := by
            rintro rfl
            cases colon
          obtain ⟨body, rfl, is, rfl⟩ := isBody_of_cutQuoted cut (.inr open')
          exact .key ⟨[], by simp, rfl⟩ is ((stands_iff (by rfl)).2 colon) spelled
        split at read
        · cases read
        · rename_i next
          cases read
          exact ⟨rfl, _, [], behind, rfl, one next (by simp),
            .noMember ((stands_iff (by rfl)).2 next)⟩
        · rename_i after next
          split at read
          · rename_i quote
            split at read
            rename_i others ending left inside
            cases read
            obtain ⟨rfl, m, ms, between, rfl, second, later⟩ := spells_of_readMembers fuel inside
            exact ⟨rfl, _, m :: ms, behind, rfl, one next (by simp),
              .member ((stands_iff (by rfl)).2 next)
                (second.opened ((stands_iff (by rfl)).2 quote)) later⟩
          · cases read
          · cases read
        · cases read
    · cases read
termination_by fuel

end

end Reading

/-- A document is read of the texts that spell it. -/
theorem isSpelled_iff {d : Document} {text : List Char} :
    d.IsSpelled text ↔ ∃ rest, Document.read text = (d, some rest) ∧ skipBlanks rest = [] := by
  constructor
  · rintro ⟨blanks, all, spelled⟩
    exact ⟨blanks, reads_of_spells spelled _ (by omega), List.dropWhile_eq_nil_iff.2 all⟩
  · rintro ⟨rest, read, none⟩
    have blank : ∀ c ∈ rest, isBlank c = true := List.dropWhile_eq_nil_iff.1 none
    have ends : Ends rest := fun c head => .inl (blank c (List.mem_of_mem_head? head))
    exact ⟨rest, blank, spells_of_readDocument _ read ends⟩

section Sound

inductive IsText : List Char → Prop
  | nil : IsText []
  | plain {c : Char} {body : List Char} (visible : 0x20 ≤ c.toNat) (quote : c ≠ '"')
      (backslash : c ≠ '\\') (later : IsText body) : IsText (c :: body)
  | letter {c : Char} {body : List Char} (is : c ∈ ['"', '\\', '/', 'b', 'f', 'n', 'r', 't'])
      (later : IsText body) : IsText ('\\' :: c :: body)
  | code {a b c d : Char} {body : List Char}
      (hex : ∀ x ∈ [a, b, c, d], isDigit x = true ∨ 'a' ≤ x ∧ x ≤ 'f' ∨ 'A' ≤ x ∧ x ≤ 'F')
      (later : IsText body) : IsText ('\\' :: 'u' :: a :: b :: c :: d :: body)

/-- The values of JSON, which have no fault in them. -/
inductive IsJson : Document → Prop
  | null : IsJson .null
  | bool (b : Bool) : IsJson (.bool b)
  | number (n : Number) : IsJson (.number n)
  | string {body : List Char} (is : IsText body) : IsJson (.string ⟨body, true⟩)
  | array {ds : List Document} (each : ∀ d ∈ ds, IsJson d) : IsJson (.array ds .closed)
  | object {ms : List (Quoted × Document)}
      (keys : ∀ m ∈ ms, ∃ body, m.1 = ⟨body, true⟩ ∧ IsText body)
      (each : ∀ m ∈ ms, IsJson m.2) : IsJson (.object ms .closed)

theorem readUnit_hex {a b c d : Char}
    (hex : ∀ x ∈ [a, b, c, d], isDigit x = true ∨ 'a' ≤ x ∧ x ≤ 'f' ∨ 'A' ≤ x ∧ x ≤ 'F')
    (closed : Bool) (rest : List Char) : ∃ n, readUnit closed (a :: b :: c :: d :: rest) = .ok (n, rest) := by
  have digit : ∀ x ∈ [a, b, c, d], ∃ n, hexDigit? x = some n := by
    intro x member
    unfold hexDigit?
    rcases hex x member with digit | ⟨low, high⟩ | ⟨low, high⟩
    · exact ⟨_, if_pos digit⟩
    · split
      · exact ⟨_, rfl⟩
      · exact ⟨_, if_pos (by simp [low, high])⟩
    · split
      · exact ⟨_, rfl⟩
      · split
        · exact ⟨_, rfl⟩
        · exact ⟨_, if_pos (by simp [low, high])⟩
  obtain ⟨⟨_, first⟩, ⟨_, second⟩, ⟨_, third⟩, ⟨_, fourth⟩, -⟩ := by
    simpa only [List.forall_mem_cons] using digit
  simp only [readUnit, first, second, third, fourth]
  exact ⟨_, rfl⟩

theorem skipBody_isText {body : List Char} (is : IsText body) {fuel : Nat} (room : body.length < fuel) :
    skipBody true fuel body = .ok () := by
  induction is generalizing fuel with
  | nil =>
    obtain ⟨fuel, rfl⟩ := Nat.exists_eq_add_of_lt room
    rfl
  | plain visible quote backslash _ ih =>
    obtain ⟨fuel, rfl⟩ : ∃ k, fuel = k + 1 := ⟨fuel - 1, by omega⟩
    have rest := ih (Nat.lt_of_succ_lt_succ room)
    rw [skipBody, if_neg (Nat.not_lt.2 visible), rest]
    all_goals simp_all
  | @letter c body is _ ih =>
    obtain ⟨fuel, rfl⟩ : ∃ k, fuel = k + 1 := ⟨fuel - 1, by omega⟩
    have shorter : body.length < fuel := by
      simp only [List.length_cons] at room
      omega
    have rest := ih shorter
    have all : ['"', '\\', '/', 'b', 'f', 'n', 'r', 't'].all
        (fun c => (escapeLetter? c).isSome && c != 'u') = true := rfl
    obtain ⟨stands, unicode⟩ := Bool.and_eq_true_iff.1 (List.all_eq_true.1 all c is)
    rw [skipBody, if_pos stands, rest]
    simpa using unicode
  | @code a b c d body hex _ ih =>
    obtain ⟨fuel, rfl⟩ : ∃ k, fuel = k + 1 := ⟨fuel - 1, by omega⟩
    have shorter : body.length < fuel := by
      simp only [List.length_cons] at room
      omega
    have rest := ih shorter
    obtain ⟨n, unit⟩ := readUnit_hex hex true body
    rw [skipBody, unit]
    exact rest

theorem skipItems_ok {ds : List Document} (each : ∀ d ∈ ds, d.skip = .ok ()) :
    skipItems ds = .ok () := by
  induction ds with
  | nil => rfl
  | cons d ds ih =>
    obtain ⟨first, later⟩ := List.forall_mem_cons.1 each
    rw [skipItems, first]
    exact ih later

theorem skipMembers_ok {ms : List (Quoted × Document)}
    (each : ∀ m ∈ ms, m.1.skip = .ok () ∧ m.2.skip = .ok ()) : skipMembers ms = .ok () := by
  induction ms with
  | nil => rfl
  | cons m ms ih =>
    obtain ⟨⟨key, value⟩, later⟩ := List.forall_mem_cons.1 each
    rw [skipMembers, key, value]
    exact ih later

theorem skip_isJson {d : Document} (is : IsJson d) : d.skip = .ok () := by
  induction is with
  | null | bool | number => rfl
  | string is => exact skipBody_isText is (Nat.lt_succ_self _)
  | array _ each =>
    rw [Document.skip, skipItems_ok each]
    rfl
  | @object ms keys _ each =>
    have sound : ∀ m ∈ ms, m.1.skip = .ok () ∧ m.2.skip = .ok () := fun m member => by
      obtain ⟨body, same, is⟩ := keys m member
      rw [same]
      exact ⟨skipBody_isText is (Nat.lt_succ_self _), each m member⟩
    rw [Document.skip, skipMembers_ok sound]
    rfl

end Sound

end ScopeGrammar.Json
