import Mathlib.Tactic.SplitIfs
import ScopeGrammar.Fragment.Encoded
import ScopeGrammar.Proofs.Fragment.Balanced

set_option autoImplicit false

namespace ScopeGrammar.Fragment.Encoded

variable {bytes : List UInt8} {i : Nat} {m : Mark} {c : Char} {cs : List Char}

theorem encode_cons (c : Char) (cs : List Char) :
    encode (c :: cs) = String.utf8EncodeChar c ++ encode cs := List.flatMap_cons ..

theorem encode_append (cs ds : List Char) : encode (cs ++ ds) = encode cs ++ encode ds :=
  List.flatMap_append ..

theorem length_encode_cons (c : Char) (cs : List Char) :
    (encode (c :: cs)).length = c.utf8Size + (encode cs).length := by
  rw [encode_cons, List.length_append, String.length_utf8EncodeChar]

theorem length_encode_append (cs ds : List Char) :
    (encode (cs ++ ds)).length = (encode cs).length + (encode ds).length := by
  rw [encode_append, List.length_append]

theorem mark_of_high {n : Nat} (high : 128 ≤ n) : Mark.ofCode n = .plain := by
  have ne (d : Char) (low : d.toNat < 128) : n ≠ d.toNat := by omega
  simp only [Mark.ofCode, ne _ (by decide : '\\'.toNat < 128), ne _ (by decide : '('.toNat < 128),
    ne _ (by decide : ')'.toNat < 128), ne _ (by decide : '['.toNat < 128),
    ne _ (by decide : ']'.toNat < 128), ne _ (by decide : '^'.toNat < 128),
    ne _ (by decide : '|'.toNat < 128), if_false]

theorem encodeChar_marks (c : Char) :
    ∃ b bs, String.utf8EncodeChar c = b :: bs ∧ Mark.ofCode b.toNat = Mark.ofCode c.toNat ∧
      ∀ b' ∈ bs, Mark.ofCode b'.toNat = .plain := by
  have code : c.toNat = c.val.toNat := rfl
  unfold String.utf8EncodeChar
  rw [code]
  generalize c.val.toNat = n
  dsimp only
  have high {k : Nat} (high : 128 ≤ k % 256) : Mark.ofCode (UInt8.ofNat k).toNat = .plain :=
    mark_of_high (by rwa [UInt8.toNat_ofNat'])
  split_ifs with one two three
  · refine ⟨_, _, rfl, ?_, by simp⟩
    rw [UInt8.toNat_ofNat', Nat.mod_eq_of_lt (by omega)]
  all_goals
    refine ⟨_, _, rfl, ?_, ?_⟩
    · rw [mark_of_high (n := n) (by omega), high (by omega)]
    · simp only [List.forall_mem_cons, List.not_mem_nil, false_imp_iff, implies_true, and_true]
      and_intros <;> exact high (by omega)

section Reading

theorem read_eq_ok : read bytes i = .ok m ↔ markAt bytes i = some m := by
  unfold read
  split <;> simp_all

theorem inside_of_read (reads : read bytes i = .ok m) : i < bytes.length := by
  rw [read_eq_ok, markAt, Option.map_eq_some_iff] at reads
  obtain ⟨b, there, -⟩ := reads
  exact (List.getElem?_eq_some_iff.1 there).1

/-- From the index on, the bytes are those of the text. -/
def At (bytes : List UInt8) (i : Nat) (cs : List Char) : Prop := bytes.drop i = encode cs

theorem At.start (cs : List Char) : At (encode cs) 0 cs := rfl

theorem At.behind {ds : List Char} (there : At bytes i (cs ++ ds)) :
    At bytes (i + (encode cs).length) ds := by
  rw [At, ← List.drop_drop, there, encode_append, List.drop_left]

theorem At.next (there : At bytes i (c :: cs)) : At bytes (i + c.utf8Size) cs := by
  have whole : At bytes i ([c] ++ cs) := there
  have next := whole.behind
  rwa [length_encode_cons] at next

theorem At.markAt_eq (there : At bytes i (c :: cs)) : markAt bytes i = some (Mark.ofCode c.toNat) := by
  obtain ⟨b, bs, encoded, mark, -⟩ := encodeChar_marks c
  have head : bytes[i]? = some b := by
    rw [← List.head?_drop, there, encode_cons, encoded]
    rfl
  rw [markAt, head, Option.map_some, mark]

theorem At.read_eq (there : At bytes i (c :: cs)) : read bytes i = .ok (Mark.ofCode c.toNat) :=
  read_eq_ok.2 there.markAt_eq

theorem At.ends (there : At bytes i []) : bytes.length ≤ i := List.drop_eq_nil_iff.1 there

/-- A scan that passes over the bytes without a mark. -/
def Skips {α : Type} (bytes : List UInt8) (scan : Nat → α) : Prop :=
  ∀ k, read bytes k = .ok .plain → scan k = scan (k + 1)

variable {α : Type} {scan : Nat → α} (skips : Skips bytes scan)

include skips

theorem Skips.over {bs rest : List UInt8} (there : bytes.drop i = bs ++ rest)
    (plain : ∀ b ∈ bs, Mark.ofCode b.toNat = .plain) : scan i = scan (i + bs.length) := by
  induction bs generalizing i with
  | nil => rfl
  | cons b bs ih =>
    obtain ⟨first, later⟩ := List.forall_mem_cons.1 plain
    have head : bytes[i]? = some b := by
      rw [← List.head?_drop, there]
      rfl
    have reads : read bytes i = .ok .plain := read_eq_ok.2 (by rw [markAt, head, Option.map_some, first])
    have behind : bytes.drop (i + 1) = bs ++ rest := by
      rw [← List.drop_drop, there]
      rfl
    rw [skips i reads, ih behind later, List.length_cons, Nat.add_assoc, Nat.add_comm 1]

theorem Skips.next (there : At bytes i (c :: cs)) : scan (i + 1) = scan (i + c.utf8Size) := by
  obtain ⟨b, bs, encoded, -, plain⟩ := encodeChar_marks c
  have size : bs.length + 1 = c.utf8Size := by
    rw [← String.length_utf8EncodeChar, encoded, List.length_cons]
  have behind : bytes.drop (i + 1) = bs ++ encode cs := by
    rw [← List.drop_drop, there, encode_cons, encoded]
    rfl
  rw [skips.over behind plain, ← size, Nat.add_assoc, Nat.add_comm 1]

end Reading

section Class

def classScan (bytes : List UInt8) (i : Nat) : Except Fault (Option Nat) :=
  (classFrom bytes i).map (Option.map Subtype.val)

theorem val_later {i j : Nat} (le : i ≤ j) (stop : Option {stop : Nat // j ≤ stop}) :
    (later le stop).map Subtype.val = stop.map Subtype.val := by
  cases stop <;> rfl

theorem map_later {i j : Nat} (le : i ≤ j) (scan : Except Fault (Option {stop : Nat // j ≤ stop})) :
    (do return later le (← scan)).map (Option.map Subtype.val) = scan.map (Option.map Subtype.val) := by
  cases scan with
  | error fault => rfl
  | ok stop => exact congrArg Except.ok (val_later le stop)

theorem classScan_behind (behind : bytes.length ≤ i) : classScan bytes i = .ok none := by
  rw [classScan, classFrom, dif_neg (Nat.not_lt.2 behind)]
  rfl

theorem classScan_escape (reads : read bytes i = .ok .escape) :
    classScan bytes i = classScan bytes (i + 2) := by
  rw [classScan, classFrom, dif_pos (inside_of_read reads), reads]
  exact map_later _ _

theorem classScan_closing (reads : read bytes i = .ok .closeClass) :
    classScan bytes i = .ok (some i) := by
  rw [classScan, classFrom, dif_pos (inside_of_read reads), reads]
  rfl

theorem classScan_unit (reads : read bytes i = .ok m) (escape : m ≠ .escape) (opens : m ≠ .openClass)
    (ends : m ≠ .closeClass) : classScan bytes i = classScan bytes (i + 1) := by
  rw [classScan, classFrom, dif_pos (inside_of_read reads), reads]
  cases m <;> first | contradiction | exact map_later _ _

theorem classScan_opening (reads : read bytes i = .ok .openClass) :
    classScan bytes i =
      (do match ← classScan bytes (leadEnd bytes (i + 1)) with
        | none => return none
        | some stop => classScan bytes (stop + 1)) := by
  rw [classScan, classFrom, dif_pos (inside_of_read reads), reads, classScan]
  dsimp only [bind, Except.bind]
  cases classFrom bytes (leadEnd bytes (i + 1)) with
  | error fault => rfl
  | ok inner =>
    cases inner with
    | none => rfl
    | some stop => exact map_later _ _

theorem le_of_classScan {stop : Nat} (found : classScan bytes i = .ok (some stop)) : i ≤ stop := by
  rw [classScan] at found
  cases scan : classFrom bytes i with
  | error fault => rw [scan] at found; cases found
  | ok answer =>
    rw [scan] at found
    obtain ⟨stop, -, rfl⟩ := Option.map_eq_some_iff.1 (Except.ok.inj found)
    exact stop.2

theorem classScan_ok (bytes : List UInt8) (i : Nat) : ∃ answer, classScan bytes i = .ok answer := by
  by_cases inside : i < bytes.length
  · obtain ⟨m, reads⟩ : ∃ m, read bytes i = .ok m :=
      ⟨_, read_eq_ok.2 (by rw [markAt, List.getElem?_eq_getElem inside]; rfl)⟩
    by_cases escape : m = .escape
    · subst escape
      rw [classScan_escape reads]
      exact classScan_ok bytes (i + 2)
    by_cases opens : m = .openClass
    · subst opens
      have lead := le_leadEnd bytes (i + 1)
      obtain ⟨answer, inner⟩ := classScan_ok bytes (leadEnd bytes (i + 1))
      rw [classScan_opening reads, inner]
      cases answer with
      | none => exact ⟨none, rfl⟩
      | some stop =>
        have behind := le_of_classScan inner
        exact classScan_ok bytes (stop + 1)
    by_cases ends : m = .closeClass
    · subst ends
      exact ⟨_, classScan_closing reads⟩
    · rw [classScan_unit reads escape opens ends]
      exact classScan_ok bytes (i + 1)
  · exact ⟨none, classScan_behind (Nat.not_lt.1 inside)⟩
termination_by bytes.length - i

theorem classScan_skips (bytes : List UInt8) : Skips bytes (classScan bytes) := fun _ reads =>
  classScan_unit reads (by decide) (by decide) (by decide)

def enter (bytes : List UInt8) : Place → Nat → Nat
  | .opened, i => leadEnd bytes i
  | .negated, i => if markAt bytes i = some .closeClass then i + 1 else i
  | .inside, i => i

theorem enter_caret (there : At bytes i ('^' :: cs)) :
    enter bytes .opened i = enter bytes .negated (i + 1) := by
  simp only [enter, leadEnd, there.markAt_eq]
  rfl

theorem enter_bracket {place : Place} (first : place ≠ .inside) (there : At bytes i (']' :: cs)) :
    enter bytes place i = i + 1 := by
  have mark : markAt bytes i = some .closeClass := there.markAt_eq
  cases place with
  | opened => simp [enter, leadEnd, mark]
  | negated => simp [enter, mark]
  | inside => contradiction

theorem enter_of_ne {place : Place} (caret : place = .opened → markAt bytes i ≠ some .caret)
    (bracket : markAt bytes i ≠ some .closeClass) : enter bytes place i = i := by
  cases place with
  | opened => simp [enter, leadEnd, caret rfl, bracket]
  | negated => simp [enter, bracket]
  | inside => rfl

theorem At.enter_of_ne {place : Place} (there : At bytes i (c :: cs))
    (caret : place = .opened → c ≠ '^') (bracket : c ≠ ']') : enter bytes place i = i := by
  refine Encoded.enter_of_ne (fun first => ?_) ?_ <;> rw [there.markAt_eq, Ne, Option.some.injEq]
  · exact mark_ne (d := '^') (by decide) (caret first)
  · exact mark_ne (d := ']') (by decide) bracket

theorem length_encode_class (inner cs : List Char) :
    (encode ('[' :: inner ++ ']' :: cs)).length = 1 + (encode inner).length + 1 + (encode cs).length := by
  rw [length_encode_append, length_encode_cons, length_encode_cons, Nat.add_assoc (1 + _)]
  rfl

theorem classScan_class {inner ds : List Char} (there : At bytes i ('[' :: inner ++ ']' :: ds))
    (scanned : classScan bytes (enter bytes .opened (i + 1)) =
      classScan bytes (i + 1 + (encode inner).length)) :
    classScan bytes i = classScan bytes (i + (1 + (encode inner).length + 1)) := by
  have behind : At bytes (i + 1) (inner ++ ']' :: ds) := there.next
  have last := scanned.trans (classScan_closing behind.behind.read_eq)
  rw [classScan_opening there.read_eq, show leadEnd bytes (i + 1) = enter bytes .opened (i + 1) from rfl,
    last, ← Nat.add_assoc, ← Nat.add_assoc]
  rfl

theorem At.behind_class {inner ds : List Char} (there : At bytes i ('[' :: inner ++ ']' :: ds)) :
    At bytes (i + (1 + (encode inner).length + 1)) ds := by
  have behind : At bytes (i + 1) (inner ++ ']' :: ds) := there.next
  have last : At bytes (i + 1 + (encode inner).length + 1) ds := behind.behind.next
  rwa [← Nat.add_assoc, ← Nat.add_assoc]

theorem classScan_members {place : Place} {inner ds : List Char} (members : Members place inner)
    (there : At bytes i (inner ++ ds)) :
    classScan bytes (enter bytes place i) = classScan bytes (i + (encode inner).length) := by
  induction members generalizing i ds with
  | nil => rfl
  | caret rest ih =>
    have behind : At bytes (i + 1) (_ ++ ds) := there.next
    rw [enter_caret there, ih behind, length_encode_cons, ← Nat.add_assoc]
    rfl
  | bracket first rest ih =>
    have behind : At bytes (i + 1) (_ ++ ds) := there.next
    have skipped := ih behind
    rw [enter_bracket first there, length_encode_cons, ← Nat.add_assoc]
    exact skipped
  | @escape place cs c rest ih =>
    have behind : At bytes (i + 1) (c :: (cs ++ ds)) := there.next
    have skipped := ih behind.next
    rw [there.enter_of_ne (by simp) (by decide), classScan_escape there.read_eq,
      (classScan_skips bytes).next behind, length_encode_cons, length_encode_cons, ← Nat.add_assoc,
      ← Nat.add_assoc]
    exact skipped
  | @nested place inner cs inside rest ihInside ihRest =>
    rw [List.append_assoc, List.cons_append] at there
    have behind : At bytes (i + 1) (inner ++ ']' :: (cs ++ ds)) := there.next
    rw [there.enter_of_ne (by simp) (by decide), classScan_class there (ihInside behind),
      length_encode_class]
    exact (ihRest there.behind_class).trans (congrArg _ (Nat.add_assoc ..))
  | @plain place c cs other noCaret rest ih =>
    have skipped := ih there.next
    simp only [List.mem_cons, List.not_mem_nil, or_false, not_or] at other
    rw [there.enter_of_ne noCaret other.2.2, classScan_unit there.read_eq
      (mark_ne (d := '\\') (by decide) other.1) (mark_ne (d := '[') (by decide) other.2.1)
      (mark_ne (d := ']') (by decide) other.2.2), (classScan_skips bytes).next there, length_encode_cons,
      ← Nat.add_assoc]
    exact skipped

theorem classScan_unclosed {place : Place} (unclosed : Unclosed place cs) (there : At bytes i cs) :
    classScan bytes (enter bytes place i) = .ok none := by
  induction unclosed generalizing i with
  | nil place =>
    have none : markAt bytes i = none := by simp [markAt, there.ends]
    rw [enter_of_ne (by simp [none]) (by simp [none]), classScan_behind there.ends]
  | hanging place =>
    have behind : At bytes (i + 1) [] := there.next
    rw [there.enter_of_ne (by simp) (by decide), classScan_escape there.read_eq,
      classScan_behind (Nat.le_succ_of_le behind.ends)]
  | caret rest ih =>
    rw [enter_caret there]
    exact ih there.next
  | bracket first rest ih =>
    rw [enter_bracket first there]
    exact ih there.next
  | @escape place cs c rest ih =>
    have behind : At bytes (i + 1) (c :: cs) := there.next
    rw [there.enter_of_ne (by simp) (by decide), classScan_escape there.read_eq,
      (classScan_skips bytes).next behind]
    exact ih behind.next
  | nested inside ih =>
    have inner : classScan bytes (leadEnd bytes (i + 1)) = .ok none := ih there.next
    rw [there.enter_of_ne (by simp) (by decide), classScan_opening there.read_eq, inner]
    rfl
  | @behind place inner cs inside rest ih =>
    have behind : At bytes (i + 1) (inner ++ ']' :: cs) := there.next
    rw [there.enter_of_ne (by simp) (by decide), classScan_class there (classScan_members inside behind)]
    exact ih there.behind_class
  | @plain place c cs other noCaret rest ih =>
    simp only [List.mem_cons, List.not_mem_nil, or_false, not_or] at other
    rw [there.enter_of_ne noCaret other.2.2, classScan_unit there.read_eq
      (mark_ne (d := '\\') (by decide) other.1) (mark_ne (d := '[') (by decide) other.2.1)
      (mark_ne (d := ']') (by decide) other.2.2), (classScan_skips bytes).next there]
    exact ih there.next

theorem ok_of_map {answer : Option Nat} {scan : Except Fault (Option {stop : Nat // i ≤ stop})}
    (found : scan.map (Option.map Subtype.val) = .ok answer) :
    ∃ stop, scan = .ok stop ∧ stop.map Subtype.val = answer := by
  cases scan with
  | error fault => cases found
  | ok stop => exact ⟨stop, rfl, Except.ok.inj found⟩

theorem classEnd_map (bytes : List UInt8) (i : Nat) :
    (classEnd bytes i).map (Option.map Subtype.val) = classScan bytes (enter bytes .opened (i + 1)) :=
  map_later _ _

theorem classEnd_members {inner ds : List Char} (members : Members .opened inner)
    (there : At bytes i ('[' :: inner ++ ']' :: ds)) :
    ∃ le, classEnd bytes i = .ok (some ⟨i + (1 + (encode inner).length), le⟩) := by
  have behind : At bytes (i + 1) (inner ++ ']' :: ds) := there.next
  have scanned := (classScan_members members behind).trans (classScan_closing behind.behind.read_eq)
  obtain ⟨stop, found, same⟩ := ok_of_map ((classEnd_map bytes i).trans scanned)
  obtain ⟨⟨_, le⟩, rfl, rfl⟩ := Option.map_eq_some_iff.1 same
  exact ⟨Nat.le_add_right .., by simpa only [Nat.add_assoc] using found⟩

theorem classEnd_unclosed (unclosed : Unclosed .opened cs) (there : At bytes i ('[' :: cs)) :
    classEnd bytes i = .ok none := by
  have scanned := classScan_unclosed unclosed (i := i + 1) there.next
  obtain ⟨stop, found, same⟩ := ok_of_map ((classEnd_map bytes i).trans scanned)
  rw [found, Option.map_eq_none_iff.1 same]

theorem classEnd_ok (bytes : List UInt8) (i : Nat) : ∃ answer, classEnd bytes i = .ok answer := by
  obtain ⟨answer, scanned⟩ := classScan_ok bytes (enter bytes .opened (i + 1))
  obtain ⟨stop, found, -⟩ := ok_of_map ((classEnd_map bytes i).trans scanned)
  exact ⟨stop, found⟩

end Class

end ScopeGrammar.Fragment.Encoded
