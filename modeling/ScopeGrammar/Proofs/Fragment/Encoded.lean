import ScopeGrammar.Proofs.Fragment.EncodedClass

/-!
The scans over the encoded bytes of a source find what its characters show, and what they find is where a
character begins, so that a cut there is one between characters.
-/

set_option autoImplicit false

namespace ScopeGrammar.Fragment.Encoded

variable {bytes : List UInt8} {i : Nat} {m : Mark} {c : Char} {cs : List Char}

section Group

variable {depth : Nat}

theorem groupFrom_behind (behind : bytes.length ≤ i) : groupFrom bytes depth i = .ok none := by
  rw [groupFrom.eq_def, dif_neg (Nat.not_lt.2 behind)]
  rfl

theorem groupFrom_escape (reads : read bytes i = .ok .escape) :
    groupFrom bytes depth i = groupFrom bytes depth (i + 2) := by
  rw [groupFrom.eq_def, dif_pos (inside_of_read reads), reads]
  rfl

theorem groupFrom_opening (reads : read bytes i = .ok .openGroup) :
    groupFrom bytes depth i = groupFrom bytes (depth + 1) (i + 1) := by
  rw [groupFrom.eq_def, dif_pos (inside_of_read reads), reads]
  rfl

theorem groupFrom_closing (reads : read bytes i = .ok .closeGroup) :
    groupFrom bytes (depth + 2) i = groupFrom bytes (depth + 1) (i + 1) := by
  rw [groupFrom, dif_pos (inside_of_read reads), reads]
  rfl

theorem groupFrom_last (reads : read bytes i = .ok .closeGroup) : groupFrom bytes 1 i = .ok (some i) := by
  rw [groupFrom, dif_pos (inside_of_read reads), reads]
  rfl

theorem groupFrom_unit (reads : read bytes i = .ok m) (escape : m ≠ .escape) (set : m ≠ .openClass)
    (opening : m ≠ .openGroup) (closing : m ≠ .closeGroup) :
    groupFrom bytes depth i = groupFrom bytes depth (i + 1) := by
  rw [groupFrom.eq_def, dif_pos (inside_of_read reads), reads]
  cases m <;> first | contradiction | rfl

theorem groupFrom_skips (bytes : List UInt8) (depth : Nat) : Skips bytes (groupFrom bytes depth) :=
  fun _ reads => groupFrom_unit reads (by decide) (by decide) (by decide) (by decide)

theorem groupFrom_char (other : c ∉ ['\\', '[', '(', ')']) (there : At bytes i (c :: cs)) :
    groupFrom bytes depth i = groupFrom bytes depth (i + c.utf8Size) := by
  simp only [List.mem_cons, List.not_mem_nil, or_false, not_or] at other
  rw [← (groupFrom_skips bytes depth).next there]
  exact groupFrom_unit there.read_eq (mark_ne (d := '\\') (by decide) other.1)
    (mark_ne (d := '[') (by decide) other.2.1) (mark_ne (d := '(') (by decide) other.2.2.1)
    (mark_ne (d := ')') (by decide) other.2.2.2)

theorem groupFrom_escaped (there : At bytes i ('\\' :: c :: cs)) :
    groupFrom bytes depth i = groupFrom bytes depth (i + 1 + c.utf8Size) := by
  have behind : At bytes (i + 1) (c :: cs) := there.next
  rw [groupFrom_escape there.read_eq, ← (groupFrom_skips bytes depth).next behind]

theorem groupFrom_class {inner ds : List Char} (members : Members .opened inner)
    (there : At bytes i ('[' :: inner ++ ']' :: ds)) :
    groupFrom bytes depth i = groupFrom bytes depth (i + (1 + (encode inner).length + 1)) := by
  obtain ⟨le, found⟩ := classEnd_members members there
  have reads : read bytes i = .ok .openClass := there.read_eq
  rw [groupFrom.eq_def, dif_pos (inside_of_read reads), reads]
  dsimp only [bind, Except.bind]
  rw [found]
  rfl

theorem groupFrom_leads {after : Nat} {ds : List Char} (leads : Leads depth cs after)
    (there : At bytes i (cs ++ ds)) :
    groupFrom bytes (depth + 1) i = groupFrom bytes (after + 1) (i + (encode cs).length) := by
  induction leads generalizing i with
  | nil depth => rfl
  | @escape depth after cs c rest ih =>
    have behind : At bytes (i + 1) (c :: (cs ++ ds)) := there.next
    have skipped := ih behind.next
    rw [groupFrom_escaped there, length_encode_cons, length_encode_cons, ← Nat.add_assoc, ← Nat.add_assoc]
    exact skipped
  | @set depth after inner cs inside rest ih =>
    rw [List.append_assoc, List.cons_append] at there
    rw [groupFrom_class inside there, length_encode_class]
    exact (ih there.behind_class).trans (congrArg _ (Nat.add_assoc ..))
  | opening rest ih =>
    have skipped := ih (i := i + 1) there.next
    rw [groupFrom_opening there.read_eq, length_encode_cons, ← Nat.add_assoc]
    exact skipped
  | closing rest ih =>
    have skipped := ih (i := i + 1) there.next
    rw [groupFrom_closing there.read_eq, length_encode_cons, ← Nat.add_assoc]
    exact skipped
  | plain other rest ih =>
    have skipped := ih there.next
    rw [groupFrom_char other there, length_encode_cons, ← Nat.add_assoc]
    exact skipped

theorem groupFrom_unended (unended : Unended depth cs) (there : At bytes i cs) :
    groupFrom bytes (depth + 1) i = .ok none := by
  induction unended generalizing i with
  | nil depth => exact groupFrom_behind there.ends
  | hanging depth =>
    have behind : At bytes (i + 1) [] := there.next
    rw [groupFrom_escape there.read_eq, groupFrom_behind (Nat.le_succ_of_le behind.ends)]
  | @escape depth cs c rest ih =>
    have behind : At bytes (i + 1) (c :: cs) := there.next
    rw [groupFrom_escaped there]
    exact ih behind.next
  | unclosed inside =>
    have reads : read bytes i = .ok .openClass := there.read_eq
    rw [groupFrom.eq_def, dif_pos (inside_of_read reads), reads]
    dsimp only [bind, Except.bind]
    rw [classEnd_unclosed inside there]
    rfl
  | set inside rest ih =>
    rw [groupFrom_class inside there]
    exact ih there.behind_class
  | opening rest ih =>
    rw [groupFrom_opening there.read_eq]
    exact ih there.next
  | closing rest ih =>
    rw [groupFrom_closing there.read_eq]
    exact ih there.next
  | plain other rest ih =>
    rw [groupFrom_char other there]
    exact ih there.next

end Group

section Choice

variable {depth : Nat}

theorem choiceFrom_behind (behind : bytes.length ≤ i) : choiceFrom bytes depth i = .ok false := by
  rw [choiceFrom, dif_neg (Nat.not_lt.2 behind)]
  rfl

theorem choiceFrom_escape (reads : read bytes i = .ok .escape) :
    choiceFrom bytes depth i = choiceFrom bytes depth (i + 2) := by
  rw [choiceFrom, dif_pos (inside_of_read reads), reads]
  rfl

theorem choiceFrom_class {inner ds : List Char} (members : Members .opened inner)
    (there : At bytes i ('[' :: inner ++ ']' :: ds)) :
    choiceFrom bytes depth i = choiceFrom bytes depth (i + (1 + (encode inner).length + 1)) := by
  obtain ⟨le, found⟩ := classEnd_members members there
  have reads : read bytes i = .ok .openClass := there.read_eq
  rw [choiceFrom, dif_pos (inside_of_read reads), reads]
  dsimp only [bind, Except.bind]
  rw [found]
  rfl

theorem choiceFrom_unclosed (unclosed : Unclosed .opened cs) (there : At bytes i ('[' :: cs)) :
    choiceFrom bytes depth i = .ok false := by
  have reads : read bytes i = .ok .openClass := there.read_eq
  rw [choiceFrom, dif_pos (inside_of_read reads), reads]
  dsimp only [bind, Except.bind]
  rw [classEnd_unclosed unclosed there]
  rfl

theorem choiceFrom_unit (reads : read bytes i = .ok m) (escape : m ≠ .escape) (set : m ≠ .openClass)
    {answer : Bool}
    (rest : choiceFrom bytes (Nesting.step ⟨depth, none⟩ m).groups (i + 1) = .ok answer) :
    choiceFrom bytes depth i = .ok ((m = .bar && (⟨depth, none⟩ : Nesting) = .flat) || answer) := by
  rw [choiceFrom, dif_pos (inside_of_read reads), reads]
  cases m with
  | escape => contradiction
  | openClass => contradiction
  | bar =>
    by_cases flat : depth = 0
    · simp [bind, Except.bind, flat, eq_flat]
      rfl
    · have same : choiceFrom bytes depth (i + 1) = .ok answer := rest
      simpa [bind, Except.bind, flat, eq_flat] using same
  | _ => exact rest

theorem choiceFrom_skips (bytes : List UInt8) (depth : Nat) : Skips bytes (choiceFrom bytes depth) := by
  intro k reads
  rw [choiceFrom, dif_pos (inside_of_read reads), reads]
  rfl

/-- The bytes show a choice where the characters do. -/
theorem choiceFrom_eq (depth i : Nat) (cs : List Char) (there : At bytes i cs) :
    choiceFrom bytes depth i = .ok (barFrom ⟨depth, none⟩ (marks cs)) := by
  match cs with
  | [] => exact choiceFrom_behind there.ends
  | c :: cs =>
    by_cases escape : c = '\\'
    · subst escape
      rw [choiceFrom_escape there.read_eq]
      cases cs with
      | nil =>
        have behind : At bytes (i + 1) [] := there.next
        exact choiceFrom_behind (Nat.le_succ_of_le behind.ends)
      | cons c cs =>
        have behind : At bytes (i + 1) (c :: cs) := there.next
        rw [(choiceFrom_skips bytes depth).next behind]
        exact choiceFrom_eq depth _ cs behind.next
    by_cases set : c = '['
    · subst set
      rcases members_or_unclosed .opened cs with ⟨inner, rest, rfl, inside⟩ | unclosed
      · rw [← List.cons_append, choiceFrom_class inside there, marks_class, inside.barFrom_class]
        exact choiceFrom_eq depth _ rest (At.behind_class there)
      · rw [choiceFrom_unclosed unclosed there]
        have endless := (unclosed.endless depth 0).barFrom_eq (deep_class _)
        exact congrArg Except.ok endless.symm
    have noEscape : Mark.ofCode c.toNat ≠ .escape := mark_ne (d := '\\') (by decide) escape
    have noClass : Mark.ofCode c.toNat ≠ .openClass := mark_ne (d := '[') (by decide) set
    obtain ⟨groups, step⟩ : ∃ groups, Nesting.step ⟨depth, none⟩ (Mark.ofCode c.toNat) = ⟨groups, none⟩ := by
      generalize Mark.ofCode c.toNat = m at noClass
      cases m <;> first | exact ⟨_, rfl⟩ | contradiction
    have rest := choiceFrom_eq groups _ cs there.next
    rw [← (choiceFrom_skips bytes groups).next there] at rest
    rw [choiceFrom_unit there.read_eq noEscape noClass (by rwa [step]), marks_cons, barFrom_unit noEscape,
      step]
termination_by cs.length

end Choice

section Whole

variable {body : List Char}

theorem closingByte_of_encloses (encloses : Encloses cs body) :
    closingByte (encode cs) = .ok (some ((encode body).length + 1)) := by
  have there := At.start cs
  cases encloses with
  | group balanced rest =>
    have mark : markAt (encode ('(' :: body ++ ')' :: rest)) 0 = some .openGroup := there.markAt_eq
    have inside : At (encode ('(' :: body ++ ')' :: rest)) 1 (body ++ ')' :: rest) := there.next
    rw [closingByte, mark]
    dsimp only
    rw [groupFrom_opening there.read_eq, groupFrom_leads balanced inside,
      groupFrom_last inside.behind.read_eq, Nat.add_comm]
  | set members rest =>
    have mark : markAt (encode ('[' :: body ++ ']' :: rest)) 0 = some .openClass := there.markAt_eq
    obtain ⟨le, found⟩ := classEnd_members members there
    rw [closingByte, mark]
    dsimp only
    rw [found]
    exact congrArg (fun i => Except.ok (some i)) ((Nat.zero_add _).trans (Nat.add_comm ..))

theorem closingByte_of_unmatched (unmatched : Unmatched cs) : closingByte (encode cs) = .ok none := by
  have there := At.start cs
  cases unmatched with
  | nil => rfl
  | group unended =>
    have mark : markAt (encode ('(' :: _)) 0 = some .openGroup := there.markAt_eq
    rw [closingByte, mark]
    dsimp only
    rw [groupFrom_opening there.read_eq]
    exact groupFrom_unended unended there.next
  | set unclosed =>
    have mark : markAt (encode ('[' :: _)) 0 = some .openClass := there.markAt_eq
    rw [closingByte, mark]
    dsimp only
    rw [classEnd_unclosed unclosed there]
    rfl
  | @other c other cs =>
    simp only [List.mem_cons, List.not_mem_nil, or_false, not_or] at other
    have noGroup : Mark.ofCode c.toNat ≠ .openGroup := mark_ne (d := '(') (by decide) other.1
    have noClass : Mark.ofCode c.toNat ≠ .openClass := mark_ne (d := '[') (by decide) other.2
    rw [closingByte, there.markAt_eq]
    generalize Mark.ofCode c.toNat = m at noGroup noClass
    cases m <;> first | rfl | contradiction

theorem length_encode_eq_zero : (encode cs).length = 0 ↔ cs.length = 0 := by
  cases cs with
  | nil => exact Iff.rfl
  | cons c cs =>
    have pos := c.utf8Size_pos
    simp only [length_encode_cons, List.length_cons]
    omega

theorem length_of_encloses (encloses : Encloses cs body) :
    ∃ rest : List Char, cs.length = body.length + 1 + rest.length + 1 ∧
      (encode cs).length = (encode body).length + 1 + (encode rest).length + 1 := by
  have lengths (opening closing : Char) (one : opening.utf8Size = 1) (one' : closing.utf8Size = 1)
      (rest : List Char) :
      (opening :: body ++ closing :: rest).length = body.length + 1 + rest.length + 1 ∧
        (encode (opening :: body ++ closing :: rest)).length =
          (encode body).length + 1 + (encode rest).length + 1 := by
    rw [length_encode_append, length_encode_cons, length_encode_cons, one, one', List.length_append,
      List.length_cons, List.length_cons]
    omega
  cases encloses with
  | group balanced rest => exact ⟨rest, lengths '(' ')' rfl rfl rest⟩
  | set members rest => exact ⟨rest, lengths '[' ']' rfl rfl rest⟩

theorem closes_last (c : Char) (cs : List Char) :
    (do return (← closingByte (encode (c :: cs))) == some (← pred (encode (c :: cs)).length)) =
      (.ok (closingIndex (marks (c :: cs)) = some cs.length) : Except Fault Bool) := by
  rcases encloses_or_unmatched (c :: cs) with ⟨body, encloses⟩ | unmatched
  · obtain ⟨rest, length, bytes⟩ := length_of_encloses encloses
    have same : (encode rest).length = 0 ↔ rest.length = 0 := length_encode_eq_zero
    rw [closingByte_of_encloses encloses, encloses.closingIndex_eq, bytes]
    refine congrArg Except.ok (Bool.eq_iff_iff.2 ?_)
    simp only [beq_iff_eq, decide_eq_true_eq, Option.some.injEq, List.length_cons] at length ⊢
    omega
  · obtain ⟨n, bytes⟩ : ∃ n, (encode (c :: cs)).length = n + 1 := by
      exact Nat.exists_eq_succ_of_ne_zero fun zero => nomatch length_encode_eq_zero.1 zero
    rw [closingByte_of_unmatched unmatched, unmatched.closingIndex_eq, bytes]
    rfl

section Long

variable (some : cs ≠ []) (escape : ∀ d, c :: cs ≠ ['\\', d])

include some escape

theorem atomic_long : atomic ⟨c :: cs⟩ =
    do return (← closingByte (encode (c :: cs))) == Option.some (← pred (encode (c :: cs)).length) := by
  unfold atomic
  split <;> simp_all

theorem isAtomic_long : isAtomic ⟨c :: cs⟩ = (closingIndex (marks (c :: cs)) = Option.some cs.length) := by
  unfold isAtomic
  split <;> simp_all

end Long

theorem atomic_eq (f : Fragment) : atomic f = .ok f.isAtomic := by
  obtain ⟨source⟩ := f
  cases source with
  | nil => rfl
  | cons c cs =>
    by_cases some : cs = []
    · subst some
      rfl
    by_cases escape : ∃ d, c :: cs = ['\\', d]
    · obtain ⟨d, two⟩ := escape
      rw [two]
      rfl
    have long : ∀ d, c :: cs ≠ ['\\', d] := fun d two => escape ⟨d, two⟩
    rw [atomic_long some long, closes_last]
    exact congrArg Except.ok (Bool.eq_iff_iff.2 (by rw [isAtomic_long some long, decide_eq_true_iff]))

theorem sliceTo_encode (cs ds : List Char) (index : Nat) :
    sliceTo (encode cs).length index (cs ++ ds) = .ok cs := by
  induction cs generalizing index with
  | nil => cases ds <;> rfl
  | cons c cs ih =>
    have pos := c.utf8Size_pos
    rw [length_encode_cons, List.cons_append, sliceTo, if_neg (by omega), if_neg (by omega),
      Nat.add_sub_cancel_left, ih]
    rfl

theorem capture_eq (f : Fragment) : capture f = .ok f.capture := by
  obtain ⟨source⟩ := f
  by_cases group : ∃ rest, source = '(' :: '?' :: ':' :: rest
  · obtain ⟨rest, rfl⟩ := group
    have reads : capture ⟨'(' :: '?' :: ':' :: rest⟩ = (do
        if ← atomic ⟨'(' :: '?' :: ':' :: rest⟩ then
          return ⟨'(' :: (← sliceTo (← pred (encode rest).length) 0 rest) ++ [')']⟩
        else return ⟨'(' :: '(' :: '?' :: ':' :: rest ++ [')']⟩) := rfl
    rw [reads, atomic_eq]
    by_cases whole : isAtomic ⟨'(' :: '?' :: ':' :: rest⟩ = true
    · obtain ⟨body, rfl, -⟩ := wrapped_of_isAtomic whole
      have bytes : pred (encode (body ++ [')'])).length = .ok (encode body).length := by
        rw [length_encode_append]
        rfl
      have cut := congrArg Fragment.mk (capture_of_wrapped rfl whole)
      rw [whole, bytes]
      dsimp only [bind, Except.bind]
      rw [sliceTo_encode]
      exact congrArg Except.ok cut.symm
    · have kept : Fragment.capture ⟨'(' :: '?' :: ':' :: rest⟩ = ⟨'(' :: '(' :: '?' :: ':' :: rest ++ [')']⟩ :=
        if_neg whole
      rw [kept, Bool.eq_false_iff.2 whole]
      rfl
  · have other : ∀ rest, source ≠ '(' :: '?' :: ':' :: rest := fun rest is => group ⟨rest, is⟩
    have plain : Fragment.capture ⟨source⟩ = ⟨'(' :: source ++ [')']⟩ := by
      unfold Fragment.capture
      split
      · rename_i is
        exact absurd is (other _)
      · rfl
    rw [plain, capture]
    split
    · rename_i is
      exact absurd is (other _)
    · rfl

/-- The scan of the bytes answers with the closing delimiter and with nothing else. -/
theorem closingByte_iff (cs : List Char) :
    ∃ answer, closingByte (encode cs) = .ok answer ∧
      ∀ i, answer = some i ↔ ∃ body, Encloses cs body ∧ i = (encode body).length + 1 := by
  have told {body : List Char} (encloses : Encloses cs body) := closingByte_of_encloses encloses
  rcases encloses_or_unmatched cs with ⟨body, encloses⟩ | unmatched
  · refine ⟨_, told encloses, fun i => ⟨?_, ?_⟩⟩
    · rintro ⟨⟩
      exact ⟨body, encloses, rfl⟩
    · rintro ⟨body', encloses', rfl⟩
      exact Except.ok.inj ((told encloses).symm.trans (told encloses'))
  · have nothing := closingByte_of_unmatched unmatched
    refine ⟨_, nothing, fun i => ⟨fun found => (by cases found), ?_⟩⟩
    rintro ⟨body, encloses, rfl⟩
    exact Except.ok.inj (nothing.symm.trans (told encloses))

/-- The scan of a class answers with the bracket that closes it and with nothing else. -/
theorem classEnd_iff (before cs : List Char) :
    ∃ answer, classEnd (encode (before ++ '[' :: cs)) (encode before).length = .ok answer ∧
      ∀ stop, answer.map Subtype.val = some stop ↔ ∃ inner rest, cs = inner ++ ']' :: rest ∧
        Members .opened inner ∧ stop = (encode before).length + 1 + (encode inner).length := by
  have there : At (encode (before ++ '[' :: cs)) (encode before).length ('[' :: cs) := by
    have behind := At.behind (At.start (before ++ '[' :: cs))
    rwa [Nat.zero_add] at behind
  have told {inner rest : List Char} (source : cs = inner ++ ']' :: rest)
      (members : Members .opened inner) :
      ∃ le, classEnd (encode (before ++ '[' :: cs)) (encode before).length =
        .ok (some ⟨(encode before).length + (1 + (encode inner).length), le⟩) := by
    subst source
    exact classEnd_members members there
  rcases members_or_unclosed .opened cs with ⟨inner, rest, source, members⟩ | unclosed
  · obtain ⟨le, found⟩ := told source members
    refine ⟨_, found, fun stop => ⟨?_, ?_⟩⟩
    · rintro ⟨⟩
      exact ⟨inner, rest, source, members, (Nat.add_assoc ..).symm⟩
    · rintro ⟨inner', rest', source', members', rfl⟩
      obtain ⟨le', found'⟩ := told source' members'
      have same := Except.ok.inj (found.symm.trans found')
      rw [same, Nat.add_assoc]
      rfl
  · have nothing := classEnd_unclosed unclosed there
    refine ⟨_, nothing, fun stop => ⟨fun found => (by cases found), ?_⟩⟩
    rintro ⟨inner, rest, source, members, rfl⟩
    obtain ⟨le, found⟩ := told source members
    cases nothing.symm.trans found

end Whole

/-- The scans over the bytes of a source come to an answer without a fault, wherever a scan of a class
starts. What they answer is what the characters show: a class ends at its own bracket, the first
delimiter at the byte that closes it, and the combinators are those on characters. A capture that takes
the place of a group cuts off the parenthesis that closes the group, and what it encloses is what the
group had enclosed. -/
theorem scans_exact (f : Fragment) :
    (∀ opening, ∃ answer, classEnd (encode f.source) opening = .ok answer) ∧
      (∀ before cs, f.source = before ++ '[' :: cs →
        ∃ answer, classEnd (encode f.source) (encode before).length = .ok answer ∧
          ∀ stop, answer.map Subtype.val = some stop ↔ ∃ inner rest, cs = inner ++ ']' :: rest ∧
            Members .opened inner ∧ stop = (encode before).length + 1 + (encode inner).length) ∧
      (∃ answer, closingByte (encode f.source) = .ok answer ∧
        ∀ i, answer = some i ↔ ∃ body, Encloses f.source body ∧ i = (encode body).length + 1) ∧
      choiceByte (encode f.source) = .ok (hasOpenChoice (marks f.source)) ∧
      atomic f = .ok f.isAtomic ∧ capture f = .ok f.capture ∧
      ∀ rest, f.source = '(' :: '?' :: ':' :: rest → f.isAtomic = true →
        ∃ body, rest = body ++ [')'] ∧ Encloses f.source ('?' :: ':' :: body) ∧
          closingByte (encode f.source) = .ok (some ((encode f.source).length - 1)) ∧
          f.capture.source = '(' :: body ++ [')'] ∧ wrapped ⟨body⟩ = f := by
  refine ⟨classEnd_ok _, ?_, closingByte_iff f.source, choiceFrom_eq 0 0 _ (At.start _), atomic_eq f,
    capture_eq f, ?_⟩
  · intro before cs source
    rw [source]
    exact classEnd_iff before cs
  · intro rest source whole
    obtain ⟨source'⟩ := f
    obtain rfl : source' = '(' :: '?' :: ':' :: rest := source
    obtain ⟨body, rfl, balanced⟩ := wrapped_of_isAtomic whole
    have inside : IsBalanced ('?' :: ':' :: body) := .plain (by decide) (.plain (by decide) balanced)
    have encloses := Encloses.group inside []
    refine ⟨body, rfl, encloses, ?_, capture_of_wrapped rfl whole, rfl⟩
    have bytes : (encode ('(' :: ('?' :: ':' :: body) ++ [')'])).length =
        (encode ('?' :: ':' :: body)).length + 1 + 1 := by
      rw [length_encode_append, length_encode_cons '(', Nat.add_comm '('.utf8Size]
      rfl
    exact (closingByte_of_encloses encloses).trans
      (congrArg (fun n => Except.ok (some (n - 1))) bytes.symm)

theorem scans_exact_class :
    let f : Fragment := ⟨['(', '?', ':', 'é', '[', ']', ')', ']', ')']⟩
    f.isAtomic = true ∧ closingByte (encode f.source) = .ok (some 9) ∧
      capture f = .ok ⟨['(', 'é', '[', ']', ')', ']', ')']⟩ ∧
      ∃ body, Encloses f.source ('?' :: ':' :: body) ∧ wrapped ⟨body⟩ = f := by
  intro f
  have whole : f.isAtomic = true := by decide
  obtain ⟨-, -, -, -, -, captured, cut⟩ := scans_exact f
  obtain ⟨body, -, encloses, closes, -, same⟩ := cut _ rfl whole
  exact ⟨whole, closes, captured, body, encloses, same⟩

end ScopeGrammar.Fragment.Encoded
