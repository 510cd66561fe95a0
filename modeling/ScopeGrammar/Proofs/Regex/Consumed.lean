import ScopeGrammar.Fragment.Delimiter
import ScopeGrammar.Proofs.Result
import ScopeGrammar.Proofs.Text.Lines
import ScopeGrammar.Regex.Reader

set_option autoImplicit false

namespace ScopeGrammar.Regex

open Fragment (Mark)

def structural : List Char := ['\\', '(', ')', '[', ']', '^', '|']

theorem mark_of_not_structural {c : Char} (other : c ∉ structural) :
    Mark.ofCode c.toNat = .plain := by
  have differs (d : Char) (is : d ∈ structural) : c.toNat ≠ d.toNat := fun same =>
    other (Char.toNat_inj.1 same ▸ is)
  simp only [Mark.ofCode, if_neg (differs '\\' (by decide)), if_neg (differs '(' (by decide)),
    if_neg (differs ')' (by decide)), if_neg (differs '[' (by decide)),
    if_neg (differs ']' (by decide)), if_neg (differs '^' (by decide)),
    if_neg (differs '|' (by decide))]

def Inert (text : List Char) : Prop := ∀ c ∈ text, c ∉ structural

instance (text : List Char) : Decidable (Inert text) :=
  List.decidableBAll (fun c => c ∉ structural) text

theorem Inert.cons {c : Char} {text : List Char} (first : c ∉ structural) (later : Inert text) :
    Inert (c :: text) := List.forall_mem_cons.2 ⟨first, later⟩

theorem Inert.append {text more : List Char} (first : Inert text) (second : Inert more) :
    Inert (text ++ more) := List.forall_mem_append.2 ⟨first, second⟩

theorem Inert.marks {text : List Char} (inert : Inert text) :
    ∀ m ∈ Fragment.marks text, m = .plain := by
  intro m member
  obtain ⟨c, inside, rfl⟩ := List.mem_map.1 member
  exact mark_of_not_structural (inert c inside)

theorem not_structural_of {p : Char → Bool} {text : List Char} (none : structural.all fun c => !p c)
    (all : ∀ c ∈ text, p c = true) : Inert text := by
  intro c member is
  have denied := List.all_eq_true.1 none c is
  simp [all c member] at denied

theorem inert_of_hexValue? {text : List Char} (hex : ∀ c ∈ text, (hexValue? c).isSome = true) :
    Inert text := not_structural_of (by decide) hex

theorem inert_of_isDigit {text : List Char} (digits : ∀ c ∈ text, c.isDigit = true) : Inert text :=
  not_structural_of (by decide) digits

section Escapes

variable {rest rest' : List Char}

theorem bracedCode?_text {n : Nat} (read : bracedCode? rest = some (n, rest')) :
    ∃ text, rest = '\x7b' :: text ++ rest' ∧ Inert text ∧
      ∀ tail, bracedCode? ('\x7b' :: text ++ tail) = some (n, tail) := by
  unfold bracedCode? at read
  split at read
  · rename_i _ inside
    obtain ⟨whole, hex⟩ := Text.split_span (hexValue? · |>.isSome) inside
    dsimp only at read
    generalize inside.takeWhile (hexValue? · |>.isSome) = text at *
    split at read
    · rename_i behind stop
      split at read
      · rename_i short
        simp only [Option.map_eq_some_iff, Prod.mk.injEq] at read
        obtain ⟨_, number, rfl, rfl⟩ := read
        refine ⟨text ++ ['\x7d'], by rw [whole, stop]; simp, ?_, fun tail => ?_⟩
        · exact (inert_of_hexValue? hex).append (by decide)
        · obtain ⟨taken, dropped⟩ := Text.span_append hex ('\x7d' :: tail) fun c same => by
            cases same
            rfl
          simp [bracedCode?, taken, dropped, short, number]
      · simp at read
    · simp at read
  · simp at read

theorem code?_text {digits n : Nat} (read : code? digits rest = some (n, rest')) :
    ∃ text, rest = text ++ rest' ∧ Inert text ∧
      ∀ tail, code? digits (text ++ tail) = some (n, tail) := by
  unfold code? at read
  dsimp only at read
  split at read
  · rename_i hex
    simp only [Option.map_eq_some_iff, Prod.mk.injEq] at read
    obtain ⟨_, number, rfl, rfl⟩ := read
    have whole := (List.take_append_drop digits rest).symm
    generalize rest.take digits = text at *
    simp only [Bool.and_eq_true, decide_eq_true_eq] at hex
    obtain ⟨rfl, hex⟩ := hex
    refine ⟨text, whole, inert_of_hexValue? (List.all_eq_true.1 hex), fun tail => ?_⟩
    rw [code?, List.take_left, List.drop_left, hex]
    simp [number]
  · rename_i noDigits
    obtain ⟨text, rfl, inert, reads⟩ := bracedCode?_text read
    refine ⟨'\x7b' :: text, rfl, inert.cons (by decide), fun tail => ?_⟩
    cases digits with
    | zero => simp at noDigits
    | succ digits =>
      have brace : (hexValue? '\x7b').isSome = false := rfl
      simpa [code?, brace] using reads tail

theorem readCode_text {digits : Nat} {c : Char} (read : readCode digits rest = .ok (c, rest')) :
    ∃ text, rest = text ++ rest' ∧ Inert text ∧
      ∀ tail, readCode digits (text ++ tail) = .ok (c, tail) := by
  unfold readCode at read
  cases number : code? digits rest with
  | none => simp [number] at read
  | some result =>
    obtain ⟨n, behind⟩ := result
    obtain ⟨text, rfl, inert, reads⟩ := code?_text number
    cases char : charOfCode? n with
    | none => simp [number, char] at read
    | some d =>
      simp only [number, char, Except.ok.injEq, Prod.mk.injEq] at read
      obtain ⟨rfl, rfl⟩ := read
      exact ⟨text, rfl, inert, fun tail => by simp [readCode, reads, char]⟩

theorem readEscape_text {inClass : Bool} {escape : Escape}
    (read : readEscape inClass rest = .ok (escape, rest')) (noNumber : ∀ n, escape ≠ .back n) :
    ∃ c text, rest = c :: text ++ rest' ∧ Inert text ∧
      ∀ tail, readEscape inClass (c :: text ++ tail) = .ok (escape, tail) := by
  cases rest with
  | nil => simp [readEscape] at read
  | cons c rest =>
    have alone (same : rest = rest')
        (reads : ∀ tail, readEscape inClass (c :: tail) = .ok (escape, tail)) :
        ∃ c' text, c :: rest = c' :: text ++ rest' ∧ Inert text ∧
          ∀ tail, readEscape inClass (c' :: text ++ tail) = .ok (escape, tail) :=
      ⟨c, [], by rw [same]; rfl, by simp [Inert], reads⟩
    rw [readEscape] at read
    split at read
    · cases read
      exact absurd rfl (noNumber _)
    · rename_i noDigit
      split at read
      · rename_i sign
        cases read
        exact alone rfl fun tail => by rw [readEscape, if_neg noDigit, if_pos sign]
      · rename_i letter
        cases known : letterEscape? inClass c with
        | some escape' =>
          rw [known] at read
          cases read
          exact alone rfl fun tail => by rw [readEscape, if_neg noDigit, if_neg letter, known]
        | none =>
          cases digits : codeLetter? c with
          | none => simp [known, digits] at read
          | some n =>
            cases code : readCode n rest with
            | error problem => simp [known, digits, code, bind, Except.bind] at read
            | ok result =>
              obtain ⟨d, behind⟩ := result
              simp only [known, digits, code, bind, Except.bind, pure, Except.pure, Except.ok.injEq,
                Prod.mk.injEq] at read
              obtain ⟨rfl, rfl⟩ := read
              obtain ⟨text, rfl, inert, reads⟩ := readCode_text code
              refine ⟨c, text, rfl, inert, fun tail => ?_⟩
              rw [List.cons_append, readEscape, if_neg noDigit, if_neg letter, known, digits]
              simp only [reads, bind, Except.bind]
              rfl

end Escapes

section Classes

inductive ClassText : List ClassPart → List Char → Prop where
  | nil : ClassText [] []
  | plain {c : Char} {parts : List ClassPart} {text : List Char} (noEscape : c ≠ '\\') :
    ClassText parts text → ClassText (.plain c :: parts) (c :: text)
  | escaped {part : ClassPart} {parts : List ClassPart} {text more : List Char} (c : Char)
      (given : ∀ d, part ≠ .plain d) (inert : Inert more) :
    ClassText parts text → ClassText (part :: parts) ('\\' :: c :: more ++ text)

theorem classParts_escape (fuel nest : Nat) (rest : List Char) :
    classParts (fuel + 1) nest ('\\' :: rest) = (do
      let (escape, rest) ← readEscape true rest
      let part ← escape.classPart
      let (parts, rest) ← classParts fuel nest rest
      return (part :: parts, rest)) := rfl

theorem classParts_plain (fuel nest : Nat) {c : Char} (noEscape : c ≠ '\\') (rest : List Char) :
    classParts (fuel + 1) nest (c :: rest) =
      if c = ']' && nest = 1 then .ok ([.plain c], rest)
      else do
        let (parts, rest) ← classParts fuel (nestBehind nest c) rest
        return (.plain c :: parts, rest) := by
  rw [classParts]
  exact noEscape

theorem classPart_ok {escape : Escape} {part : ClassPart} (is : escape.classPart = .ok part) :
    (∀ n, escape ≠ .back n) ∧ ∀ d, part ≠ .plain d := by
  cases escape <;> cases is <;> simp

theorem classParts_text {fuel nest : Nat} {cs rest : List Char} {parts : List ClassPart}
    (read : classParts fuel nest cs = .ok (parts, rest)) :
    ∃ text, cs = text ++ rest ∧ text ≠ [] ∧ ClassText parts text ∧
      ∀ room tail, text.length < room → classParts room nest (text ++ tail) = .ok (parts, tail) := by
  induction fuel generalizing nest cs parts with
  | zero => simp [classParts] at read
  | succ fuel ih =>
    cases cs with
    | nil => simp [classParts] at read
    | cons c inside =>
      by_cases escapes : c = '\\'
      · subst escapes
        rw [classParts_escape, bind_eq_ok] at read
        obtain ⟨⟨escape, behind⟩, escaped, read⟩ := read
        obtain ⟨part, is, read⟩ := bind_eq_ok.1 read
        obtain ⟨⟨later, rest'⟩, more, same⟩ := bind_eq_ok.1 read
        cases same
        obtain ⟨noNumber, given⟩ := classPart_ok is
        obtain ⟨d, taken, rfl, inert, reads⟩ := readEscape_text escaped noNumber
        obtain ⟨text, rfl, -, written, reads'⟩ := ih more
        refine ⟨'\\' :: d :: taken ++ text, by simp, by simp, .escaped d given inert written,
          fun room tail enough => ?_⟩
        obtain ⟨room, rfl⟩ := Nat.exists_eq_add_of_le' (Nat.zero_lt_of_lt enough)
        have less : text.length < room := by
          simp only [List.length_append, List.length_cons] at enough
          omega
        rw [List.append_assoc]
        exact bind_eq_ok.2 ⟨(escape, text ++ tail), reads (text ++ tail), bind_eq_ok.2 ⟨part, is,
          bind_eq_ok.2 ⟨(later, tail), reads' room tail less, rfl⟩⟩⟩
      · rw [classParts_plain _ _ escapes] at read
        split at read
        · rename_i last
          cases read
          refine ⟨[c], rfl, by simp, .plain escapes .nil, fun room tail enough => ?_⟩
          obtain ⟨room, rfl⟩ := Nat.exists_eq_add_of_le' (Nat.zero_lt_of_lt enough)
          rw [List.singleton_append, classParts_plain _ _ escapes, if_pos last]
        · rename_i notLast
          obtain ⟨⟨later, rest'⟩, more, same⟩ := bind_eq_ok.1 read
          cases same
          obtain ⟨text, rfl, -, written, reads⟩ := ih more
          refine ⟨c :: text, rfl, by simp, .plain escapes written, fun room tail enough => ?_⟩
          obtain ⟨room, rfl⟩ := Nat.exists_eq_add_of_le' (Nat.zero_lt_of_lt enough)
          have less : text.length < room := by
            rw [List.length_cons] at enough
            omega
          rw [List.cons_append, classParts_plain _ _ escapes, if_neg notLast]
          exact bind_eq_ok.2 ⟨(later, tail), reads room tail less, rfl⟩

theorem cutLead_cases (lead : Char) (cs : List Char) :
    (∃ rest, cs = lead :: rest ∧ cutLead lead cs = ([.plain lead], rest)) ∨
      (cs.head? ≠ some lead ∧ cutLead lead cs = ([], cs)) := by
  cases cs with
  | nil => exact .inr ⟨by simp, rfl⟩
  | cons c rest =>
    by_cases same : c = lead
    · exact .inl ⟨rest, by rw [same], by simp [cutLead, same]⟩
    · exact .inr ⟨by simpa using same, by simp [cutLead, same]⟩

theorem cutLead_text {lead : Char} (noEscape : lead ≠ '\\') {cs : List Char}
    {parts : List ClassPart} {text rest : List Char} (split : (cutLead lead cs).2 = text ++ rest)
    (some : text ≠ []) (written : ClassText parts text) :
    ∃ whole, cs = whole ++ rest ∧ whole ≠ [] ∧ ClassText ((cutLead lead cs).1 ++ parts) whole ∧
      ∀ tail, cutLead lead (whole ++ tail) = ((cutLead lead cs).1, text ++ tail) := by
  rcases cutLead_cases lead cs with ⟨behind, rfl, is⟩ | ⟨other, is⟩
  · rw [is] at split ⊢
    dsimp only at split
    subst split
    refine ⟨lead :: text, rfl, by simp, .plain noEscape written, fun tail => by simp [cutLead]⟩
  · rw [is] at split ⊢
    dsimp only at split
    subst split
    refine ⟨text, rfl, some, written, fun tail => ?_⟩
    rcases cutLead_cases lead (text ++ tail) with ⟨behind, same, -⟩ | ⟨-, is'⟩
    · cases text with
      | nil => exact absurd rfl some
      | cons c text =>
        cases same
        exact absurd rfl other
    · exact is'

theorem cutClass_eq (cs : List Char) :
    cutClass cs =
      (classParts ((cutLead ']' (cutLead '^' cs).2).2.length + 1) 1
        (cutLead ']' (cutLead '^' cs).2).2).map fun read =>
          ((cutLead '^' cs).1 ++ ((cutLead ']' (cutLead '^' cs).2).1 ++ read.1), read.2) := by
  simp only [← List.append_assoc]
  rfl

theorem cutClass_text {cs rest : List Char} {parts : List ClassPart}
    (cut : cutClass cs = .ok (parts, rest)) :
    ∃ text, cs = text ++ rest ∧ ClassText parts text ∧
      ∀ tail, cutClass (text ++ tail) = .ok (parts, tail) := by
  rw [cutClass_eq, map_eq_ok] at cut
  obtain ⟨⟨later, rest'⟩, read, same⟩ := cut
  cases same
  obtain ⟨text, split, some, written, reads⟩ := classParts_text read
  obtain ⟨text', split', some', written', leads'⟩ := cutLead_text (by decide) split some written
  obtain ⟨whole, split'', -, written'', leads''⟩ := cutLead_text (by decide) split' some' written'
  refine ⟨whole, split'', written'', fun tail => ?_⟩
  rw [cutClass_eq, leads'', leads', map_eq_ok]
  exact ⟨(later, tail), reads _ tail (by rw [List.length_append]; omega), rfl⟩

end Classes

end ScopeGrammar.Regex
