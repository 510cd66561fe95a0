import Mathlib.Data.List.Induction
import ScopeGrammar.Json.Document
import ScopeGrammar.Proofs.Result
import ScopeGrammar.Proofs.Text.Lines

set_option autoImplicit false

namespace ScopeGrammar.Json

/-- A value may end before a blank, a comma or a closing bracket, and with the text. -/
def Ends (rest : List Char) : Prop :=
  ∀ c, rest.head? = some c → isBlank c = true ∨ c ∈ [',', ']', '\x7d']

structure IsDigits (digits : List Char) : Prop where
  some : digits ≠ []
  all : ∀ c ∈ digits, isDigit c = true

/-- A zero alone, or digits that do not begin with zero. -/
structure IsWhole (digits : List Char) : Prop extends IsDigits digits where
  zero : ∀ more, digits = '0' :: more → more = []

inductive IsFraction : Option (List Char) → List Char → Prop
  | none : IsFraction none []
  | some {digits : List Char} (is : IsDigits digits) : IsFraction (some digits) ('.' :: digits)

/-- What an exponent may have in front of its digits: a minus sign, or nothing that says more. -/
inductive IsSign : Bool → List Char → Prop
  | minus : IsSign true ['-']
  | plus : IsSign false ['+']
  | none : IsSign false []

inductive IsExponent : Option (Bool × List Char) → List Char → Prop
  | none : IsExponent none []
  | some {mark : Char} {minus : Bool} {sign digits : List Char} (letter : mark = 'e' ∨ mark = 'E')
      (before : IsSign minus sign) (is : IsDigits digits) :
      IsExponent (some (minus, digits)) (mark :: (sign ++ digits))

/-- The texts of a number. -/
inductive Number.IsWritten : Number → List Char → Prop
  | parts (negative : Bool) {whole f e : List Char} {fraction : Option (List Char)}
      {exponent : Option (Bool × List Char)} (first : IsWhole whole) (second : IsFraction fraction f)
      (third : IsExponent exponent e) :
      IsWritten ⟨negative, whole, fraction, exponent⟩
        ((if negative then ['-'] else []) ++ (whole ++ (f ++ e)))

section Digits

variable {cs digits rest : List Char}

theorem readDigits_append (is : IsDigits digits)
    (stops : ∀ c, rest.head? = some c → isDigit c = false) :
    readDigits (digits ++ rest) = .ok (digits, rest) := by
  obtain ⟨taken, dropped⟩ := Text.span_append is.all rest stops
  have some := is.some
  rw [readDigits, taken, dropped]
  split <;> simp_all

theorem isDigits_of_readDigits (read : readDigits cs = .ok (digits, rest)) :
    IsDigits digits ∧ cs = digits ++ rest := by
  obtain ⟨parts, all⟩ := Text.split_span isDigit cs
  rw [readDigits] at read
  split at read
  · cases read
  · cases read
  · rename_i empty open'
    cases read
    refine ⟨⟨fun none => ?_, all⟩, parts⟩
    cases behind : cs.dropWhile isDigit with
    | nil => exact empty none behind
    | cons c rest => exact open' c rest none behind

theorem readWhole_append (is : IsWhole digits)
    (stops : ∀ c, rest.head? = some c → isDigit c = false) :
    readWhole (digits ++ rest) = .ok (digits, rest) := by
  rw [readWhole, readDigits_append is.toIsDigits stops]
  simp only [bind, Except.bind]
  split
  · have alone := is.zero _ rfl
    cases alone
  · rfl

theorem isWhole_of_readWhole (read : readWhole cs = .ok (digits, rest)) :
    IsWhole digits ∧ cs = digits ++ rest := by
  obtain ⟨⟨digits', rest'⟩, first, kept⟩ := bind_eq_ok.1 read
  obtain ⟨is, same⟩ := isDigits_of_readDigits first
  dsimp only at kept
  split at kept
  · cases kept
  · rename_i alone
    cases kept
    refine ⟨⟨is, fun more begins => ?_⟩, same⟩
    cases more with
    | nil => rfl
    | cons c more => exact absurd begins (alone c more)

end Digits

theorem Ends.head {rest : List Char} (ends : Ends rest) {c : Char} (head : rest.head? = some c) :
    isDigit c = false ∧ c ≠ '.' ∧ c ≠ 'e' ∧ c ≠ 'E' := by
  rcases ends c head with blank | closing
  · simp only [isBlank, Bool.or_eq_true, beq_iff_eq] at blank
    rcases blank with ((rfl | rfl) | rfl) | rfl <;> decide
  · simp only [List.mem_cons, List.not_mem_nil, or_false] at closing
    rcases closing with rfl | rfl | rfl <;> decide

def readSign : List Char → Bool × List Char
  | '-' :: rest => (true, rest)
  | cs => (false, cs)

def readFraction : List Char → Except Fault (Option (List Char) × List Char)
  | '.' :: rest => do
    let (digits, rest) ← readDigits rest
    .ok (some digits, rest)
  | cs => .ok (none, cs)

def readExponent : List Char → Except Fault (Option (Bool × List Char) × List Char)
  | c :: rest =>
    if c = 'e' || c = 'E' then do
      let (minus, rest) := match rest with
        | '-' :: rest => (true, rest)
        | '+' :: rest => (false, rest)
        | rest => (false, rest)
      let (digits, rest) ← readDigits rest
      .ok (some (minus, digits), rest)
    else .ok (none, c :: rest)
  | [] => .ok (none, [])

def readUnsigned (negative : Bool) (cs : List Char) : Except Fault (Number × List Char) := do
  let (whole, cs) ← readWhole cs
  let (fraction, cs) ← readFraction cs
  let (exponent, cs) ← readExponent cs
  return (⟨negative, whole, fraction, exponent⟩, cs)

theorem readFraction_other {cs : List Char} (other : ∀ rest, cs ≠ '.' :: rest) :
    readFraction cs = .ok (none, cs) := by
  unfold readFraction
  split
  · exact absurd rfl (other _)
  · rfl

theorem readNumber_eq (cs : List Char) :
    readNumber cs = readUnsigned (readSign cs).1 (readSign cs).2 := by
  unfold readNumber
  split
  rename_i negative rest sign
  rw [show readSign cs = (negative, rest) from sign]
  dsimp only [readUnsigned]
  refine congrArg _ (funext fun read => ?_)
  obtain ⟨whole, cs⟩ := read
  dsimp only
  split
  · rename_i behind
    rw [readFraction]
    cases readDigits behind with
    | error fault => rfl
    | ok read =>
      obtain ⟨digits, cs⟩ := read
      simp only [bind, Except.bind]
      split
      · simp only [readExponent]
        split
        · cases readDigits _ <;> rfl
        · rfl
      · rfl
  · rename_i other
    rw [readFraction_other other]
    simp only [bind, Except.bind]
    split
    · simp only [readExponent]
      split
      · cases readDigits _ <;> rfl
      · rfl
    · rfl

section Parts

variable {cs text rest : List Char} {fraction : Option (List Char)}
  {exponent : Option (Bool × List Char)}

theorem readFraction_append (is : IsFraction fraction text)
    (stops : ∀ c, rest.head? = some c → isDigit c = false ∧ c ≠ '.') :
    readFraction (text ++ rest) = .ok (fraction, rest) := by
  cases is with
  | none => exact readFraction_other fun more same =>
      (stops '.' (by rw [← List.nil_append rest, same]; rfl)).2 rfl
  | some is =>
    rw [List.cons_append, readFraction, readDigits_append is fun c head => (stops c head).1]
    rfl

theorem isFraction_of_readFraction (read : readFraction cs = .ok (fraction, rest)) :
    ∃ text, IsFraction fraction text ∧ cs = text ++ rest := by
  unfold readFraction at read
  split at read
  · obtain ⟨⟨digits, behind⟩, first, kept⟩ := bind_eq_ok.1 read
    obtain ⟨is, rfl⟩ := isDigits_of_readDigits first
    cases kept
    exact ⟨_, .some is, rfl⟩
  · cases read
    exact ⟨[], .none, rfl⟩

theorem readExponent_append (is : IsExponent exponent text) (ends : Ends rest) :
    readExponent (text ++ rest) = .ok (exponent, rest) := by
  cases is with
  | none =>
    cases rest with
    | nil => rfl
    | cons c rest =>
      obtain ⟨-, -, small, large⟩ := ends.head rfl
      simp [readExponent, small, large]
  | @some mark minus sign digits letter before is =>
    have read := readDigits_append is fun c head => (ends.head head).1
    have letter : (decide (mark = 'e') || decide (mark = 'E')) = true := by simpa using letter
    rw [List.cons_append, List.append_assoc]
    cases before with
    | minus | plus =>
      rw [List.singleton_append, readExponent, if_pos letter, read]
      rfl
    | none =>
      have unsigned : ∀ more, digits ++ rest ≠ '-' :: more ∧ digits ++ rest ≠ '+' :: more := by
        obtain ⟨d, digits, rfl⟩ := List.exists_cons_of_ne_nil is.some
        have digit : isDigit d = true := is.all d (by simp)
        intro more
        constructor <;> intro same <;> cases same <;> cases digit
      rw [List.nil_append, readExponent, if_pos letter, read]
      · rfl
      · exact fun more => (unsigned more).1
      · exact fun more => (unsigned more).2

theorem isExponent_of_readExponent (read : readExponent cs = .ok (exponent, rest)) :
    ∃ text, IsExponent exponent text ∧ cs = text ++ rest := by
  unfold readExponent at read
  split at read
  · rename_i c behind
    split at read
    · rename_i mark
      have letter : c = 'e' ∨ c = 'E' := by simpa using mark
      split at read
      rename_i minus behind sign
      obtain ⟨⟨digits, behind⟩, first, kept⟩ := bind_eq_ok.1 read
      obtain ⟨is, rfl⟩ := isDigits_of_readDigits first
      cases kept
      split at sign <;> cases sign
      · exact ⟨_, .some letter .minus is, rfl⟩
      · exact ⟨_, .some letter .plus is, rfl⟩
      · exact ⟨_, .some letter .none is, rfl⟩
    · cases read
      exact ⟨[], .none, rfl⟩
  · cases read
    exact ⟨[], .none, rfl⟩

theorem exponent_head (is : IsExponent exponent text) (ends : Ends rest) {c : Char}
    (head : (text ++ rest).head? = some c) : isDigit c = false ∧ c ≠ '.' := by
  cases is with
  | none => exact ⟨(ends.head head).1, (ends.head head).2.1⟩
  | some letter before is =>
    cases head
    rcases letter with rfl | rfl <;> decide

theorem fraction_head (is : IsFraction fraction text)
    (stops : ∀ c, rest.head? = some c → isDigit c = false) {c : Char}
    (head : (text ++ rest).head? = some c) : isDigit c = false := by
  cases is with
  | none => exact stops c head
  | some is =>
    cases head
    rfl

end Parts

section Number

variable {cs text rest : List Char} {n : Number}

theorem readNumber_append (written : n.IsWritten text) (ends : Ends rest) :
    readNumber (text ++ rest) = .ok (n, rest) := by
  obtain ⟨negative, first, second, third⟩ := written
  rename_i whole f e fraction exponent
  have sign : readSign ((if negative then ['-'] else []) ++ (whole ++ (f ++ (e ++ rest)))) =
      (negative, whole ++ (f ++ (e ++ rest))) := by
    cases negative with
    | true => rfl
    | false =>
      obtain ⟨d, digits, rfl⟩ := List.exists_cons_of_ne_nil first.some
      have digit : isDigit d = true := first.all d (by simp)
      unfold readSign
      split
      · rename_i same
        cases same
        cases digit
      · rfl
  have behind {c : Char} : (e ++ rest).head? = some c → isDigit c = false ∧ c ≠ '.' :=
    exponent_head third ends
  have wholeRead := readWhole_append first fun c =>
    fraction_head second fun c head => (behind head).1
  have fractionRead := readFraction_append second fun c => behind
  have exponentRead := readExponent_append third ends
  simp only [List.append_assoc] at wholeRead ⊢
  rw [readNumber_eq, sign, readUnsigned, wholeRead]
  simp only [bind, Except.bind, fractionRead, exponentRead]
  rfl

theorem isWritten_of_readNumber (read : readNumber cs = .ok (n, rest)) :
    ∃ text, n.IsWritten text ∧ cs = text ++ rest := by
  rw [readNumber_eq, readUnsigned] at read
  obtain ⟨⟨whole, _⟩, wholeRead, read⟩ := bind_eq_ok.1 read
  obtain ⟨⟨fraction, _⟩, fractionRead, read⟩ := bind_eq_ok.1 read
  obtain ⟨⟨exponent, _⟩, exponentRead, read⟩ := bind_eq_ok.1 read
  cases read
  obtain ⟨first, wholeText⟩ := isWhole_of_readWhole wholeRead
  obtain ⟨f, second, rfl⟩ := isFraction_of_readFraction fractionRead
  obtain ⟨e, third, rfl⟩ := isExponent_of_readExponent exponentRead
  have sign : cs = (if (readSign cs).1 then ['-'] else []) ++ (readSign cs).2 := by
    unfold readSign
    split <;> rfl
  refine ⟨_, .parts (readSign cs).1 first second third, ?_⟩
  rw [List.append_assoc, List.append_assoc, List.append_assoc, ← wholeText]
  exact sign

end Number

section Index

theorem isDigit_eq (c : Char) : isDigit c = c.isDigit := by
  simp [isDigit, Char.isDigit, Char.le_def]

theorem toDigits_isDigit (n : Nat) : ∀ c ∈ Nat.toDigits 10 n, c.isDigit = true := fun _ member =>
  Nat.isDigit_of_mem_toDigits (by decide) (by decide) member

theorem digitsValue_toDigits (n : Nat) : digitsValue (Nat.toDigits 10 n) = n :=
  Nat.ofDigitChars_ten_toDigits

theorem digitChar_ne_zero : ∀ n < 10, 0 < n → Nat.digitChar n ≠ '0' := by decide

theorem toDigits_head (n : Nat) :
    Nat.toDigits 10 n = ['0'] ∨ ∃ c rest, Nat.toDigits 10 n = c :: rest ∧ c ≠ '0' := by
  induction n using Nat.strongRecOn with
  | _ n ih =>
    rcases Nat.lt_or_ge n 10 with small | large
    · rw [Nat.toDigits_of_lt_base small]
      rcases Nat.eq_zero_or_pos n with rfl | positive
      · exact .inl rfl
      · exact .inr ⟨_, [], rfl, digitChar_ne_zero n small positive⟩
    · rw [Nat.toDigits_of_base_le (by decide) large]
      rcases ih (n / 10) (by omega) with zero | ⟨c, rest, same, other⟩
      · have value := digitsValue_toDigits (n / 10)
        rw [zero] at value
        have : n / 10 = 0 := value.symm
        omega
      · exact .inr ⟨c, rest ++ [(n % 10).digitChar], by rw [same]; rfl, other⟩

theorem isWhole_toDigits (n : Nat) : IsWhole (Nat.toDigits 10 n) where
  some := Nat.toDigits_ne_nil
  all c member := isDigit_eq c ▸ toDigits_isDigit n c member
  zero more begins := by
    rcases toDigits_head n with same | ⟨c, rest, same, other⟩
    · rw [same] at begins
      exact (List.cons.inj begins).2.symm
    · rw [same] at begins
      exact absurd (List.cons.inj begins).1 other

theorem readNumber_toDigits (n : Nat) :
    readNumber (Nat.toDigits 10 n) = .ok (⟨false, Nat.toDigits 10 n, none, none⟩, []) := by
  have written := Number.IsWritten.parts false (isWhole_toDigits n) .none .none
  have ends : Ends [] := fun c none => by cases none
  simpa using readNumber_append written ends

theorem not_tooLarge {digits : List Char} (bits : digitsValue digits < 1 <<< 64) :
    (⟨false, digits, none, none⟩ : Number).tooLarge = false := by
  have bound : 1 <<< 64 ≤ 1 <<< 1024 - 1 <<< 970 := by decide +kernel
  have significand : (⟨false, digits, none, none⟩ : Number).significand = digitsValue digits := by
    simp [Number.significand]
  have scale : (⟨false, digits, none, none⟩ : Number).scale = 0 := rfl
  unfold Number.tooLarge
  generalize 1 <<< 1024 - 1 <<< 970 = least at bound ⊢
  have below : ¬least ≤ digitsValue digits := by omega
  simp [significand, scale, below]

theorem index_toDigits {n : Nat} (bits : n < 1 <<< 64) :
    Quoted.index ⟨Nat.toDigits 10 n, true⟩ = .ok n := by
  have value := digitsValue_toDigits n
  have small := not_tooLarge (value.symm ▸ bits)
  have significand : (⟨false, Nat.toDigits 10 n, none, none⟩ : Number).significand = n := by
    simp [Number.significand, value]
  have integer : (⟨false, Nat.toDigits 10 n, none, none⟩ : Number).isInteger = true := rfl
  have read := readNumber_toDigits n
  obtain ⟨c, rest, same⟩ := List.exists_cons_of_ne_nil (Nat.toDigits_ne_nil (n := n) (b := 10))
  have digit : isDigit c = true := isDigit_eq c ▸ toDigits_isDigit n c (by simp [same])
  have fits : decide (1 <<< 64 ≤ n) = false := decide_eq_false (Nat.not_le.2 bits)
  rw [same] at read small significand integer ⊢
  simp only [Quoted.index, digit, read, small, significand, integer, fits]
  rfl

theorem digitChar_digit {d : Char} (digit : isDigit d = true) :
    d.toNat - '0'.toNat < 10 ∧ Nat.digitChar (d.toNat - '0'.toNat) = d := by
  have range : '0'.toNat ≤ d.toNat ∧ d.toNat ≤ '9'.toNat := by
    simpa [isDigit, Char.le_def, UInt32.le_iff_toNat_le] using digit
  have small : d.toNat - '0'.toNat < 10 := by
    have : '9'.toNat = '0'.toNat + 9 := rfl
    omega
  refine ⟨small, Char.toNat_inj.1 ?_⟩
  have code : '0'.toNat = 48 := rfl
  rw [Nat.toNat_digitChar_of_lt_ten small]
  omega

theorem digitsValue_concat (digits : List Char) (d : Char) :
    digitsValue (digits ++ [d]) = 10 * digitsValue digits + (d.toNat - '0'.toNat) := by
  simp [digitsValue]

theorem toDigits_digitsValue {digits : List Char} (is : IsWhole digits) :
    Nat.toDigits 10 (digitsValue digits) = digits := by
  induction digits using List.reverseRecOn with
  | nil => exact absurd rfl is.some
  | append_singleton digits d ih =>
    obtain ⟨small, same⟩ := digitChar_digit (is.all d (by simp))
    rw [digitsValue_concat]
    cases digits with
    | nil =>
      have value : digitsValue [] = 0 := rfl
      rw [value, Nat.mul_zero, Nat.zero_add, Nat.toDigits_of_lt_base small, same]
      rfl
    | cons c digits =>
      have zero : c ≠ '0' := by
        rintro rfl
        have none := is.zero _ rfl
        simp at none
      have front : IsWhole (c :: digits) :=
        ⟨⟨List.cons_ne_nil c digits, fun c member => is.all c (List.mem_append_left _ member)⟩,
          fun more same => absurd (List.cons.inj same).1 zero⟩
      have earlier := ih front
      have positive : 0 < digitsValue (c :: digits) := by
        refine Nat.pos_of_ne_zero fun none => ?_
        rw [none] at earlier
        exact zero (List.cons.inj earlier).1.symm
      rw [← Nat.toDigits_append_toDigits (by decide) positive small, earlier,
        Nat.toDigits_of_lt_base small, same]

/-- A key that is read as a number is what is written for the number. -/
theorem index_eq_ok {q : Quoted} {k : Nat} (read : q.index = .ok k) :
    q = ⟨Nat.toDigits 10 k, true⟩ := by
  obtain ⟨body, closed⟩ := q
  unfold Quoted.index at read
  split at read
  · cases read
  split at read
  · cases read
  split at read
  · cases read
  · cases read
  rename_i n rest number
  obtain ⟨text, written, rfl⟩ := isWritten_of_readNumber number
  split at read
  · cases read
  split at read
  · cases read
  rename_i fits
  split at read
  · rename_i whole
    cases read
    obtain ⟨rfl, rfl⟩ : rest = [] ∧ closed = true := by simpa using whole
    obtain @⟨negative, digits, _, _, _, _, first, second, third⟩ := written
    cases negative with
    | true => simp at fits
    | false =>
      cases second with
      | some => simp [Number.isInteger] at fits
      | none =>
        cases third with
        | some => simp [Number.isInteger] at fits
        | none => simp [Number.significand, toDigits_digitsValue first]
  · cases read

end Index

end ScopeGrammar.Json
