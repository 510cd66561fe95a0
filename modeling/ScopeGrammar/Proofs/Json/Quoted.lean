import ScopeGrammar.Artifact.Json

set_option autoImplicit false

namespace ScopeGrammar.Json

def body (s : String) : List Char := s.toList.flatMap encodeChar

theorem encode_eq (s : String) : encode s = '"' :: body s ++ ['"'] := rfl

theorem hexDigit?_digitChar : ∀ n < 16, hexDigit? (Nat.digitChar n) = some n := by decide

theorem digitChar_plain : ∀ n < 16, Nat.digitChar n ≠ '"' ∧ Nat.digitChar n ≠ '\\' := by decide

theorem encodeChar_cases (c : Char) :
    (encodeChar c = [c] ∧ c ≠ '"' ∧ c ≠ '\\' ∧ 0x20 ≤ c.toNat) ∨
    (∃ letter, encodeChar c = ['\\', letter] ∧ escapeLetter? letter = some c ∧ letter ≠ 'u') ∨
    (encodeChar c =
        ['\\', 'u', '0', '0', Nat.digitChar (c.toNat / 16), Nat.digitChar (c.toNat % 16)] ∧
      c.toNat < 0x20) := by
  unfold encodeChar
  split
  · exact .inr (.inl ⟨'"', rfl, rfl, by decide⟩)
  · exact .inr (.inl ⟨'\\', rfl, rfl, by decide⟩)
  · exact .inr (.inl ⟨'b', rfl, rfl, by decide⟩)
  · exact .inr (.inl ⟨'t', rfl, rfl, by decide⟩)
  · exact .inr (.inl ⟨'n', rfl, rfl, by decide⟩)
  · exact .inr (.inl ⟨'f', rfl, rfl, by decide⟩)
  · exact .inr (.inl ⟨'r', rfl, rfl, by decide⟩)
  · rename_i quote backslash _ _ _ _ _
    split
    · rename_i control
      exact .inr (.inr ⟨rfl, control⟩)
    · rename_i visible
      exact .inl ⟨rfl, quote, backslash, Nat.le_of_not_lt visible⟩

section Cut

variable {rest : List Char}

theorem cutQuoted_plain {c : Char} (quote : c ≠ '"') (backslash : c ≠ '\\') :
    cutQuoted (c :: rest) =
      ({ (cutQuoted rest).1 with body := c :: (cutQuoted rest).1.body }, (cutQuoted rest).2) := by
  rw [cutQuoted.eq_def]
  split <;> simp_all

theorem cutQuoted_escape (c : Char) :
    cutQuoted ('\\' :: c :: rest) =
      ({ (cutQuoted rest).1 with body := '\\' :: c :: (cutQuoted rest).1.body },
        (cutQuoted rest).2) := by
  rw [cutQuoted]

theorem cutQuoted_encodeChar (c : Char) :
    cutQuoted (encodeChar c ++ rest) =
      ({ (cutQuoted rest).1 with body := encodeChar c ++ (cutQuoted rest).1.body },
        (cutQuoted rest).2) := by
  rcases encodeChar_cases c with ⟨same, quote, backslash, -⟩ | ⟨letter, same, -⟩ | ⟨same, control⟩
  · rw [same]
    exact cutQuoted_plain quote backslash
  · rw [same]
    exact cutQuoted_escape letter
  · have high := digitChar_plain (c.toNat / 16) (by omega)
    have low := digitChar_plain (c.toNat % 16) (by omega)
    simp [same, cutQuoted_escape, cutQuoted_plain, high, low]

theorem cutQuoted_body (cs rest : List Char) :
    cutQuoted (cs.flatMap encodeChar ++ '"' :: rest) = (⟨cs.flatMap encodeChar, true⟩, rest) := by
  induction cs with
  | nil => rfl
  | cons c cs ih => simp [cutQuoted_encodeChar, ih]

theorem cutQuoted_digits {digits : List Char} (all : ∀ c ∈ digits, c.isDigit = true)
    (rest : List Char) : cutQuoted (digits ++ '"' :: rest) = (⟨digits, true⟩, rest) := by
  induction digits with
  | nil => rfl
  | cons c digits ih =>
    have digit := all c (by simp)
    rw [List.cons_append, cutQuoted_plain (by rintro rfl; contradiction)
      (by rintro rfl; contradiction), ih fun d member => all d (List.mem_cons_of_mem _ member)]

end Cut

section Decode

variable {closed : Bool} {fuel : Nat} {rest : List Char}

theorem decodeBody_plain {c : Char} (backslash : c ≠ '\\') (visible : 0x20 ≤ c.toNat) :
    decodeBody closed (fuel + 1) (c :: rest) = do return c :: (← decodeBody closed fuel rest) := by
  rw [decodeBody] <;> simp_all [Nat.not_lt.2 visible]

theorem decodeBody_letter {letter c : Char} (stands : escapeLetter? letter = some c)
    (unicode : letter ≠ 'u') :
    decodeBody closed (fuel + 1) ('\\' :: letter :: rest) =
      do return c :: (← decodeBody closed fuel rest) := by
  rw [decodeBody] <;> simp_all

theorem decodeBody_control {n : Nat} (control : n < 0x20) :
    decodeBody closed (fuel + 1)
        ('\\' :: 'u' :: '0' :: '0' :: Nat.digitChar (n / 16) :: Nat.digitChar (n % 16) :: rest) =
      do return Char.ofNat n :: (← decodeBody closed fuel rest) := by
  have high := hexDigit?_digitChar (n / 16) (by omega)
  have low := hexDigit?_digitChar (n % 16) (by omega)
  have code : readUnit closed
      ('0' :: '0' :: Nat.digitChar (n / 16) :: Nat.digitChar (n % 16) :: rest) = .ok (n, rest) := by
    have zero : hexDigit? '0' = some 0 := by decide
    have value : n / 16 * 16 + n % 16 = n := by omega
    simp [readUnit, zero, high, low, value]
  have surrogate : ¬0xDC00 ≤ n ∧ ¬0xD800 ≤ n := by omega
  rw [decodeBody, code]
  simp [surrogate, bind, Except.bind]

theorem decodeBody_body (cs : List Char) (room : cs.length < fuel) :
    decodeBody true fuel (cs.flatMap encodeChar) = .ok cs := by
  induction cs generalizing fuel with
  | nil =>
    obtain ⟨fuel, rfl⟩ := Nat.exists_eq_add_of_lt room
    rfl
  | cons c cs ih =>
    obtain ⟨fuel, rfl⟩ : ∃ k, fuel = k + 1 := ⟨fuel - 1, by simp at room; omega⟩
    have shorter : cs.length < fuel := by simpa using room
    have rest := ih shorter
    rw [List.flatMap_cons]
    rcases encodeChar_cases c with ⟨same, quote, backslash, visible⟩ | ⟨letter, same, stands, unicode⟩ |
      ⟨same, control⟩
    · rw [same, List.singleton_append, decodeBody_plain backslash visible, rest]
      rfl
    · rw [same, List.cons_append, List.singleton_append, decodeBody_letter stands unicode, rest]
      rfl
    · rw [same]
      simp only [List.cons_append, List.nil_append]
      rw [decodeBody_control control, rest, Char.ofNat_toNat]
      rfl

theorem length_le_body (cs : List Char) : cs.length ≤ (cs.flatMap encodeChar).length := by
  induction cs with
  | nil => exact Nat.le_refl _
  | cons c cs ih =>
    have some : 1 ≤ (encodeChar c).length := by
      rcases encodeChar_cases c with ⟨same, -⟩ | ⟨letter, same, -⟩ | ⟨same, -⟩ <;> simp [same]
    simp only [List.flatMap_cons, List.length_cons, List.length_append]
    omega

theorem decode_body (s : String) : Quoted.decode ⟨body s, true⟩ = .ok s := by
  have room := Nat.lt_succ_of_le (length_le_body s.toList)
  rw [Quoted.decode, body, decodeBody_body s.toList room, Except.map, String.ofList_toList]

end Decode

end ScopeGrammar.Json
