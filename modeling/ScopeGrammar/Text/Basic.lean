set_option autoImplicit false

namespace ScopeGrammar.Text

def bytes (s : String) : List UInt8 := s.toUTF8.data.toList

theorem bytes_eq (s : String) : bytes s = s.toList.flatMap String.utf8EncodeChar := by
  have encoded : s.toByteArray = s.toList.utf8Encode := by
    rw [← String.toByteArray_ofList, String.ofList_toList]
  rw [bytes, String.toUTF8, encoded, List.utf8Encode]
  simp

/-- The characters of a text. Where each byte is a character they are read off the bytes, which the
kernel does in far fewer steps than it decodes a text in. -/
def characters (s : String) : List Char :=
  if (bytes s).all (· < 0x80) then (bytes s).map fun b => Char.ofNat b.toNat else s.toList

theorem encodeChar_of_low {c : Char} (low : ∀ b ∈ String.utf8EncodeChar c, b < 0x80) :
    (String.utf8EncodeChar c).map (fun b => Char.ofNat b.toNat) = [c] := by
  have value : c.val.toNat = c.toNat := rfl
  unfold String.utf8EncodeChar at low ⊢
  dsimp only at low ⊢
  by_cases one : c.val.toNat ≤ 0x7f
  · have small : c.val.toNat % 256 = c.toNat := by omega
    simp only [one, if_true, List.map_cons, List.map_nil, UInt8.toNat_ofNat', Nat.reducePow, small,
      Char.ofNat_toNat]
  · -- The first of several bytes is not low.
    exfalso
    rw [if_neg one] at low
    repeat' split at low
    all_goals
      have first := low _ List.mem_cons_self
      simp only [UInt8.lt_iff_toNat_lt, UInt8.toNat_ofNat', UInt8.toNat_ofNat] at first
      omega

theorem encode_of_low {cs : List Char} (low : ∀ b ∈ cs.flatMap String.utf8EncodeChar, b < 0x80) :
    (cs.flatMap String.utf8EncodeChar).map (fun b => Char.ofNat b.toNat) = cs := by
  induction cs with
  | nil => rfl
  | cons c rest ih =>
    simp only [List.flatMap_cons, List.mem_append] at low
    rw [List.flatMap_cons, List.map_append, encodeChar_of_low fun b first => low b (.inl first),
      ih fun b later => low b (.inr later), List.singleton_append]

theorem characters_eq (s : String) : characters s = s.toList := by
  unfold characters
  split
  · rename_i low
    rw [bytes_eq] at low ⊢
    exact encode_of_low fun b member => of_decide_eq_true (List.all_eq_true.1 low b member)
  · rfl

/-- The pieces between the separators; there is one more of them than there are separators. -/
def splitAt (separator : Char) : List Char → List (List Char)
  | [] => [[]]
  | c :: rest =>
    if c = separator then [] :: splitAt separator rest
    else
      match splitAt separator rest with
      | [] => [[c]]
      | piece :: pieces => (c :: piece) :: pieces

theorem splitAt_ne_nil (separator : Char) (cs : List Char) : splitAt separator cs ≠ [] := by
  cases cs with
  | nil => simp [splitAt]
  | cons c rest =>
    simp only [splitAt]
    split
    · simp
    · split <;> simp

/-- The lines of a text without their ends, which are a line feed or a carriage return and a line
feed. Nothing behind the last line end is no line. -/
def lines (cs : List Char) : List (List Char) :=
  match (splitAt '\n' cs).reverse with
  | [] => []
  | last :: ended =>
    let lines := ended.reverse.map fun line =>
      if line.getLast? = some '\r' then line.dropLast else line
    if last = [] then lines else lines ++ [last]

end ScopeGrammar.Text
