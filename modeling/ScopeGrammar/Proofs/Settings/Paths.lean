import ScopeGrammar.Proofs.Text.Lines
import ScopeGrammar.Settings.KeyPath

set_option autoImplicit false

namespace ScopeGrammar.Settings

def isDotted (key : String) : Bool :=
  (Text.splitAt '.' key.toList).all fun name => name ≠ [] && name.all isKeyLetter

def keyNames (key : String) : List String :=
  (Text.splitAt '.' (foldKey key).toList).map String.ofList

def pathOf : List String → KeyPath
  | [] => ⟨"", []⟩
  | root :: names => ⟨root, names.map .field⟩

theorem toLower_eq_dot {c : Char} : c.toLower = '.' ↔ c = '.' := by
  delta Char.toLower
  rw [Char.ext_iff, Char.ext_iff]
  split <;> grind

section Names

variable {cs rest : List Char}

theorem dot_not_mem_toLower (without : '.' ∉ cs) : '.' ∉ cs.map Char.toLower := by
  simpa [List.mem_map, toLower_eq_dot] using without

theorem keyNames_of_not_mem (without : '.' ∉ cs) :
    keyNames (String.ofList cs) = [foldKey (String.ofList cs)] := by
  simp [keyNames, foldKey, Text.splitAt_of_not_mem (dot_not_mem_toLower without)]

theorem keyNames_append (without : '.' ∉ cs) (rest : List Char) :
    keyNames (String.ofList (cs ++ '.' :: rest)) =
      foldKey (String.ofList cs) :: keyNames (String.ofList rest) := by
  have dot : Char.toLower '.' = '.' := rfl
  simp [keyNames, foldKey, dot, Text.splitAt_append (dot_not_mem_toLower without)]

theorem letters_of_dotted (without : '.' ∉ cs) (dotted : isDotted (String.ofList cs) = true) :
    cs ≠ [] ∧ ∀ c ∈ cs, isKeyLetter c = true := by
  simpa [isDotted, Text.splitAt_of_not_mem without] using dotted

theorem letters_of_dotted_append (without : '.' ∉ cs)
    (dotted : isDotted (String.ofList (cs ++ '.' :: rest)) = true) :
    (cs ≠ [] ∧ ∀ c ∈ cs, isKeyLetter c = true) ∧
      isDotted (String.ofList rest) = true := by
  simpa [isDotted, Text.splitAt_append without] using dotted

theorem readKey_append (letters : cs ≠ [] ∧ ∀ c ∈ cs, isKeyLetter c = true) (rest : List Char)
    (stops : ∀ c ∈ rest.head?, isKeyLetter c = false) :
    readKey (cs ++ rest) = some (foldKey (String.ofList cs), rest) := by
  obtain ⟨taken, dropped⟩ := Text.span_append letters.2 rest stops
  rw [readKey, taken, dropped]
  cases cs with
  | nil => exact absurd rfl letters.1
  | cons c cs => rfl

theorem readSteps_dotted (dotted : isDotted (String.ofList cs) = true) {fuel : Nat}
    (enough : cs.length < fuel) :
    readSteps fuel ('.' :: cs) = some ((keyNames (String.ofList cs)).map .field) := by
  induction cs using Text.splitAt_induction '.' generalizing fuel with
  | last cs without =>
    obtain ⟨fuel, rfl⟩ := Nat.exists_eq_add_one_of_ne_zero (Nat.ne_of_gt (Nat.zero_lt_of_lt enough))
    have first := readKey_append (letters_of_dotted without dotted) [] (by simp)
    rw [List.append_nil] at first
    simp [readSteps, first, keyNames_of_not_mem without]
  | cons piece rest without ih =>
    obtain ⟨fuel, rfl⟩ := Nat.exists_eq_add_one_of_ne_zero (Nat.ne_of_gt (Nat.zero_lt_of_lt enough))
    obtain ⟨letters, dotted⟩ := letters_of_dotted_append without dotted
    have first := readKey_append letters ('.' :: rest) (by simp; rfl)
    have shorter : rest.length < fuel := by
      rw [List.length_append, List.length_cons] at enough
      omega
    have further := ih dotted shorter
    rw [keyNames_append without]
    simp [readSteps, first, further]

end Names

/-- A dotted key is read as the path of its names. -/
theorem read_dotted {key : String} (dotted : isDotted key = true) :
    KeyPath.read key.toList = some (pathOf (keyNames key)) := by
  rw [← String.ofList_toList (s := key)] at dotted ⊢
  generalize key.toList = cs at dotted ⊢
  rw [String.toList_ofList]
  rcases Text.exists_piece '.' cs with without | ⟨piece, rest, rfl, without⟩
  · have first := readKey_append (letters_of_dotted without dotted) [] (by simp)
    rw [List.append_nil] at first
    simp [KeyPath.read, first, readSteps, keyNames_of_not_mem without, pathOf]
  · obtain ⟨letters, dotted⟩ := letters_of_dotted_append without dotted
    have first := readKey_append letters ('.' :: rest) (by simp; rfl)
    have further := readSteps_dotted dotted (Nat.lt_succ_self rest.length)
    rw [keyNames_append without]
    simp [KeyPath.read, first, further, pathOf]

theorem join_fields (cs : List Char) :
    String.join (((keyNames (String.ofList cs)).map .field).map Step.text) =
      "." ++ foldKey (String.ofList cs) := by
  induction cs using Text.splitAt_induction '.' with
  | last cs without => simp [keyNames_of_not_mem without, Step.text]
  | cons piece rest without ih =>
    rw [keyNames_append without, List.map_cons, List.map_cons, String.join_cons, ih]
    simp [Step.text, foldKey, String.append_assoc]

theorem text_pathOf (key : String) : (pathOf (keyNames key)).text = foldKey key := by
  rw [← String.ofList_toList (s := key)]
  generalize key.toList = cs
  rcases Text.exists_piece '.' cs with without | ⟨piece, rest, rfl, without⟩
  · simp [keyNames_of_not_mem without, pathOf, KeyPath.text]
  · rw [keyNames_append without, pathOf, KeyPath.text, join_fields]
    simp [foldKey]

end ScopeGrammar.Settings
