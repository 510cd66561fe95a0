import ScopeGrammar.Proofs.Regex.Criteria
import ScopeGrammar.Scan.Line

set_option autoImplicit false

namespace ScopeGrammar.Scan

open Regex (Found Spares piece)

/-- Whether the name is not among the names of a scope. -/
def lacksName (name scope : String) : Bool :=
  !(Text.splitAt ' ' (Text.characters scope)).contains (Text.characters name)

def Unmarked (name : String) (scopes : List String) : Prop :=
  ∀ scope ∈ scopes, lacksName name scope = true

def Token.place (t : Token) : Nat × Nat × Nat × String := (t.line, t.start, t.stop, t.text)

variable {l : Line} {start stop : Nat} {scopes rules : List String} {name : String}

section Text

variable {p q : Nat} {bad : List Char}

theorem length_text (l : Line) : l.text.length = l.content.length + 1 := by simp [Line.text]

theorem text_getElem?_content : l.text[l.content.length]? = some '\n' := by simp [Line.text]

theorem lt_of_ne_newline {c : Char} (here : l.text[p]? = some c) (notEnd : c ≠ '\n') :
    p < l.content.length := by
  obtain ⟨inside, same⟩ := List.getElem?_eq_some_iff.1 here
  rcases Nat.lt_or_ge p l.content.length with lt | ge
  · exact lt
  · have last : p = l.content.length := by
      rw [length_text] at inside
      omega
    subst last
    rw [text_getElem?_content] at here
    exact absurd (Option.some.inj here).symm notEnd

theorem drop_text {front rest : List Char} (there : l.content.drop p = front ++ rest)
    (some : front ≠ []) :
    p + front.length ≤ l.content.length ∧ l.text.drop p = front ++ (rest ++ ['\n']) := by
  have more := List.length_pos_iff.2 some
  have size := congrArg List.length there
  rw [List.length_drop, List.length_append] at size
  have inside : p ≤ l.content.length := by omega
  refine ⟨by omega, ?_⟩
  rw [Line.text, List.drop_append_of_le_length inside, there, List.append_assoc]

theorem le_of_spares (feed : '\n' ∈ bad) (inside : p ≤ l.content.length)
    (spares : Spares l.text bad p q) : q ≤ l.content.length := by
  rcases Nat.lt_or_ge l.content.length q with lt | le
  · have member : '\n' ∈ piece l.text p q :=
      Regex.mem_piece.2 ⟨l.content.length, inside, lt, text_getElem?_content⟩
    exact absurd feed (spares _ member)
  · exact le

theorem length_le_byteSize (cs : List Char) : cs.length ≤ byteSize cs := by
  induction cs with
  | nil => simp
  | cons c rest ih =>
    have pos := c.utf8Size_pos
    simp only [byteSize, List.length_cons]
    omega

end Text

theorem hasScope_eq_false {t : Token} (unmarked : Unmarked name t.scopes) :
    t.hasScope name = false := by
  rw [Token.hasScope, List.any_eq_false]
  intro scope member
  have lacks := unmarked scope member
  rw [lacksName, Text.characters_eq, Text.characters_eq, Bool.not_eq_true'] at lacks
  exact Bool.eq_false_iff.1 lacks

theorem hasScope_of_mem {t : Token} {name : String} (has : lacksName name name = false)
    (member : name ∈ t.scopes) : t.hasScope name = true := by
  rw [Token.hasScope, List.any_eq_true]
  refine ⟨name, member, ?_⟩
  rw [lacksName, Text.characters_eq, Bool.not_eq_false'] at has
  exact has

theorem hasScope_of_last {t : Token} {scopes : List String} {name : String}
    (has : lacksName name name = false) (last : t.scopes = scopes ++ [name]) :
    t.hasScope name = true :=
  hasScope_of_mem has (by simp [last])

theorem unmarked_append {more : List String} (unmarked : Unmarked name scopes)
    (unmarked' : Unmarked name more) : Unmarked name (scopes ++ more) := by
  intro scope member
  exact (List.mem_append.1 member).elim (unmarked scope) (unmarked' scope)

theorem filter_unmarked {tokens : List Token} (unmarked : ∀ t ∈ tokens, Unmarked name t.scopes) :
    tokens.filter (·.hasScope name) = [] := by
  rw [List.filter_eq_nil_iff]
  intro t member
  simp [hasScope_eq_false (unmarked t member)]

theorem eq_of_mem_piece {t : Token} (member : t ∈ l.piece start stop scopes rules) :
    start < stop ∧
      t = ⟨l.number, byteSize (l.text.take start),
        byteSize (l.text.take start) + byteSize (piece l.text start stop),
        String.ofList (piece l.text start stop), scopes, rules⟩ := by
  rw [Line.piece] at member
  split at member
  · rename_i forward
    exact ⟨forward, List.mem_singleton.1 member⟩
  · simp at member

theorem piece_scopes {t : Token} (member : t ∈ l.piece start stop scopes rules) :
    t.scopes = scopes := by
  rw [(eq_of_mem_piece member).2]

theorem piece_rules {t : Token} (member : t ∈ l.piece start stop scopes rules) :
    t.rules = rules := by
  rw [(eq_of_mem_piece member).2]

theorem piece_line {t : Token} (member : t ∈ l.piece start stop scopes rules) :
    t.line = l.number := by
  rw [(eq_of_mem_piece member).2]

theorem clipped_scopes {t : Token} (member : t ∈ l.clipped start stop scopes rules) :
    t.scopes = scopes := piece_scopes member

theorem clipped_self (l : Line) (p : Nat) (scopes rules : List String) :
    l.clipped p p scopes rules = [] := by
  rw [Line.clipped, Line.piece]
  exact if_neg (Nat.not_lt_of_le (Nat.min_le_left ..))

/-- A token of a match is of a tagged group, or of the whole match where that has no tag. -/
theorem mem_captured {captures : Captures} {whole : Bool} {found : Found} {t : Token}
    (member : t ∈ l.captured captures whole scopes rules found) :
    (∃ index span tag, (some found.whole :: found.groups)[index]? = some (some span) ∧
      captures.get? index = some tag ∧ t ∈ l.piece span.start span.stop (scopes ++ [tag]) rules) ∨
    ((whole || captures.isEmpty) = true ∧
      t ∈ l.clipped found.whole.start found.whole.stop scopes rules) := by
  simp only [Line.captured, List.mem_flatMap] at member
  obtain ⟨⟨group, index⟩, numbered, there⟩ := member
  have at' := List.mem_zipIdx_iff_getElem?.1 numbered
  simp only at there at'
  split at there
  · simp at there
  · rename_i span tag held
    exact .inl ⟨index, span, tag, at', held, there⟩
  · rename_i span untagged
    split at there
    · rename_i asked
      simp only [Bool.and_eq_true, decide_eq_true_eq] at asked
      obtain ⟨rfl, asked⟩ := asked
      cases at'
      exact .inr ⟨asked, there⟩
    · simp at there

theorem captured_rules {captures : Captures} {whole : Bool} {found : Found} {t : Token}
    (member : t ∈ l.captured captures whole scopes rules found) : t.rules = rules := by
  rcases mem_captured member with ⟨_, _, _, _, _, there⟩ | ⟨_, there⟩
  · exact piece_rules there
  · exact piece_rules there

theorem captured_line {captures : Captures} {whole : Bool} {found : Found} {t : Token}
    (member : t ∈ l.captured captures whole scopes rules found) : t.line = l.number := by
  rcases mem_captured member with ⟨_, _, _, _, _, there⟩ | ⟨_, there⟩
  · exact piece_line there
  · exact piece_line there

theorem captured_scopes {captures : Captures} {whole : Bool} {found : Found} {t : Token}
    (member : t ∈ l.captured captures whole scopes rules found) :
    t.scopes = scopes ∨ ∃ tag ∈ captures.entries.map (·.2), t.scopes = scopes ++ [tag] := by
  rcases mem_captured member with ⟨_, _, tag, _, held, there⟩ | ⟨_, there⟩
  · have listed := List.mem_map_of_mem (f := (·.2)) (Table.mem_entries_of_get? held)
    exact .inr ⟨tag, listed, piece_scopes there⟩
  · exact .inl (clipped_scopes there)

theorem captured_unmarked {captures : Captures} {whole : Bool} {found : Found}
    (unmarked : Unmarked name scopes) (tags : Unmarked name (captures.entries.map (·.2))) :
    ∀ t ∈ l.captured captures whole scopes rules found, Unmarked name t.scopes := by
  intro t member
  rcases captured_scopes member with same | ⟨tag, among, same⟩
  · rw [same]
    exact unmarked
  · rw [same]
    refine unmarked_append unmarked fun scope member => ?_
    rw [List.mem_singleton] at member
    exact member ▸ tags tag among

theorem captured_of_isEmpty {captures : Captures} (empty : captures.isEmpty = true) {whole : Bool}
    {found : Found} :
    l.captured captures whole scopes rules found =
      l.clipped found.whole.start found.whole.stop scopes rules := by
  have none (i : Nat) : captures.get? i = none := by
    rw [Table.get?, List.isEmpty_iff.1 empty]
    rfl
  have later : ∀ x ∈ found.groups.zipIdx 1, x.2 ≠ 0 := by
    rintro ⟨span, i⟩ member
    have ge := List.le_snd_of_mem_zipIdx member
    simp only at ge ⊢
    omega
  simp only [Line.captured, List.zipIdx_cons, List.flatMap_cons, none, empty, Bool.or_true,
    Bool.and_true, decide_true, if_true, Nat.zero_add]
  rw [List.flatMap_eq_nil_iff.2, List.append_nil]
  rintro ⟨span, i⟩ member
  have notZero := later _ member
  cases span <;> simp_all

theorem piece_of_drop {p : Nat} {front rest : List Char} (there : l.text.drop p = front ++ rest)
    (more : front ≠ []) :
    l.piece p (p + front.length) scopes rules =
      [⟨l.number, byteSize (l.text.take p), byteSize (l.text.take p) + byteSize front,
        String.ofList front, scopes, rules⟩] := by
  have same : (l.text.drop p).take (p + front.length - p) = front := by
    rw [there, Nat.add_sub_cancel_left, List.take_left]
  rw [Line.piece, if_pos (Nat.lt_add_of_pos_right (List.length_pos_iff.2 more))]
  simp only [same]

theorem piece_single {p : Nat} {c : Char} (here : l.text[p]? = some c) :
    l.piece p (p + 1) scopes rules =
      [⟨l.number, byteSize (l.text.take p), byteSize (l.text.take p) + c.utf8Size,
        String.ofList [c], scopes, rules⟩] := by
  obtain ⟨inside, same⟩ := List.getElem?_eq_some_iff.1 here
  have there : l.text.drop p = [c] ++ l.text.drop (p + 1) := by
    rw [List.drop_eq_getElem_cons inside, same]
    rfl
  simpa [byteSize] using piece_of_drop there (by simp)

theorem text_of_piece {p : Nat} {front rest : List Char} (there : l.text.drop p = front ++ rest)
    (scopes rules : List String) :
    String.join ((l.piece p (p + front.length) scopes rules).map (·.text)) = String.ofList front := by
  cases front with
  | nil =>
    rw [Line.piece, if_neg (by simp)]
    rfl
  | cons c front =>
    rw [piece_of_drop there (by simp)]
    simp [String.join]

end ScopeGrammar.Scan
