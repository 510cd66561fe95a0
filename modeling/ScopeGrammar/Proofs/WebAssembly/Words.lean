import ScopeGrammar.Proofs.Text.Lines
import ScopeGrammar.Proofs.WebAssembly.Lexemes

set_option autoImplicit false

namespace ScopeGrammar.WebAssembly

open Scan Fragment
open Regex (Node CharSet Way Saved Linked piece piece_append piece_succ mem_piece)

def idSigns : List Char :=
  ['!', '#', '$', '%', '&', '\'', '*', '+', '-', '.', '/', ':', '<', '=', '>', '?', '@', '\\', '^',
    '_', '\x60', '|', '~']

def isIdChar (c : Char) : Bool := c.isAlphanum || idSigns.contains c

section Trees

def ids : CharSet :=
  idSigns.foldl (fun set c => .union set (.single c))
    (.union (.union (.range '0' '9') (.range 'A' 'Z')) (.range 'a' 'z'))

theorem mem_union_all (signs : List Char) (set : CharSet) (c : Char) :
    (signs.foldl (fun set c => CharSet.union set (.single c)) set).mem c =
      (set.mem c || signs.contains c) := by
  induction signs generalizing set with
  | nil => simp
  | cons sign signs ih =>
    rw [List.foldl_cons, ih]
    simp [CharSet.mem, Bool.or_assoc]

theorem mem_ids (c : Char) : ids.mem c = isIdChar c := by
  rw [ids, mem_union_all, isIdChar]
  congr 1
  rw [Bool.eq_iff_iff]
  unfold Char.isAlphanum Char.isAlpha Char.isUpper Char.isLower Char.isDigit
  simp only [CharSet.mem, Char.le_def, ge_iff_le, Bool.or_eq_true, Bool.and_eq_true,
    decide_eq_true_eq]
  rw [or_assoc, or_comm]

def word : List Char → Node
  | [] => .empty
  | [c] => .set (.single c)
  | c :: cs => .seq (.set (.single c)) (word cs)

def wholeWordTree (body : Node) : Node :=
  .seq (.notBehind (.set ids)) (.seq body (.notAhead (.set ids)))

def blankOrComment : Node :=
  .alt (.set (.union (.single ' ') (.single '\t')))
    (.alt
      (.seq (.set (.single '(')) (.seq (.set (.single ';'))
        (.seq (.many 0 none false (.set (.compl (.single '\n')))) (pair ';' ')'))))
      .never)

def clauseTree (body : Node) : Node :=
  .seq (.group (.set (.single '(')))
    (.seq (.many 0 none true blankOrComment) (.group (wholeWordTree body)))

def digitsTree (digits : CharSet) : Node :=
  .seq (.set digits)
    (.many 0 none true (.seq (.many 0 (some 1) true (.set (.single '_'))) (.set digits)))

def integerTree : Node :=
  .alternatives
    [.seq (.set (.single '0')) (.seq (.set (.single 'x')) (digitsTree hexDigits)),
      digitsTree (.range '0' '9')]

end Trees

/-- No identifier character stands next to what is between two positions. -/
structure Edged (text : List Char) (p q : Nat) : Prop where
  before : ∀ i, i + 1 = p → ∀ c ∈ text[i]?, isIdChar c = false
  behind : ∀ c ∈ text[q]?, isIdChar c = false

theorem takeWhile_word {word rest : List Char} (all : ∀ c ∈ word, isIdChar c = true)
    (ends : ∀ c ∈ rest.head?, isIdChar c = false) : (word ++ rest).takeWhile isIdChar = word :=
  (Text.span_append all rest ends).1

theorem word_unique {head head' rest rest' : List Char} (all : head.all isIdChar = true)
    (all' : head'.all isIdChar = true) (same : head ++ rest = head' ++ rest')
    (ends : ∀ c ∈ rest.head?, isIdChar c = false) (ends' : ∀ c ∈ rest'.head?, isIdChar c = false) :
    head = head' := by
  rw [← takeWhile_word (List.all_eq_true.1 all) ends, same,
    takeWhile_word (List.all_eq_true.1 all') ends']

section Ways

variable {text : List Char} {p opened : Nat} {s : Saved} {w : Way}

theorem mem_ways_word {letters : List Char} (member : w ∈ (word letters).ways text opened p s) :
    ∃ rest, text.drop p = letters ++ rest ∧ w.1 = p + letters.length := by
  induction letters generalizing opened p s with
  | nil =>
    rw [word, Node.ways, List.mem_singleton] at member
    exact ⟨text.drop p, rfl, by rw [member]; rfl⟩
  | cons c letters ih =>
    have one {v : Way} (first : v ∈ (Node.set (.single c)).ways text opened p s) :
        text.drop p = c :: text.drop (p + 1) ∧ v.1 = p + 1 := by
      obtain ⟨here, rfl⟩ := mem_ways_single first
      obtain ⟨inside, same⟩ := List.getElem?_eq_some_iff.1 here
      exact ⟨by rw [List.drop_eq_getElem_cons inside, same], rfl⟩
    cases letters with
    | nil =>
      obtain ⟨drop, stop⟩ := one member
      exact ⟨text.drop (p + 1), drop, stop⟩
    | cons d letters =>
      obtain ⟨v, first, later⟩ := List.mem_flatMap.1 member
      obtain ⟨drop, stop⟩ := one first
      obtain ⟨rest, drop', stop'⟩ := ih later
      rw [stop] at drop' stop'
      refine ⟨rest, by rw [drop, drop']; rfl, ?_⟩
      rw [stop', List.length_cons, List.length_cons, List.length_cons]
      omega

theorem mem_ways_branches {nodes : List Node}
    (member : w ∈ (Node.branches nodes).ways text opened p s) :
    ∃ node ∈ nodes, ∃ opened, w ∈ node.ways text opened p s := by
  induction nodes generalizing opened with
  | nil => simp [Node.branches, Node.ways] at member
  | cons node nodes ih =>
    rcases List.mem_append.1 member with first | later
    · exact ⟨node, List.mem_cons_self .., opened, first⟩
    · obtain ⟨other, among, way⟩ := ih later
      exact ⟨other, List.mem_cons_of_mem _ among, way⟩

theorem mem_ways_alternatives {nodes : List Node}
    (member : w ∈ (Node.alternatives nodes).ways text opened p s) :
    ∃ node ∈ nodes, ∃ opened, w ∈ node.ways text opened p s := by
  unfold Node.alternatives at member
  split at member
  · exact ⟨_, List.mem_singleton_self _, opened, member⟩
  · exact mem_ways_branches member

theorem mem_ways_notBehind {set : CharSet}
    (member : w ∈ (Node.notBehind (.set set)).ways text opened p s) :
    w = (p, s) ∧ ∀ i, i + 1 = p → ∀ c ∈ text[i]?, set.mem c = false := by
  obtain ⟨before, same⟩ := Node.mem_ways_notBehind.1 member
  refine ⟨same, ?_⟩
  rintro i rfl c here
  simpa [Node.ways, Option.mem_def.1 here] using before 1 rfl (by omega)

theorem mem_ways_notAhead {set : CharSet}
    (member : w ∈ (Node.notAhead (.set set)).ways text opened p s) :
    w = (p, s) ∧ ∀ c ∈ text[p]?, set.mem c = false := by
  obtain ⟨behind, same⟩ := Node.mem_ways_notAhead.1 member
  refine ⟨same, fun c here => ?_⟩
  simpa [Node.ways, Option.mem_def.1 here] using behind

theorem mem_ways_wholeWord {body : Node}
    (member : w ∈ (wholeWordTree body).ways text opened p s) :
    w ∈ body.ways text opened p s ∧ Edged text p w.1 := by
  obtain ⟨u, notBehind, rest⟩ := List.mem_flatMap.1 member
  obtain ⟨v, inside, notAhead⟩ := List.mem_flatMap.1 rest
  obtain ⟨rfl, before⟩ := mem_ways_notBehind notBehind
  obtain ⟨rfl, behind⟩ := mem_ways_notAhead notAhead
  simp only [mem_ids] at before behind
  exact ⟨inside, before, behind⟩

theorem mem_ways_clause {body : Node} (member : w ∈ (clauseTree body).ways text opened p s) :
    ∃ q s' v, (q, s') ∈ (Node.many 0 none true blankOrComment).ways text (opened + 1) (p + 1)
        ((opened + 1, ⟨p, p + 1⟩) :: s) ∧
      v ∈ (wholeWordTree body).ways text (opened + 2) q s' ∧
        w = (v.1, (opened + 2, ⟨q, v.1⟩) :: v.2) := by
  obtain ⟨u, first, member⟩ := List.mem_flatMap.1 member
  obtain ⟨v, parenthesis, rfl⟩ := List.mem_map.1 first
  obtain ⟨-, -, -, rfl⟩ := Node.mem_ways_set.1 parenthesis
  obtain ⟨u, between, member⟩ := List.mem_flatMap.1 member
  obtain ⟨v, inside, rfl⟩ := List.mem_map.1 member
  exact ⟨u.1, u.2, v, between, inside, rfl⟩

theorem mem_ways_optional {greedy : Bool} {a : Node}
    (member : w ∈ (Node.many 0 (some 1) greedy a).ways text opened p s) :
    w.1 = p ∨ ∃ v ∈ a.ways text opened p s, v.1 = w.1 := by
  simp only [Node.ways, Regex.exactlyWays, List.flatMap_cons, List.flatMap_nil, List.append_nil,
    Nat.sub_zero, Regex.upToWays, Regex.mem_inOrder, List.mem_flatMap, List.mem_singleton] at member
  rcases member with ⟨v, inside, rfl⟩ | rfl
  · exact .inr ⟨v, inside, rfl⟩
  · exact .inl rfl

end Ways

/-- What a tree matches is of a certain form. -/
def Spells (body : Node) (form : List Char → Prop) : Prop :=
  ∀ text opened p s, ∀ w ∈ body.ways text opened p s, form (piece text p w.1)

theorem Spells.mono {body : Node} {form weaker : List Char → Prop} (spells : Spells body form)
    (follows : ∀ cs, form cs → weaker cs) : Spells body weaker :=
  fun text opened p s w member => follows _ (spells text opened p s w member)

theorem spells_words (words : List (List Char)) :
    Spells (.alternatives (words.map word)) (· ∈ words) := by
  intro text opened p s w member
  obtain ⟨node, among, opened, way⟩ := mem_ways_alternatives member
  obtain ⟨letters, listed, rfl⟩ := List.mem_map.1 among
  obtain ⟨rest, drop, stop⟩ := mem_ways_word way
  have same : piece text p w.1 = letters := by
    rw [piece, drop, stop, Nat.add_sub_cancel_left, List.take_left]
  exact same ▸ listed

/-- A digit, or digits with another one behind them and at most an underscore in between. -/
inductive Digits (digit : Char → Bool) : List Char → Prop where
  | one {c : Char} : digit c = true → Digits digit [c]
  | next {cs : List Char} {c : Char} : Digits digit cs → digit c = true → Digits digit (cs ++ [c])
  | apart {cs : List Char} {c : Char} :
    Digits digit cs → digit c = true → Digits digit (cs ++ ['_', c])

def isHexDigit (c : Char) : Bool :=
  c.isDigit || ('a' ≤ c && c ≤ 'f') || ('A' ≤ c && c ≤ 'F')

/-- The unsigned integers of the format, decimal or hexadecimal. -/
inductive IsUnsigned : List Char → Prop where
  | decimal {cs : List Char} : Digits Char.isDigit cs → IsUnsigned cs
  | hexadecimal {cs : List Char} : Digits isHexDigit cs → IsUnsigned ('0' :: 'x' :: cs)

theorem Digits.idChars {digit : Char → Bool} (sound : ∀ c, digit c = true → isIdChar c = true)
    {cs : List Char} (digits : Digits digit cs) : cs ≠ [] ∧ ∀ c ∈ cs, isIdChar c = true := by
  induction digits with
  | one isDigit => exact ⟨by simp, by simpa using sound _ isDigit⟩
  | next _ isDigit ih =>
    refine ⟨by simp, List.forall_mem_append.2 ⟨ih.2, ?_⟩⟩
    simpa using sound _ isDigit
  | apart _ isDigit ih =>
    refine ⟨by simp, List.forall_mem_append.2 ⟨ih.2, ?_⟩⟩
    exact List.forall_mem_cons.2 ⟨by decide, by simpa using sound _ isDigit⟩

theorem isIdChar_of_isHexDigit {c : Char} (hex : isHexDigit c = true) : isIdChar c = true := by
  simp only [isHexDigit, Bool.or_eq_true, Bool.and_eq_true, decide_eq_true_eq, Char.le_def] at hex
  unfold isIdChar Char.isAlphanum Char.isAlpha Char.isUpper Char.isLower
  simp only [Bool.or_eq_true, Bool.and_eq_true, decide_eq_true_eq, ge_iff_le]
  rcases hex with (digit | ⟨low, high⟩) | ⟨low, high⟩
  · exact .inl (.inr digit)
  · exact .inl (.inl (.inr ⟨low, UInt32.le_trans high (by decide)⟩))
  · exact .inl (.inl (.inl ⟨low, UInt32.le_trans high (by decide)⟩))

theorem IsUnsigned.idChars {cs : List Char} (number : IsUnsigned cs) :
    cs ≠ [] ∧ ∀ c ∈ cs, isIdChar c = true := by
  cases number with
  | decimal digits =>
    exact digits.idChars fun c isDigit => by simp [isIdChar, Char.isAlphanum, isDigit]
  | hexadecimal digits =>
    refine ⟨by simp, List.forall_mem_cons.2 ⟨by decide, List.forall_mem_cons.2 ⟨by decide, ?_⟩⟩⟩
    exact (digits.idChars fun c => isIdChar_of_isHexDigit).2

structure Lengthens (digit : Char → Bool) (text : List Char) (p q : Nat) : Prop where
  forward : p ≤ q
  inside : q ≤ text.length
  digits : ∀ start, start ≤ p → Digits digit (piece text start p) →
    Digits digit (piece text start q)

theorem lengthens_linked (digit : Char → Bool) (text : List Char) :
    Linked text (Lengthens digit text) where
  inside h := h.inside
  refl h := ⟨Nat.le_refl _, h, fun _ _ digits => digits⟩
  trans h h' := ⟨Nat.le_trans h.forward h'.forward, h'.inside, fun start le digits =>
    h'.digits start (Nat.le_trans le h.forward) (h.digits start le digits)⟩

theorem lengthens_round (digits : CharSet) (text : List Char) (opened : Nat) :
    Regex.Leads text (Lengthens digits.mem text)
      ((Node.seq (.many 0 (some 1) true (.set (.single '_'))) (.set digits)).ways text opened) := by
  intro p s inside w member
  obtain ⟨v, mark, last⟩ := List.mem_flatMap.1 member
  obtain ⟨d, there, isDigit, rfl⟩ := Node.mem_ways_set.1 last
  have inside' : v.1 < text.length := (List.getElem?_eq_some_iff.1 there).1
  rcases mem_ways_optional mark with same | ⟨u, underscore, same⟩
  · rw [same] at there inside' ⊢
    refine ⟨Nat.le_succ _, inside', fun start le before => ?_⟩
    rw [piece_append text le (Nat.le_succ p), piece_succ there]
    exact .next before isDigit
  · obtain ⟨here, rfl⟩ := mem_ways_single underscore
    rw [← same] at there inside' ⊢
    refine ⟨by simp only; omega, inside', fun start le before => ?_⟩
    rw [piece_append text le (Nat.le_add_right p 2),
      piece_append text (Nat.le_succ p) (Nat.le_succ _), piece_succ here, piece_succ there]
    exact .apart before isDigit

theorem spells_digits (digits : CharSet) : Spells (digitsTree digits) (Digits digits.mem) := by
  intro text opened p s w member
  obtain ⟨v, first, rounds⟩ := List.mem_flatMap.1 member
  obtain ⟨c, here, isDigit, rfl⟩ := Node.mem_ways_set.1 first
  have inside : p + 1 ≤ text.length := (List.getElem?_eq_some_iff.1 here).1
  have lengthens := Regex.manyWays_leads (lengthens_linked digits.mem text)
    (lengthens_round digits text _) (p + 1) s inside w rounds
  refine lengthens.digits p (Nat.le_succ p) ?_
  rw [piece_succ here]
  exact .one isDigit

theorem spells_integer : Spells integerTree IsUnsigned := by
  intro text opened p s w member
  obtain ⟨node, among, opened, way⟩ := mem_ways_alternatives member
  rcases List.mem_cons.1 among with rfl | among
  · obtain ⟨u, zero, way⟩ := List.mem_flatMap.1 way
    obtain ⟨here, rfl⟩ := mem_ways_single zero
    obtain ⟨u, mark, way⟩ := List.mem_flatMap.1 way
    obtain ⟨there, rfl⟩ := mem_ways_single mark
    have inside := (List.getElem?_eq_some_iff.1 there).1
    have digits := spells_digits _ _ _ _ _ w way
    have forward := (Node.ways_forward text _ _ _ _ inside w way).1
    rw [piece_append text (Nat.le_add_right p 2) forward,
      piece_append text (Nat.le_succ p) (Nat.le_succ _), piece_succ here, piece_succ there]
    exact .hexadecimal digits
  · rw [List.mem_singleton] at among
    subst among
    exact .decimal (spells_digits _ _ _ _ _ w way)

end ScopeGrammar.WebAssembly
