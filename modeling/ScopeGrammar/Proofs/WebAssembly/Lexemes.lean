import ScopeGrammar.Proofs.Scan.Found
import ScopeGrammar.WebAssembly.Grammar

set_option autoImplicit false

namespace ScopeGrammar.WebAssembly

open Scan Fragment
open Regex (Node CharSet Way Saved Spares)

def specials : List Char := ['(', ')', '"', ';', '\n']

def stringSpecials : List Char := ['"', '\\', '\n']

def blankChars : List Char := [' ', '\t']

def pair (a b : Char) : Node := .seq (.set (.single a)) (.set (.single b))

section Ways

variable {text : List Char} {p opened : Nat} {s : Saved} {w : Way}

theorem ways_pair (text : List Char) (a b : Char) (opened p : Nat) (s : Saved) :
    (pair a b).ways text opened p s =
      if text[p]? = some a ∧ text[p + 1]? = some b then [(p + 2, s)] else [] := by
  rw [pair, Node.ways, ways_single]
  by_cases first : text[p]? = some a
  · simp [first, ways_single]
  · simp [first]

theorem mem_ways_group {a : Node} (member : w ∈ (Node.group a).ways text opened p s) :
    ∃ v ∈ a.ways text (opened + 1) p s, v.1 = w.1 := by
  obtain ⟨v, inside, rfl⟩ := List.mem_map.1 member
  exact ⟨v, inside, rfl⟩

theorem ways_group_ne_nil {a : Node} (some : a.ways text (opened + 1) p s ≠ []) :
    (Node.group a).ways text opened p s ≠ [] := by
  rw [Node.ways]
  simpa using some

theorem ways_alt_ne_nil {a b : Node} (either : a.ways text opened p s ≠ [] ∨
    b.ways text (opened + a.groups) p s ≠ []) : (Node.alt a b).ways text opened p s ≠ [] := by
  intro none
  rw [Node.ways, List.append_eq_nil_iff] at none
  exact either.elim (· none.1) (· none.2)

theorem ways_seq_ne_nil {a b : Node} (first : w ∈ a.ways text opened p s)
    (rest : b.ways text (opened + a.groups) w.1 w.2 ≠ []) :
    (Node.seq a b).ways text opened p s ≠ [] := by
  rw [Node.ways, ne_eq, List.flatMap_eq_nil_iff]
  exact fun none => rest (none w first)

theorem ways_set_ne_nil {set : CharSet} {c : Char} (here : text[p]? = some c)
    (is : set.mem c = true) : (Node.set set).ways text opened p s ≠ [] :=
  List.ne_nil_of_mem (Node.mem_ways_set.2 ⟨c, here, is, rfl⟩)

theorem self_mem_ways_many (most : Option Nat) (greedy : Bool) (a : Node) :
    (p, s) ∈ (Node.many 0 most greedy a).ways text opened p s := by
  rw [Node.ways, List.mem_flatMap]
  refine ⟨(p, s), by simp [Regex.exactlyWays], ?_⟩
  cases most with
  | none =>
    simp only
    cases text.length - p with
    | zero => simp [Regex.anyWays]
    | succ room => simp [Regex.anyWays, Regex.mem_inOrder]
  | some most =>
    simp only
    cases most - 0 with
    | zero => simp [Regex.upToWays]
    | succ n => simp [Regex.upToWays, Regex.mem_inOrder]

theorem ways_many_of_nil {greedy : Bool} {a : Node} (none : a.ways text opened p s = []) :
    (Node.many 0 Option.none greedy a).ways text opened p s = [(p, s)] := by
  cases size : text.length - p with
  | zero => simp [Node.ways, Regex.exactlyWays, size, Regex.anyWays]
  | succ room => cases greedy <;> simp [Node.ways, Regex.exactlyWays, size, Regex.anyWays, none, Regex.inOrder]

theorem ways_lineEnd (text : List Char) (opened p : Nat) (s : Saved) :
    (Node.anchor .lineEnd).ways text opened p s =
      if (text[p]?).all (· = '\n') then [(p, s)] else [] := by
  simp [Node.ways, Regex.Anchor.holds, Regex.Cursor.place, List.head?_drop]

end Ways

section Trees

def lineCommentOpening : Fragment :=
  sequence [
    optional (capture (sequence [.ofString "^", oneOrMore blank])),
    capture (capture lineComment)]

def lineCommentClosing : Fragment := lookAhead lineEnd

def annotationOpening : Fragment := sequence [leftParenthesis, lookAhead atSign]

def annotationName : Fragment :=
  sequence [lookBehind leftParenthesis, capture atSign, capture (oneOrMore idChar)]

def constInstruction : Fragment :=
  keyword (sequence [
    capture (alternative [
      capture (sequence [.ofString "i", alternative [.ofString "32", .ofString "64"]]),
      capture (sequence [.ofString "f", alternative [.ofString "32", .ofString "64"]])]),
    capture dot,
    capture Keyword.const.letters])

def indent : Node :=
  .many 0 (some 1) true
    (.group (.seq (.anchor .lineStart)
      (.many 1 none true (.set (.union (.single ' ') (.single '\t'))))))

def hexDigits : CharSet := .union (.union (.range '0' '9') (.range 'a' 'f')) (.range 'A' 'F')

def escapeTail : Node :=
  .alt (.many 2 (some 2) true (.set hexDigits))
    (.alt
      (.seq (.set (.single 'u')) (.seq (.set (.single '\x7b'))
        (.seq (.many 1 none true (.set hexDigits)) (.set (.single '\x7d')))))
      (.alt
        (.set (.union (.union (.union (.union (.union (.single 't') (.single 'n')) (.single 'r'))
          (.single '"')) (.single '\'')) (.single '\\')))
        .never))

def stringEndTree : Node :=
  .alt (.group (.set (.single '"')))
    (.alt
      (.group (.alt (.seq (.set (.compl (.single '\n'))) (.anchor .lineEnd))
        (.alt (.set (.single '\n')) .never)))
      .never)

theorem tree_quote : lineTree? quote = some (.set (.single '"')) := by rfl

theorem tree_leftParenthesis : lineTree? leftParenthesis = some (.set (.single '(')) := by rfl

theorem tree_rightParenthesis : lineTree? rightParenthesis = some (.set (.single ')')) := by rfl

theorem tree_annotationOpening :
    lineTree? annotationOpening = some (.seq (.set (.single '(')) (.ahead (.set (.single '@')))) := by
  rfl

theorem tree_blockCommentStart :
    lineTree? (capture blockCommentStart) = some (.group (pair '(' ';')) := by
  rfl

theorem tree_blockCommentEnd :
    lineTree? (capture blockCommentEnd) = some (.group (pair ';' ')')) := by
  rfl

theorem tree_lineCommentOpening :
    lineTree? lineCommentOpening =
      some (.seq indent (.group (.group (pair ';' ';')))) := by
  rfl

theorem tree_lineCommentClosing :
    lineTree? lineCommentClosing = some (.ahead (.anchor .lineEnd)) := by
  rfl

theorem tree_stringEnd : lineTree? stringEnd = some stringEndTree := by rfl

theorem tree_escape : lineTree? escape = some (.seq (.set (.single '\\')) escapeTail) := by rfl

end Trees

section Facts

variable {text : List Char} {p opened : Nat} {s : Saved} {w : Way}

theorem mem_ways_group_pair {a b : Char}
    (member : w ∈ (Node.group (pair a b)).ways text opened p s) :
    text[p]? = some a ∧ text[p + 1]? = some b ∧ w.1 = p + 2 := by
  obtain ⟨v, inside, same⟩ := mem_ways_group member
  rw [ways_pair] at inside
  split at inside
  · rename_i both
    rw [List.mem_singleton] at inside
    exact ⟨both.1, both.2, by rw [← same, inside]⟩
  · simp at inside

theorem ways_group_pair_ne_nil {a b : Char} (first : text[p]? = some a)
    (second : text[p + 1]? = some b) : (Node.group (pair a b)).ways text opened p s ≠ [] := by
  refine ways_group_ne_nil ?_
  rw [ways_pair, if_pos ⟨first, second⟩]
  simp

theorem mem_ways_annotationOpening
    (member : w ∈ (Node.seq (.set (.single '(')) (.ahead (.set (.single '@')))).ways text opened p s) :
    text[p]? = some '(' ∧ w.1 = p + 1 := by
  obtain ⟨v, first, rest⟩ := List.mem_flatMap.1 member
  obtain ⟨here, rfl⟩ := mem_ways_single first
  exact ⟨here, Node.ways_of_not_repeatable rfl rest⟩

theorem sign_of_annotationOpening
    (member : w ∈ (Node.seq (.set (.single '(')) (.ahead (.set (.single '@')))).ways text opened p s) :
    text[p + 1]? = some '@' := by
  obtain ⟨v, first, rest⟩ := List.mem_flatMap.1 member
  obtain ⟨-, rfl⟩ := mem_ways_single first
  obtain ⟨u, inside, -⟩ := List.mem_map.1 rest
  exact (mem_ways_single (List.mem_of_mem_take inside)).1

theorem ways_indent (inside : p ≤ text.length) (member : w ∈ indent.ways text opened p s) :
    p ≤ w.1 ∧ Spares text specials p w.1 := by
  have avoided : indent.avoids [] specials = true := by decide
  have spared := Node.spares_of_avoids specials indent avoided inside member
  exact ⟨spared.1, spared.2.2⟩

theorem mem_ways_lineComment (inside : p ≤ text.length)
    (member : w ∈ (Node.seq indent (.group (.group (pair ';' ';')))).ways text opened p s) :
    ∃ k, p ≤ k ∧ Spares text specials p k ∧ text[k]? = some ';' ∧ text[k + 1]? = some ';' ∧
      w.1 = k + 2 := by
  obtain ⟨v, first, rest⟩ := List.mem_flatMap.1 member
  obtain ⟨le, spares⟩ := ways_indent inside first
  obtain ⟨u, inner, same⟩ := mem_ways_group rest
  obtain ⟨mark, mark', stop⟩ := mem_ways_group_pair inner
  exact ⟨v.1, le, spares, mark, mark', by rw [← same, stop]⟩

theorem ways_lineComment_ne_nil (first : text[p]? = some ';') (second : text[p + 1]? = some ';') :
    (Node.seq indent (.group (.group (pair ';' ';')))).ways text opened p s ≠ [] := by
  exact ways_seq_ne_nil (self_mem_ways_many _ _ _)
    (ways_group_ne_nil (ways_group_pair_ne_nil first second))

theorem mem_ways_lineEnd (member : w ∈ (Node.ahead (.anchor .lineEnd)).ways text opened p s) :
    w.1 = p ∧ (text[p]?).all (· = '\n') = true := by
  refine ⟨Node.ways_of_not_repeatable rfl member, ?_⟩
  obtain ⟨v, inside, -⟩ := List.mem_map.1 member
  have there := List.mem_of_mem_take inside
  rw [ways_lineEnd] at there
  split at there
  · assumption
  · simp at there

theorem ways_lineEnd_ne_nil (here : text[p]? = some '\n') :
    (Node.ahead (.anchor .lineEnd)).ways text opened p s ≠ [] := by
  rw [Node.ways, ways_lineEnd, here]
  simp

theorem mem_ways_stringEnd (member : w ∈ stringEndTree.ways text opened p s) :
    w.1 = p + 1 ∧ (text[p]? = some '"' ∨ text[p]? = some '\n' ∨
      (∃ c, text[p]? = some c ∧ c ≠ '\n') ∧ (text[p + 1]?).all (· = '\n') = true) := by
  rcases List.mem_append.1 member with quote | other
  · obtain ⟨v, inside, same⟩ := mem_ways_group quote
    obtain ⟨c, here, is, rfl⟩ := Node.mem_ways_set.1 inside
    simp only [CharSet.mem_single, decide_eq_true_eq] at is
    exact ⟨same.symm, .inl (is ▸ here)⟩
  · rcases List.mem_append.1 other with group | never
    · obtain ⟨v, inside, same⟩ := mem_ways_group group
      rcases List.mem_append.1 inside with last | rest
      · obtain ⟨u, first, edge⟩ := List.mem_flatMap.1 last
        obtain ⟨c, here, is, rfl⟩ := Node.mem_ways_set.1 first
        rw [ways_lineEnd] at edge
        split at edge
        · rename_i atEnd
          rw [List.mem_singleton] at edge
          subst edge
          simp only [CharSet.mem_compl, CharSet.mem_single, Bool.not_eq_true',
            decide_eq_false_iff_not] at is
          exact ⟨same.symm, .inr (.inr ⟨⟨c, here, is⟩, atEnd⟩)⟩
        · simp at edge
      · rcases List.mem_append.1 rest with feed | never
        · obtain ⟨c, here, is, rfl⟩ := Node.mem_ways_set.1 feed
          simp only [CharSet.mem_single, decide_eq_true_eq] at is
          exact ⟨same.symm, .inr (.inl (is ▸ here))⟩
        · simp [Node.ways] at never
    · simp [Node.ways] at never

theorem ways_stringEnd_ne_nil (here : text[p]? = some '"' ∨ text[p]? = some '\n' ∨
      (∃ c, text[p]? = some c ∧ c ≠ '\n') ∧ (text[p + 1]?).all (· = '\n') = true) :
    stringEndTree.ways text opened p s ≠ [] := by
  rcases here with quote | feed | ⟨⟨c, last, other⟩, atEnd⟩
  · exact ways_alt_ne_nil (.inl (ways_group_ne_nil (ways_set_ne_nil quote (by simp))))
  · refine ways_alt_ne_nil (.inr (ways_alt_ne_nil (.inl (ways_group_ne_nil ?_))))
    exact ways_alt_ne_nil (.inr (ways_alt_ne_nil (.inl (ways_set_ne_nil feed (by simp)))))
  · refine ways_alt_ne_nil (.inr (ways_alt_ne_nil (.inl (ways_group_ne_nil ?_))))
    refine ways_alt_ne_nil (.inl (ways_seq_ne_nil (Node.mem_ways_set.2 ⟨c, last, by simp [other], rfl⟩) ?_))
    rw [ways_lineEnd, if_pos atEnd]
    simp

theorem mem_ways_escape
    (member : w ∈ (Node.seq (.set (.single '\\')) escapeTail).ways text opened p s) :
    text[p]? = some '\\' ∧
      ((w.1 = p + 2 ∧ ∃ c, text[p + 1]? = some c ∧ c ≠ '\n') ∨
        (p + 1 < w.1 ∧ Spares text stringSpecials (p + 1) w.1)) := by
  obtain ⟨v, first, rest⟩ := List.mem_flatMap.1 member
  obtain ⟨c, here, is, rfl⟩ := Node.mem_ways_set.1 first
  simp only [CharSet.mem_single, decide_eq_true_eq] at is
  subst is
  have room := (List.getElem?_eq_some_iff.1 here).1
  refine ⟨here, ?_⟩
  rcases List.mem_append.1 rest with hex | rest
  · have spared := Node.spares_of_avoids stringSpecials _ (by decide) room hex
    exact .inr ⟨Node.lt_of_not_nullable _ (by decide) room hex, spared.2.2⟩
  · rcases List.mem_append.1 rest with braces | rest
    · have spared := Node.spares_of_avoids stringSpecials _ (by decide) room braces
      exact .inr ⟨Node.lt_of_not_nullable _ (by decide) room braces, spared.2.2⟩
    · rcases List.mem_append.1 rest with letter | never
      · obtain ⟨d, next, isLetter, rfl⟩ := Node.mem_ways_set.1 letter
        refine .inl ⟨rfl, d, next, ?_⟩
        rintro rfl
        exact absurd isLetter (by decide)
      · simp [Node.ways] at never

theorem ways_escape_ne_nil (first : text[p]? = some '\\')
    (second : text[p + 1]? = some '"' ∨ text[p + 1]? = some '\\') :
    (Node.seq (.set (.single '\\')) escapeTail).ways text opened p s ≠ [] := by
  refine ways_seq_ne_nil (Node.mem_ways_set.2 ⟨'\\', first, by simp, rfl⟩) ?_
  refine ways_alt_ne_nil (.inr (ways_alt_ne_nil (.inr (ways_alt_ne_nil (.inl ?_)))))
  rcases second with quote | backslash
  · exact ways_set_ne_nil quote (by decide)
  · exact ways_set_ne_nil backslash (by decide)

end Facts

end ScopeGrammar.WebAssembly
