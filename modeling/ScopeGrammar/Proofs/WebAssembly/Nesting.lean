import ScopeGrammar.Proofs.WebAssembly.Areas
import ScopeGrammar.Proofs.WebAssembly.Reader

/-!
How the areas that are open mirror where the reader of a line is, and that what a step of a scan
reads leads the reader to where the areas behind the step are mirrored again.
-/

set_option autoImplicit false

namespace ScopeGrammar.WebAssembly

open Scan
open Regex (Spares Way mem_piece)

/-- The areas that are open, from the innermost one on, where the reader is in the given state. -/
inductive Nest : Reading → List Area → Prop where
  | outside : Nest ⟨.code, 0, 0⟩ []
  | round {n : Nat} {a : Area} {areas : List Area} (is : a.isRound = true)
    (outer : Nest ⟨.code, n, 0⟩ areas) : Nest ⟨.code, n + 1, 0⟩ (a :: areas)
  | comment {n m : Nat} {areas : List Area} (outer : Nest ⟨.code, n, m⟩ areas) :
    Nest ⟨.code, n, m + 1⟩ (.blockComment :: areas)
  | string {n : Nat} {areas : List Area} (outer : Nest ⟨.code, n, 0⟩ areas) :
    Nest ⟨.string, n, 0⟩ (.string :: areas)
  | rest {n : Nat} {areas : List Area} (outer : Nest ⟨.code, n, 0⟩ areas) :
    Nest ⟨.rest, n, 0⟩ (.lineComment :: areas)

theorem Nest.length_eq {n m : Nat} {areas : List Area} (nest : Nest ⟨.code, n, m⟩ areas) :
    areas.length = n + m := by
  generalize state : (⟨.code, n, m⟩ : Reading) = s at nest
  induction nest generalizing n m with
  | outside =>
    cases state
    rfl
  | round is outer ih =>
    cases state
    rw [List.length_cons, ih rfl]
  | comment outer ih =>
    cases state
    simp only [List.length_cons, ih rfl]
    omega
  | string => cases state
  | rest => cases state

section Line

variable {l : Line} {p q i : Nat} {c : Char}

theorem text_of_content (here : l.content[i]? = some c) : l.text[i]? = some c := by
  rw [Line.text, List.getElem?_append_left (List.getElem?_eq_some_iff.1 here).1, here]

theorem content_of_text (here : l.text[i]? = some c) (notEnd : c ≠ '\n') :
    l.content[i]? = some c := by
  rwa [Line.text, List.getElem?_append_left (lt_of_ne_newline here notEnd)] at here

theorem le_of_edge (inLine : '\n' ∉ l.content) (edge : (l.text[i]?).all (· = '\n') = true) :
    l.content.length ≤ i := by
  rcases Nat.lt_or_ge i l.content.length with lt | ge
  · have here : l.content[i]? = some l.content[i] := List.getElem?_eq_getElem lt
    rw [text_of_content here] at edge
    simp only [Option.all_some, decide_eq_true_eq] at edge
    exact absurd (edge ▸ List.getElem_mem lt) inLine
  · exact ge

theorem moves_string_end {cs : List Char} {n m : Nat} (full : cs.length ≤ q + 1) :
    Moves cs q (q + 1) ⟨.string, n, m⟩ ⟨.code, n, m⟩ := by
  intro ahead isAhead
  rw [List.drop_eq_nil_of_le full, List.prefix_nil] at isAhead
  subst isAhead
  have few : (Regex.piece cs q (q + 1)).length ≤ 1 := by
    simp only [Regex.piece, List.length_take]
    omega
  generalize Regex.piece cs q (q + 1) = text at few ⊢
  cases text with
  | nil => rfl
  | cons c rest =>
    obtain rfl : rest = [] := List.eq_nil_of_length_eq_zero (by simpa using few)
    by_cases isQuote : c = '"'
    · simp [isQuote, Reading.read, read_string_quote]
    · simp [Reading.read, read_in_string isQuote]

end Line

section Gap

variable {l : Line} {a : Area} {outer : List Area} {s : Reading} {p q : Nat}

theorem Area.mem_patterns_of_isRound (is : a.isRound = true) {f : Fragment}
    (member : f ∈ [leftParenthesis, rightParenthesis, quote, lineCommentOpening]) :
    f ∈ a.patterns := by
  revert f
  cases a with
  | form | annotated | nested => decide
  | string | lineComment | blockComment => simp [isRound] at is

theorem Silent.ne {fs : List Fragment} {text : List Char} {f : Fragment} {c d : Char} {i : Nat}
    (silent : Silent fs text p q) (member : f ∈ fs) (read : lineTree? f = some (.set (.single c)))
    (ge : p ≤ i) (lt : i < q) (here : text[i]? = some d) : d ≠ c := by
  rintro rfl
  have none := silent f member _ read i ge lt (List.getElem?_eq_some_iff.1 here).1
  simp [ways_single, here] at none

theorem Nest.gap (nest : Nest s (a :: outer)) (silent : Silent a.patterns l.text p q)
    (le : p ≤ q) : Moves l.content p q s s := by
  refine moves_gap le fun i c ge lt inside ahead isAhead => ?_
  have here := text_of_content inside
  have room := (List.getElem?_eq_some_iff.1 here).1
  have next {d : Char} (other : l.text[i + 1]? ≠ some d) : ahead.head? ≠ some d :=
    head?_ahead isAhead fun same => other (text_of_content same)
  cases nest with
  | round is =>
    have single {f : Fragment} {d : Char} (read : lineTree? f = some (.set (.single d)))
        (member : f ∈ [leftParenthesis, rightParenthesis, quote, lineCommentOpening]) : c ≠ d :=
      silent.ne (a.mem_patterns_of_isRound is member) read ge lt here
    refine read_plain (single tree_leftParenthesis (by simp)) (single tree_rightParenthesis (by simp))
      (single tree_quote (by simp)) fun semicolon => next fun again => ?_
    have none := silent _ (a.mem_patterns_of_isRound is (by simp)) _ tree_lineCommentOpening i ge lt room
    exact ways_lineComment_ne_nil (semicolon ▸ here) again none
  | comment =>
    refine read_in_comment (fun opening => next fun again => ?_) fun closing => next fun again => ?_
    · have none := silent _ (by decide) _ tree_blockCommentStart i ge lt room
      exact ways_group_pair_ne_nil (opening ▸ here) again none
    · have none := silent _ (by decide) _ tree_blockCommentEnd i ge lt room
      exact ways_group_pair_ne_nil (closing ▸ here) again none
  | string =>
    have noEnd := silent _ (by decide) _ tree_stringEnd i ge lt room
    have noEscape := silent _ (by decide) _ tree_escape i ge lt room
    refine read_in_string (fun isQuote => ?_) fun isEscape => ⟨next fun again => ?_, next fun again => ?_⟩
    · exact ways_stringEnd_ne_nil (.inl (isQuote ▸ here)) noEnd
    · exact ways_escape_ne_nil (isEscape ▸ here) (.inl again) noEscape
    · exact ways_escape_ne_nil (isEscape ▸ here) (.inr again) noEscape
  | rest => simp [Reading.read]

end Gap

section Match

variable {l : Line} {a b : Area} {outer areas : List Area} {s : Reading} {p q opened : Nat}
  {saved : Regex.Saved} {w : Way} {f : Fragment} {tree : Regex.Node}

theorem Area.state_of_isRound (is : a.isRound = true) (nest : Nest s (a :: outer)) :
    ∃ n, s = ⟨.code, n, 0⟩ := by
  cases nest with
  | round => exact ⟨_, rfl⟩
  | comment | string | rest => simp [isRound] at is

theorem moves_spared {n : Nat} (le : p ≤ q) (spares : Spares l.text specials p q) :
    Moves l.content p q ⟨.code, n, 0⟩ ⟨.code, n, 0⟩ := by
  refine moves_gap le fun i c ge lt inside ahead _ => ?_
  have spared := spares c (mem_piece.2 ⟨i, ge, lt, text_of_content inside⟩)
  simp only [specials, List.mem_cons, List.not_mem_nil, or_false, not_or] at spared
  obtain ⟨notOpen, notClose, notQuote, notMark, -⟩ := spared
  exact read_plain notOpen notClose notQuote fun mark => absurd mark notMark

theorem Nest.close (inLine : '\n' ∉ l.content) (nest : Nest s (a :: outer))
    (read : lineTree? a.closing = some tree) (member : w ∈ tree.ways l.text opened p saved) :
    ∃ s', Moves l.content p w.1 s s' ∧ s'.mode = .code ∧ Nest s' outer ∧
      if a = .lineComment then l.content.length ≤ p ∧ w.1 = p else p < w.1 := by
  cases nest with
  | @round n a areas is outer =>
    have same : tree = .set (.single ')') := by
      cases a with
      | form | annotated | nested => exact Option.some.inj (read.symm.trans tree_rightParenthesis)
      | string | lineComment | blockComment => simp [Area.isRound] at is
    have notComment : a ≠ .lineComment := by rintro rfl; simp [Area.isRound] at is
    subst same
    obtain ⟨here, rfl⟩ := mem_ways_single member
    refine ⟨⟨.code, n, 0⟩, moves_one (content_of_text here (by decide)) fun _ _ => read_close,
      rfl, outer, ?_⟩
    rw [if_neg notComment]
    exact Nat.lt_succ_self p
  | @comment n m areas outer =>
    cases read.symm.trans tree_blockCommentEnd
    obtain ⟨first, second, stop⟩ := mem_ways_group_pair member
    rw [stop]
    refine ⟨⟨.code, n, m⟩, ?_, rfl, outer, ?_⟩
    · exact moves_two (content_of_text first (by decide)) (content_of_text second (by decide))
        fun _ => read_comment_close
    · simp
  | @string n areas outer =>
    cases read.symm.trans tree_stringEnd
    obtain ⟨stop, ends⟩ := mem_ways_stringEnd member
    rw [stop]
    refine ⟨⟨.code, n, 0⟩, ?_, rfl, outer, by simp⟩
    rcases ends with isQuote | feed | ⟨-, edge⟩
    · exact moves_one (content_of_text isQuote (by decide)) fun _ _ => read_string_quote
    · have full := le_of_edge inLine (i := p) (by simp [feed])
      exact moves_string_end (by omega)
    · exact moves_string_end (le_of_edge inLine edge)
  | @rest n areas outer =>
    cases read.symm.trans tree_lineCommentClosing
    obtain ⟨stop, edge⟩ := mem_ways_lineEnd member
    have full := le_of_edge inLine edge
    rw [stop]
    exact ⟨⟨.code, n, 0⟩, moves_line_end full, rfl, outer, by simp [full]⟩

theorem Area.isRound_of_asked (asked : .area b ∈ a.asks) :
    a.isRound = true ∨ a = .blockComment ∧ b = .blockComment := by
  revert asked
  cases a <;> cases b <;> decide

theorem Area.not_first_of_isRound (is : b.isRound = true) : .area b ∉ a.first := by
  revert is
  cases a <;> cases b <;> decide

theorem Area.blockComment_first (is : a.isRound = true) : .area .blockComment ∈ a.first := by
  revert is
  cases a <;> decide

theorem opening_of_isRound (is : b.isRound = true) (read : lineTree? b.opening = some tree)
    (member : w ∈ tree.ways l.text opened p saved) : l.text[p]? = some '(' ∧ w.1 = p + 1 := by
  cases b with
  | form | nested =>
    cases read.symm.trans tree_leftParenthesis
    obtain ⟨here, rfl⟩ := mem_ways_single member
    exact ⟨here, rfl⟩
  | annotated =>
    cases read.symm.trans tree_annotationOpening
    exact mem_ways_annotationOpening member
  | string | lineComment | blockComment => simp [Area.isRound] at is

/-- Where the beginning of an area has been read, and the areas that are open there. -/
def Goes (l : Line) (p q : Nat) (s : Reading) (areas : List Area) : Prop :=
  ∃ s', Moves l.content p q s s' ∧ Nest s' areas ∧ p < q ∧ (s'.mode = .rest → p + 1 < q) ∧
    q ≤ l.content.length

theorem Nest.enter_round {n : Nat} (nest : Nest ⟨.code, n, 0⟩ areas) (is : b.isRound = true)
    (here : l.text[p]? = some '(') (alone : l.text[p + 1]? ≠ some ';') :
    Goes l p (p + 1) ⟨.code, n, 0⟩ (b :: areas) := by
  refine ⟨⟨.code, n + 1, 0⟩, ?_, .round is nest, Nat.lt_succ_self p, by simp,
    lt_of_ne_newline here (by decide)⟩
  refine moves_one (content_of_text here (by decide)) fun ahead isAhead => ?_
  exact read_open (head?_ahead isAhead fun same => alone (text_of_content same))

theorem Nest.enter_string {n : Nat} (nest : Nest ⟨.code, n, 0⟩ areas)
    (here : l.text[p]? = some '"') : Goes l p (p + 1) ⟨.code, n, 0⟩ (.string :: areas) :=
  ⟨⟨.string, n, 0⟩, moves_one (content_of_text here (by decide)) fun _ _ => read_quote,
    .string nest, Nat.lt_succ_self p, by simp, lt_of_ne_newline here (by decide)⟩

theorem Nest.enter_lineComment {n k : Nat} (nest : Nest ⟨.code, n, 0⟩ areas) (ge : p ≤ k)
    (spares : Spares l.text specials p k) (first : l.text[k]? = some ';')
    (second : l.text[k + 1]? = some ';') :
    Goes l p (k + 2) ⟨.code, n, 0⟩ (.lineComment :: areas) := by
  have mark : Moves l.content k (k + 2) ⟨.code, n, 0⟩ ⟨.rest, n, 0⟩ :=
    moves_two (content_of_text first (by decide)) (content_of_text second (by decide))
      fun _ => read_line_comment
  have room := lt_of_ne_newline second (by decide)
  exact ⟨⟨.rest, n, 0⟩, (moves_spared ge spares).trans ge (by omega) mark, .rest nest, by omega,
    fun _ => by omega, by omega⟩

theorem Nest.enter_blockComment {n m : Nat} (nest : Nest ⟨.code, n, m⟩ areas)
    (first : l.text[p]? = some '(') (second : l.text[p + 1]? = some ';') :
    Goes l p (p + 2) ⟨.code, n, m⟩ (.blockComment :: areas) := by
  have room := lt_of_ne_newline second (by decide)
  exact ⟨⟨.code, n, m + 1⟩, moves_two (content_of_text first (by decide))
    (content_of_text second (by decide)) fun _ => read_comment_open, .comment nest, by omega,
    by simp, by omega⟩

theorem Nest.enter (nest : Nest s (a :: outer)) (inside : p ≤ l.text.length)
    (asked : .area b ∈ a.asks) (read : lineTree? b.opening = some tree)
    (member : w ∈ tree.ways l.text opened p saved)
    (alone : b.isRound = true → l.text[p + 1]? ≠ some ';') :
    Goes l p w.1 s (b :: a :: outer) := by
  rcases Area.isRound_of_asked asked with is | ⟨rfl, rfl⟩
  · obtain ⟨n, rfl⟩ := Area.state_of_isRound is nest
    cases b with
    | form | annotated | nested =>
      obtain ⟨here, stop⟩ := opening_of_isRound rfl read member
      rw [stop]
      exact nest.enter_round rfl here (alone rfl)
    | string =>
      cases read.symm.trans tree_quote
      obtain ⟨here, rfl⟩ := mem_ways_single member
      exact nest.enter_string here
    | lineComment =>
      cases read.symm.trans tree_lineCommentOpening
      obtain ⟨k, ge, spares, first, second, stop⟩ := mem_ways_lineComment inside member
      rw [stop]
      exact nest.enter_lineComment ge spares first second
    | blockComment =>
      cases read.symm.trans tree_blockCommentStart
      obtain ⟨first, second, stop⟩ := mem_ways_group_pair member
      rw [stop]
      exact nest.enter_blockComment first second
  · cases read.symm.trans tree_blockCommentStart
    obtain ⟨first, second, stop⟩ := mem_ways_group_pair member
    rw [stop]
    cases nest with
    | round is => simp [Area.isRound] at is
    | comment outer => exact (Nest.comment outer).enter_blockComment first second

theorem Area.lexemes_of_asked (asked : .lexeme f ∈ a.asks) :
    a.isRound = true ∧ f ∈ [annotationName, constInstruction, identifier] ∨
      a = .string ∧ f = escape := by
  revert asked
  cases a <;> simp [asks, first, later, isRound]
  all_goals
    intros
    simp_all

theorem lexemes_spare :
    ([annotationName, constInstruction, identifier].all fun f =>
      hasTree f fun tree => tree.avoids [] specials && !tree.nullable) = true := by
  decide +kernel

theorem Nest.string_state (nest : Nest s (.string :: outer)) : ∃ n, s = ⟨.string, n, 0⟩ := by
  cases nest with
  | round is => simp [Area.isRound] at is
  | string => exact ⟨_, rfl⟩

theorem moves_escape {n : Nat} (here : l.text[p]? = some '\\') (lt : p + 1 < q)
    (spares : Spares l.text stringSpecials (p + 1) q) :
    Moves l.content p q ⟨.string, n, 0⟩ ⟨.string, n, 0⟩ := by
  have spared {i : Nat} {d : Char} (behind : p < i) (before : i < q)
      (there : l.content[i]? = some d) : d ≠ '"' ∧ d ≠ '\\' := by
    have other := spares d (mem_piece.2 ⟨i, behind, before, text_of_content there⟩)
    simp only [stringSpecials, List.mem_cons, not_or] at other
    exact ⟨other.1, other.2.1⟩
  refine moves_gap (by omega) fun i c ge before there ahead isAhead => ?_
  rcases Nat.eq_or_lt_of_le ge with rfl | behind
  · cases (content_of_text here (by decide)).symm.trans there
    have next {d : Char} (bad : d = '"' ∨ d = '\\') : ahead.head? ≠ some d := by
      refine head?_ahead isAhead fun same => ?_
      have other := spared (Nat.lt_succ_self p) lt same
      exact bad.elim other.1 other.2
    exact read_in_string (by decide) fun _ => ⟨next (.inl rfl), next (.inr rfl)⟩
  · have other := spared behind before there
    exact read_string_plain other.1 other.2

theorem Nest.lexeme (nest : Nest s (a :: outer)) (inside : p ≤ l.text.length)
    (asked : .lexeme f ∈ a.asks) (read : lineTree? f = some tree)
    (member : w ∈ tree.ways l.text opened p saved) :
    Moves l.content p w.1 s s ∧ p < w.1 ∧ w.1 ≤ l.content.length := by
  rcases Area.lexemes_of_asked asked with ⟨is, one⟩ | ⟨rfl, rfl⟩
  · obtain ⟨n, rfl⟩ := Area.state_of_isRound is nest
    obtain ⟨tree', read', spared⟩ := exists_tree (List.all_eq_true.1 lexemes_spare f one)
    cases read.symm.trans read'
    simp only [Bool.and_eq_true, Bool.not_eq_true'] at spared
    have lt := Regex.Node.lt_of_not_nullable tree spared.2 inside member
    have spares := Regex.Node.spares_of_avoids specials tree spared.1 inside member
    have start : p ≤ l.content.length := by
      rw [length_text] at spares
      omega
    exact ⟨moves_spared (Nat.le_of_lt lt) spares.2.2, lt, le_of_spares (by decide) start spares.2.2⟩
  · obtain ⟨n, rfl⟩ := nest.string_state
    cases read.symm.trans tree_escape
    obtain ⟨here, ⟨stop, c, next, other⟩ | ⟨lt, spares⟩⟩ := mem_ways_escape member
    · have room := lt_of_ne_newline next other
      rw [stop]
      exact ⟨moves_two (content_of_text here (by decide)) (content_of_text next other)
        fun _ => read_escaped, by omega, by omega⟩
    · have room := lt_of_ne_newline here (by decide)
      exact ⟨moves_escape here lt spares, by omega, le_of_spares (by decide) room spares⟩

theorem Nest.mode_of_silent (nest : Nest s (a :: outer))
    (edge : s.mode ≠ .code → p ≤ l.content.length)
    (silent : Silent a.patterns l.text p l.text.length) : s.mode = .code := by
  have feed : l.text[l.content.length]? = some '\n' := text_getElem?_content
  have room := (List.getElem?_eq_some_iff.1 feed).1
  cases nest with
  | round | comment => rfl
  | string =>
    have none := silent _ (by decide) _ tree_stringEnd _ (edge (by simp)) room room
    exact absurd none (ways_stringEnd_ne_nil (.inr (.inl feed)))
  | rest =>
    have none := silent _ (by decide) _ tree_lineCommentClosing _ (edge (by simp)) room room
    exact absurd none (ways_lineEnd_ne_nil feed)

end Match

end ScopeGrammar.WebAssembly
