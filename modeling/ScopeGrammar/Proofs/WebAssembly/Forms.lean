import ScopeGrammar.Proofs.Scan.GivenUp
import ScopeGrammar.Proofs.WebAssembly.Simulation
import ScopeGrammar.Proofs.WebAssembly.Words

set_option autoImplicit false

namespace ScopeGrammar.WebAssembly

open Scan Text Fragment
open Regex (Node CharSet Way Saved Found)

def moduleKeywords : List String := Keyword.module.text :: moduleFields.map (·.1.text)

section Keywords

theorem trees_clause :
    (moduleKeywords.all fun keyword =>
      lineTree? (clauseOpening (.ofString keyword)) = some (clauseTree (word keyword.toList))) = true := by
  decide +kernel

variable {text : List Char} {p opened : Nat} {s : Saved} {w : Way}

theorem ways_blankOrComment {c : Char} (here : text[p]? = some c) (isId : isIdChar c = true) :
    blankOrComment.ways text opened p s = [] := by
  have notBlank : c ≠ ' ' ∧ c ≠ '\t' ∧ c ≠ '(' := by
    refine ⟨?_, ?_, ?_⟩ <;> rintro rfl <;> exact absurd isId (by decide)
  simp [blankOrComment, Node.ways, here, CharSet.mem, notBlank]

theorem word_of_clause {letters : List Char} {c : Char} (next : text[p + 1]? = some c)
    (isId : isIdChar c = true) (member : w ∈ (clauseTree (word letters)).ways text opened p s) :
    ∃ rest, text.drop (p + 1) = letters ++ rest ∧ ∀ d ∈ rest.head?, isIdChar d = false := by
  obtain ⟨q, s', v, between, inside, rfl⟩ := mem_ways_clause member
  rw [ways_many_of_nil (ways_blankOrComment next isId), List.mem_singleton] at between
  cases between
  obtain ⟨isWord, edged⟩ := mem_ways_wholeWord inside
  obtain ⟨behind, drop, stop⟩ := mem_ways_word isWord
  refine ⟨behind, drop, fun d head => edged.behind d ?_⟩
  have shifted := congrArg (List.drop letters.length) drop
  rw [List.drop_drop, List.drop_left, ← stop] at shifted
  rw [← List.head?_drop, shifted, head]
  rfl

theorem moduleKeywords_idChars :
    (moduleKeywords.all fun keyword => keyword.toList.all isIdChar) = true := by decide

end Keywords

/-- A line that begins with a parenthesis and a word that is no keyword of a module's fields. -/
structure Heads (cs head rest : List Char) : Prop where
  begins : cs = '(' :: (head ++ rest)
  notNil : head ≠ []
  idChars : head.all isIdChar = true
  ends : ∀ c ∈ rest.head?, isIdChar c = false
  other : String.ofList head ∉ moduleKeywords

section First

variable {l : Line} {head rest : List Char}

def isRootLeaf (leaf : Leaf) : Bool :=
  [Area.lineComment, .blockComment, .annotated, .form].any (fun b => outline leaf = (Ask.area b).outline) ||
    moduleKeywords.any (fun keyword => leaf.pattern = clauseOpening (.ofString keyword)) ||
    leaf.pattern = rightParenthesis

theorem root_leaves :
    ((candidates table (.top .entry) entry).all fun c => isRootLeaf c.leaf) = true := by
  decide +kernel

theorem Heads.next (heads : Heads l.content head rest) :
    l.text[0]? = some '(' ∧ ∃ c, l.text[1]? = some c ∧ isIdChar c = true := by
  obtain ⟨c, letters, rfl⟩ := List.exists_cons_of_ne_nil heads.notNil
  have isId := List.all_eq_true.1 heads.idChars c (by simp)
  rw [Line.text, heads.begins]
  exact ⟨rfl, c, rfl, isId⟩

theorem Heads.finds (heads : Heads l.content head rest) :
    ∃ choice found, choose (searchIn l.text) grammar.rules (context grammar []) 0 =
      .ok (some (choice, found)) ∧ found.whole.start = 0 := by
  have way : (Node.set (.single '(')).ways l.text 0 0 [] ≠ [] := by
    simp [ways_single, heads.next.1]
  obtain ⟨o, offered, pattern⟩ := offered_of_candidate (context grammar []) root_opener
  have read : lineTree? o.pattern = some (.set (.single '(')) := pattern ▸ tree_leftParenthesis
  obtain ⟨result, chosen⟩ := choose_answers known_nil l.text 0
  cases result with
  | none =>
    exact absurd (way_of_choose_none chosen offered read 0 (Nat.le_refl 0) (Nat.zero_le _)) way
  | some result =>
    obtain ⟨earliest, answered, zero⟩ := searchIn_of_way read (Nat.le_refl 0) (Nat.zero_le _) way
    have least := choose_least chosen o offered earliest answered
    exact ⟨result.1, result.2, chosen, by omega⟩

theorem Heads.isRound (heads : Heads l.content head rest) {b : Area} {tree : Node} {w : Way}
    (listed : b ∈ [Area.lineComment, .blockComment, .annotated, .form])
    (read : lineTree? b.opening = some tree) (way : w ∈ tree.ways l.text 0 0 []) :
    b.isRound = true := by
  obtain ⟨here, c, next, isId⟩ := heads.next
  cases b with
  | form | annotated | nested => rfl
  | string => simp at listed
  | lineComment =>
    cases read.symm.trans tree_lineCommentOpening
    obtain ⟨k, ge, spares, mark, -, -⟩ := mem_ways_lineComment (Nat.zero_le _) way
    rcases Nat.eq_zero_or_pos k with rfl | lt
    · rw [here] at mark
      simp at mark
    · have spared := spares '(' (Regex.mem_piece.2 ⟨0, Nat.le_refl 0, lt, here⟩)
      exact absurd (by decide) spared
  | blockComment =>
    cases read.symm.trans tree_blockCommentStart
    have mark := (mem_ways_group_pair way).2.1
    rw [next] at mark
    cases mark
    exact absurd isId (by decide)

theorem Heads.no_clause (heads : Heads l.content head rest) {keyword : String}
    (listed : keyword ∈ moduleKeywords) {w : Way}
    (way : w ∈ (clauseTree (word keyword.toList)).ways l.text 0 0 []) : False := by
  obtain ⟨-, c, next, isId⟩ := heads.next
  obtain ⟨behind, drop, ends⟩ := word_of_clause next isId way
  have drop' : l.text.drop (0 + 1) = head ++ (rest ++ ['\n']) := by
    simp [Line.text, heads.begins]
  have ends' : ∀ d ∈ (rest ++ ['\n']).head?, isIdChar d = false := by
    intro d first
    cases rest with
    | nil =>
      simp only [List.nil_append, List.head?_cons, Option.mem_def, Option.some.injEq] at first
      exact first ▸ by decide
    | cons c rest => exact heads.ends d first
  have equal := word_unique heads.idChars (List.all_eq_true.1 moduleKeywords_idChars keyword listed)
    (drop'.symm.trans drop) ends' ends
  exact heads.other (by rwa [equal, String.ofList_toList])

theorem Heads.first (heads : Heads l.content head rest) {choice : Choice} {found : Found}
    (chosen : choose (searchIn l.text) grammar.rules (context grammar []) 0 =
      .ok (some (choice, found))) (start : found.whole.start = 0) :
    ∃ (b : Area) (region : Region) (children : List Pattern) (names : List String),
      b.isRound = true ∧ choice = .apply ⟨.region b.site region children, names⟩ ∧
        found.whole.stop = 1 := by
  obtain ⟨o, offered, rfl, answered⟩ := offer_of_choose chosen
  rcases offers_cases offered with ⟨-, closing⟩ | ⟨⟨leaf, names⟩, member, apply, pattern⟩
  · simp [context] at closing
  · rw [pattern] at answered
    have is := List.all_eq_true.1 root_leaves _ member
    simp only [isRootLeaf, Bool.or_eq_true, List.any_eq_true, decide_eq_true_eq] at is
    rcases is with (⟨b, listed, same⟩ | ⟨keyword, listed, same⟩) | same
    · rw [pattern_of_outline same] at answered
      obtain ⟨tree, read⟩ := tree_of_searchIn answered
      obtain ⟨-, w, way, stop⟩ := found_way read (Nat.zero_le _) answered
      rw [start] at way
      have isRound := heads.isRound listed read way
      have behind := (opening_of_isRound isRound read way).2
      cases leaf with
      | single rule => simp [outline, Ask.outline] at same
      | region site region children =>
        simp only [outline, Ask.outline, Prod.mk.injEq, Option.some.injEq] at same
        rw [same.1] at apply
        exact ⟨b, region, children, names, isRound, apply, by omega⟩
    · rw [same] at answered
      have read := of_decide_eq_true (List.all_eq_true.1 trees_clause keyword listed)
      obtain ⟨-, w, way, -⟩ := found_way read (Nat.zero_le _) answered
      rw [start] at way
      exact (heads.no_clause listed way).elim
    · rw [same] at answered
      have mark := (found_single tree_rightParenthesis (Nat.zero_le _) answered).1
      rw [start, heads.next.1] at mark
      simp at mark

theorem Heads.moves (heads : Heads l.content head rest) :
    Moves l.content 0 1 ⟨.code, 0, 0⟩ ⟨.code, 1, 0⟩ := by
  obtain ⟨here, c, next, isId⟩ := heads.next
  refine moves_one (content_of_text here (by decide)) fun ahead isAhead => read_open ?_
  refine head?_ahead isAhead fun same => ?_
  rw [text_of_content same] at next
  cases next
  exact absurd isId (by decide)

theorem Heads.step (heads : Heads l.content head rest) :
    ∃ tokens stack b, step (searchIn l.text) grammar l 0 [] = .ok (tokens, .moved 1 stack) ∧
      (∀ t ∈ tokens, Unmarked unexpected t.scopes) ∧ Holds l 1 stack [b] ⟨.code, 1, 0⟩ := by
  obtain ⟨choice, found, chosen, start⟩ := heads.finds
  obtain ⟨b, region, children, names, isRound, rfl, stop⟩ := heads.first chosen start
  have given : ∀ candidate, Choice.apply ⟨.region b.site region children, names⟩ = .apply candidate →
      Unmarked unexpected candidate.leaf.tags := by
    rintro _ ⟨⟩
    exact unmarked_of_mem (known_of_choose known_nil chosen) rfl
  have unmarked := take_unmarked (l := l) _ bare_nil root_unmarked given 0 found
  have stepped := step_of_choose_some (l := l) chosen
  have moving : (Choice.apply ⟨.region b.site region children, names⟩).stalls l 0 [] found =
      false := by simp [Choice.stalls]
  rw [moving, if_neg (by simp), stop] at stepped
  have entered : Entered l 0 [] := by simp [Entered]
  have behind := entered.take (.apply ⟨.region b.site region children, names⟩)
    (show 0 < found.whole.stop by omega)
  rw [stop] at behind
  refine ⟨_, _, b, stepped, fun t member => ?_,
    ⟨⟨take_known known_nil chosen, unmarked.2, rfl, .round isRound .outside⟩, behind, ?_, by simp⟩⟩
  · refine (List.mem_append.1 member).elim (fun gap => ?_) (unmarked.1 t)
    exact clipped_unmarked bare_nil root_unmarked t gap
  · rw [length_text]
    omega

theorem scanLine_heads (inLine : '\n' ∉ l.content) (short : byteSize l.content < lineBound)
    (heads : Heads l.content head rest)
    (safe : ∀ k, 1 ≤ k → k < l.content.length → 0 < (read .code 0 0 (l.content.take k)).1) :
    ∃ result, scanLine (searchIn l.text) grammar l [] = .ok result ∧
      ReadTo l (read .code 0 0 l.content) result := by
  obtain ⟨tokens, stack, b, stepped, unmarked, holds⟩ := heads.step
  have enough := rank_lt_mostSteps 1 ⟨.code, 1, 0⟩ short
  obtain ⟨room, all⟩ : ∃ room, mostSteps = room + 1 := ⟨9999, rfl⟩
  have safe' : ∀ k, 1 ≤ k → k < l.content.length →
      0 < (Reading.read ⟨.code, 0, 0⟩ (l.content.take k)).1 := safe
  obtain ⟨result, scanned, reads⟩ := scanFrom_readTo inLine safe' room (Nat.le_refl 1) holds
    heads.moves (by omega)
  rw [scanLine, all]
  refine ⟨_, scanFrom_moved stepped scanned, reads.moved, fun t member => ?_, reads.entered,
    reads.mirrors⟩
  exact (List.mem_append.1 member).elim (unmarked t) (reads.unmarked t)

end First

section Text

variable {number : Nat} {stack : List Frame} {start : Nat × Nat}

def LineRead (number : Nat) (stack : List Frame) (start : Nat × Nat) (line : List Char) : Prop :=
  ∃ result, scanLine (searchIn (Line.text ⟨number, line⟩)) grammar ⟨number, line⟩ stack = .ok result ∧
    ReadTo ⟨number, line⟩ (read .code start.1 start.2 line) result

/-- Parentheses are open in the text up to its last character. -/
def StaysOpen (start : Nat × Nat) (cs : List Char) : Prop :=
  ∀ front back, cs = front ++ back → front ≠ [] → back ≠ [] → 0 < (readFrom start front).1

/-- What a scan of a text reports. Before the text the given numbers are open. -/
structure Agrees (start : Nat × Nat) (cs : List Char) (result : Result) : Prop where
  stalled : result.stalledLines = []
  unmarked : result.tokensWithScope unexpected = []
  depth : result.openRegions.length = (readFrom start cs).1 + (readFrom start cs).2

theorem ReadTo.depth {l : Line} {counts : Nat × Nat} {result : LineResult}
    (reads : ReadTo l counts result) : result.stack.length = counts.1 + counts.2 := by
  obtain ⟨areas, mirrors⟩ := reads.mirrors
  have same := congrArg List.length mirrors.sites
  rw [List.length_map, List.length_map] at same
  rw [same, mirrors.nest.length_eq]

theorem ReadTo.next {line next rest : List Char} {counts : Nat × Nat} {result : LineResult}
    (reads : ReadTo ⟨number, line⟩ counts result) (first : (lines rest).head? = some next)
    (short : byteSize next < lineBound)
    (safe : ∀ front back, rest = front ++ back → back ≠ [] → 0 < (readFrom counts front).1) :
    LineRead (number + 1) result.stack counts next := by
  obtain ⟨areas, mirrors⟩ := reads.mirrors
  have inLine := (prefix_of_head_lines first).2
  refine scanLine_readTo inLine short (fun k lt => ?_) mirrors fun frame member =>
    Nat.lt_succ_of_le (reads.entered frame member)
  obtain ⟨same, back, more, whole⟩ := readFrom_take counts first lt
  have positive := safe (next.take k) back whole more
  rwa [same] at positive

theorem scanPlain_agrees (cs : List Char) (number : Nat) (stack : List Frame)
    (start : Nat × Nat) (depth : stack.length = start.1 + start.2)
    (first : ∀ line ∈ (lines cs).head?, LineRead number stack start line)
    (safe : StaysOpen start cs) (short : ∀ line ∈ lines cs, byteSize line < lineBound) :
    ∃ result, scanPlain searchIn grammar number (lines cs) stack = .ok result ∧ Agrees start cs result := by
  revert short
  revert number stack start
  refine lines_induction (motive := fun cs ls => ∀ number stack (start : Nat × Nat),
    stack.length = start.1 + start.2 → (∀ line ∈ ls.head?, LineRead number stack start line) →
    StaysOpen start cs → (∀ line ∈ ls, byteSize line < lineBound) →
    ∃ result, scanPlain searchIn grammar number ls stack = .ok result ∧ Agrees start cs result) ?_ ?_ ?_ cs
  · intro number stack start depth _ _ _
    exact ⟨_, rfl, rfl, rfl, by simpa [readFrom, lines, splitAt] using depth⟩
  · intro line _ inLine number stack start _ first _ _
    obtain ⟨scanned, ok, reads⟩ := first line rfl
    refine ⟨_, scanPlain_cons ok reads.moved rfl, rfl, ?_, ?_⟩
    · simpa [Result.tokensWithScope] using filter_unmarked reads.unmarked
    · rw [readFrom_of_not_mem inLine, ← reads.depth]
      simp
  · intro line rest inLine ih number stack start _ first safe short
    obtain ⟨scanned, ok, reads⟩ := first (chomp line) rfl
    have safe' (front back : List Char) (same : rest = front ++ back) (more : back ≠ []) :
        0 < (readFrom (read .code start.1 start.2 (chomp line)) front).1 := by
      rw [← readFrom_append inLine]
      exact safe (line ++ '\n' :: front) back (by simp [same]) (by simp) more
    have next : ∀ line' ∈ (lines rest).head?, LineRead (number + 1) scanned.stack
        (read .code start.1 start.2 (chomp line)) line' := fun line' head =>
      reads.next head (short line' (List.mem_cons_of_mem _ (List.mem_of_mem_head? head))) safe'
    obtain ⟨result, all, agrees⟩ := ih (number + 1) scanned.stack _ reads.depth next
      (fun front back same _ more => safe' front back same more)
      fun line' member => short line' (List.mem_cons_of_mem _ member)
    refine ⟨_, scanPlain_cons ok reads.moved all, agrees.stalled, ?_, ?_⟩
    · have rest := agrees.unmarked
      simp only [Result.tokensWithScope] at rest ⊢
      rw [List.filter_append, filter_unmarked reads.unmarked, rest]
      rfl
    · rw [readFrom_append inLine]
      exact agrees.depth

end Text

theorem Heads.line {cs head rest line : List Char} (heads : Heads cs head rest)
    (first : (lines cs).head? = some line) : ∃ rest', Heads line head rest' := by
  have none {c : Char} (other : isIdChar c = false) (notOpen : c ≠ '(') : c ∉ '(' :: head := by
    intro member
    rcases List.mem_cons.1 member with same | inside
    · exact notOpen same
    · rw [List.all_eq_true.1 heads.idChars c inside] at other
      simp at other
  have begins : '(' :: head <+: cs := ⟨rest, heads.begins.symm⟩
  obtain ⟨rest', whole⟩ := prefix_head_lines begins (none (by decide) (by decide))
    (none (by decide) (by decide)) first
  have behind := (prefix_of_head_lines first).1
  rw [← whole, heads.begins] at behind
  have within : rest' <+: rest := (List.prefix_append_right_inj ('(' :: head)).1 behind
  refine ⟨rest', whole.symm, heads.notNil, heads.idChars, fun c next => heads.ends c ?_, heads.other⟩
  obtain ⟨more, rfl⟩ := within
  rw [List.head?_append, next]
  rfl

/-- Unless a search is given up, in a form without a keyword the open regions are the parentheses and
block comments that the reader leaves open, and no parenthesis is marked. -/
theorem scan_form (source : String) (head rest : List Char) (heads : Heads source.toList head rest)
    (short : ∀ line ∈ lines source.toList, byteSize line < 9000)
    (safe : ∀ front back, source.toList = front ++ back → front ≠ [] → back ≠ [] →
      0 < (readText front).1) :
    ∃ r result, repository = .ok r ∧
      (∀ engine, UnlessGivenUp engine r (lines source.toList) (scanBy engine r source)
        (.ok result)) ∧
      result.stalledLines = [] ∧ result.tokensWithScope unexpected = [] ∧
      result.openRegions.length = (readText source.toList).1 + (readText source.toList).2 := by
  have first : ∀ line ∈ (lines source.toList).head?, LineRead 0 [] (0, 0) line := by
    intro line first
    obtain ⟨rest', begins⟩ := heads.line first
    refine scanLine_heads (prefix_of_head_lines first).2
      (short line (List.mem_of_mem_head? first)) begins fun k pos lt => ?_
    obtain ⟨same, back, more, whole⟩ := readFrom_take (0, 0) first lt
    have positive := safe (line.take k) back whole ?_ more
    · rwa [readText, same] at positive
    · intro none
      have few := congrArg List.length none
      rw [List.length_take, List.length_nil] at few
      simp only at lt
      omega
  obtain ⟨result, scanned, agrees⟩ := scanPlain_agrees source.toList 0 [] (0, 0) rfl first safe short
  exact ⟨grammar, result, repository_eq, scanBy_of_scanPlain scanned, agrees.stalled,
    agrees.unmarked, agrees.depth⟩

def unfinished : String := "(if (; ) (; ;) ;) \"\\\") (\" ;; ))\n(@note (a \")\n(; open"

theorem scan_form_unfinished :
    Heads unfinished.toList ['i', 'f'] (unfinished.toList.drop 3) ∧
      (∀ line ∈ lines unfinished.toList, byteSize line < 9000) ∧
      (∀ front back, unfinished.toList = front ++ back → front ≠ [] → back ≠ [] →
        0 < (readText front).1) ∧
      ∃ r result, repository = .ok r ∧ scanBy .patient r unfinished = .ok result ∧
        result.stalledLines = [] ∧ result.tokensWithScope unexpected = [] ∧ result.openRegions.length = 4 := by
  have blank : (unfinished.toList.drop 3).head? = some ' ' := by decide +kernel
  have heads : Heads unfinished.toList ['i', 'f'] (unfinished.toList.drop 3) := by
    refine ⟨by decide +kernel, by decide, by decide, fun c next => ?_, by decide +kernel⟩
    rw [blank] at next
    cases next
    decide
  have short : ∀ line ∈ lines unfinished.toList, byteSize line < 9000 := by decide +kernel
  have bounded : ∀ k < unfinished.toList.length, 0 < k →
      0 < (readText (unfinished.toList.take k)).1 := by decide +kernel
  have safe (front back : List Char) (same : unfinished.toList = front ++ back) (some : front ≠ [])
      (more : back ≠ []) : 0 < (readText front).1 := by
    have behind := List.length_pos_iff.2 more
    have inside := bounded front.length (by rw [same, List.length_append]; omega)
      (List.length_pos_iff.2 some)
    rwa [same, List.take_left] at inside
  have depth : readText unfinished.toList = (3, 1) := by decide +kernel
  obtain ⟨r, result, built, scanned, stalled, unmarked, count⟩ :=
    scan_form unfinished ['i', 'f'] (unfinished.toList.drop 3) heads short safe
  rw [depth] at count
  exact ⟨heads, short, safe, r, result, built, unlessGivenUp_patient.1 (scanned .patient), stalled,
    unmarked, count⟩

end ScopeGrammar.WebAssembly
