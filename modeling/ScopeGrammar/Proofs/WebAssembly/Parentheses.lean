import ScopeGrammar.Proofs.Text.Parentheses
import ScopeGrammar.Proofs.WebAssembly.Leaves

/-!
A text without quotes and semicolons is scanned by its parentheses alone. Every opening one enters a
region, whatever stands behind it, every closing one leaves the innermost region, and a closing one
without an opening one is marked.
-/

set_option autoImplicit false

namespace ScopeGrammar.WebAssembly

open Scan Text
open Regex (Found Spares piece piece_append piece_succ mem_piece)

structure Quiet (l : Line) : Prop where
  calm : ∀ c ∈ l.content, c ∉ loud
  inLine : '\n' ∉ l.content

structure Rounds (stack : List Frame) : Prop where
  known : Known grammar stack
  bare : Bare unexpected stack
  round : ∀ frame ∈ stack, RoundRegion frame.site frame.region frame.children

def marked (tokens : List Token) : List Token := tokens.filter (·.hasScope unexpected)

def closingAt (place : Nat × Nat) : Nat × Nat × Nat × String :=
  (place.1, place.2, place.2 + 1, ")")

/-- What has been read between two positions has gone by the parentheses there. -/
structure Reads (l : Line) (p q n m : Nat) (tokens : List Token) : Prop where
  depth : m = depthAfter n (piece l.text p q)
  places : (marked tokens).map Token.place =
    (strays l.number (byteSize (l.text.take p)) n (piece l.text p q)).map closingAt

section Line

variable {l : Line} {p q : Nat}

theorem Quiet.calm_text (quiet : Quiet l) : ∀ c ∈ l.text, c ∉ loud := by
  intro c member
  rcases List.mem_append.1 member with inside | behind
  · exact quiet.calm c inside
  · rw [List.mem_singleton.1 behind]
    decide

theorem Quiet.newline_not_mem (quiet : Quiet l) (inside : q ≤ l.content.length) :
    '\n' ∉ piece l.text p q := by
  intro member
  obtain ⟨i, -, lt, here⟩ := mem_piece.1 member
  rw [Line.text, List.getElem?_append_left (by omega)] at here
  exact quiet.inLine (List.mem_of_getElem? here)

theorem unbracketed_of_spares (spares : Spares l.text brackets p q) :
    Unbracketed (piece l.text p q) :=
  ⟨fun member => spares _ member (by decide), fun member => spares _ member (by decide)⟩

end Line

section Reads

variable {l : Line} {p q q' n m k : Nat} {tokens tokens' : List Token}

theorem Reads.trans (quiet : Quiet l) (le : p ≤ q) (le' : q ≤ q') (inside : q ≤ l.content.length)
    (first : Reads l p q n m tokens) (second : Reads l q q' m k tokens') :
    Reads l p q' n k (tokens ++ tokens') := by
  have front : l.text.take q = l.text.take p ++ piece l.text p q := by
    have whole := piece_append l.text (Nat.zero_le p) le
    simpa [piece] using whole
  constructor
  · rw [piece_append l.text le le', depthAfter_append, ← first.depth, second.depth]
  · rw [piece_append l.text le le', strays_append (quiet.newline_not_mem inside), List.map_append,
      ← first.places, ← first.depth, ← byteSize_append, ← front, ← second.places]
    simp [marked]

theorem reads_unbracketed (quiet : Quiet l) (inside : q ≤ l.content.length)
    (plain : Unbracketed (piece l.text p q))
    (unmarked : ∀ t ∈ tokens, Unmarked unexpected t.scopes) : Reads l p q n n tokens where
  depth := (depthAfter_of_unbracketed plain n).symm
  places := by
    rw [marked, filter_unmarked unmarked,
      strays_of_unbracketed (quiet.newline_not_mem inside) plain]
    rfl

theorem reads_opening (quiet : Quiet l) (here : l.text[p]? = some '(') (lt : p < q)
    (inside : q ≤ l.content.length) (plain : Unbracketed (piece l.text (p + 1) q))
    (unmarked : ∀ t ∈ tokens, Unmarked unexpected t.scopes) :
    Reads l p q n (n + 1) tokens where
  depth := by
    rw [piece_append l.text (Nat.le_succ p) lt, piece_succ here, depthAfter_append,
      depthAfter_of_unbracketed plain]
    rfl
  places := by
    have none := strays_of_unbracketed (quiet.newline_not_mem inside) plain
    rw [marked, filter_unmarked unmarked, piece_append l.text (Nat.le_succ p) lt,
      piece_succ here]
    simp [strays, none]

theorem reads_closing (here : l.text[p]? = some ')')
    (unmarked : ∀ t ∈ tokens, Unmarked unexpected t.scopes) :
    Reads l p (p + 1) (n + 1) n tokens where
  depth := by
    rw [piece_succ here]
    rfl
  places := by
    rw [marked, filter_unmarked unmarked, piece_succ here]
    simp [strays]

end Reads

section Stack

variable {stack : List Frame}

theorem opener_offered (rounds : Rounds stack) :
    ∃ o ∈ offers grammar.rules (context grammar stack), o.pattern = leftParenthesis := by
  cases stack with
  | nil => exact offered_of_candidate _ root_opener
  | cons frame outer =>
    exact offered_of_candidate _ (rounds.round frame (by simp)).opener

theorem closer_offered (rounds : Rounds stack) :
    ∃ o ∈ offers grammar.rules (context grammar stack), o.pattern = rightParenthesis := by
  cases stack with
  | nil => exact offered_of_candidate _ root_closer
  | cons frame outer =>
    refine ⟨⟨.close, frame.region.closing⟩, ?_, (rounds.round frame (by simp)).closing⟩
    exact List.mem_append_left _ (by simp [context])

end Stack

section Match

variable {l : Line} {stack : List Frame} {pos : Nat} {found : Found}

/-- A match of a choice has gone by its parentheses, and has read something. -/
structure Takes (l : Line) (pos : Nat) (stack : List Frame) (choice : Choice) (found : Found) :
    Prop where
  lt : found.whole.start < found.whole.stop
  inside : found.whole.stop ≤ l.content.length
  round : ∀ frame ∈ (choice.take l pos (context grammar stack) stack found).2,
    RoundRegion frame.site frame.region frame.children
  reads : Reads l found.whole.start found.whole.stop stack.length
    (choice.take l pos (context grammar stack) stack found).2.length
    (choice.take l pos (context grammar stack) stack found).1

theorem takes_close {frame : Frame} {outer : List Frame} (rounds : Rounds (frame :: outer))
    (inside : pos ≤ l.text.length)
    (answered : searchIn l.text frame.region.closing pos = .ok (some found)) :
    Takes l pos (frame :: outer) .close found := by
  rw [(rounds.round frame (by simp)).closing] at answered
  obtain ⟨here, stop⟩ := found_single tree_rightParenthesis inside answered
  have stop' : found.whole.stop ≤ l.content.length := by
    rw [stop]
    exact lt_of_ne_newline here (by decide)
  refine ⟨by omega, stop', fun other member => rounds.round other (List.mem_cons_of_mem _ member), ?_⟩
  rw [stop]
  exact reads_closing here (take_unmarked _ rounds.bare root_unmarked (by simp) pos found).1

theorem takes_around (quiet : Quiet l) (rounds : Rounds stack) (inside : pos ≤ l.text.length)
    {rule : MatchRule} {names : List String} (reads : readsAround rule = true)
    (unmarked : ∀ t ∈ ((Choice.apply ⟨.single rule, names⟩).take l pos (context grammar stack)
      stack found).1, Unmarked unexpected t.scopes)
    (answered : searchIn l.text rule.pattern pos = .ok (some found)) :
    Takes l pos stack (.apply ⟨.single rule, names⟩) found := by
  obtain ⟨tree, read, is⟩ := exists_tree reads
  simp only [Bool.and_eq_true, Bool.not_eq_true'] at is
  obtain ⟨le, w, member, stop⟩ := found_way read inside answered
  have lt := Regex.Node.lt_of_not_nullable tree is.2 le member
  have spared := Regex.Node.ways_of_avoids quiet.calm_text tree is.1 0 _ [] le w member
  rw [stop] at lt spared
  have start : found.whole.start ≤ l.content.length := by
    have size := length_text l
    omega
  have stop' := le_of_spares (by decide) start spared.2.2
  exact ⟨lt, stop', rounds.round,
    reads_unbracketed quiet stop' (unbracketed_of_spares spared.2.2) unmarked⟩

theorem takes_region (quiet : Quiet l) (rounds : Rounds stack) (inside : pos ≤ l.text.length)
    {site : Site} {region : Region} {children : List Pattern} {names : List String}
    (round : RoundRegion site region children)
    (unmarked : ∀ t ∈ ((Choice.apply ⟨.region site region children, names⟩).take l pos
      (context grammar stack) stack found).1, Unmarked unexpected t.scopes)
    (answered : searchIn l.text region.opening pos = .ok (some found)) :
    Takes l pos stack (.apply ⟨.region site region children, names⟩) found := by
  obtain ⟨tree, read, opens⟩ := exists_tree round.opening
  obtain ⟨le, w, member, stop⟩ := found_way read inside answered
  obtain ⟨here, lt, spared⟩ := Regex.Node.ways_of_opens quiet.calm_text tree opens le member
  rw [stop] at lt spared
  have stop' := le_of_spares (by decide) (Nat.succ_le_of_lt (lt_of_ne_newline here (by decide))) spared
  refine ⟨lt, stop', ?_,
    reads_opening quiet here lt stop' (unbracketed_of_spares spared) unmarked⟩
  intro frame member
  rcases List.mem_cons.1 member with rfl | outer
  · exact round
  · exact rounds.round frame outer

theorem takes_unexpected {rule : MatchRule} {names : List String} (inside : pos ≤ l.text.length)
    (stray : isUnexpected rule = true)
    (answered : searchIn l.text rule.pattern pos = .ok (some found)) :
    Takes l pos [] (.apply ⟨.single rule, names⟩) found := by
  simp only [isUnexpected, Bool.and_eq_true, decide_eq_true_eq] at stray
  obtain ⟨⟨pattern, scope⟩, empty⟩ := stray
  rw [pattern] at answered
  obtain ⟨here, stop⟩ := found_single tree_rightParenthesis inside answered
  have stop' : found.whole.stop ≤ l.content.length := by
    rw [stop]
    exact lt_of_ne_newline here (by decide)
  refine ⟨by omega, stop', by simp [Choice.take], ?_⟩
  constructor
  · rw [stop, piece_succ here]
    rfl
  · simp only [Choice.take, captured_of_isEmpty empty, Line.clipped, Nat.min_eq_left stop', scope]
    rw [stop, piece_single here, piece_succ here, marked, List.filter_cons_of_pos]
    · rfl
    · exact hasScope_of_last (by decide) rfl

theorem not_unexpected_inside {frame : Frame} {outer : List Frame} (rounds : Rounds (frame :: outer))
    (inside : pos ≤ l.text.length) {rule : MatchRule} {names : List String}
    (stray : isUnexpected rule = true)
    (answered : searchIn l.text rule.pattern pos = .ok (some found)) :
    choose (searchIn l.text) grammar.rules (context grammar (frame :: outer)) pos ≠
      .ok (some (.apply ⟨.single rule, names⟩, found)) := by
  intro chosen
  simp only [isUnexpected, Bool.and_eq_true, decide_eq_true_eq] at stray
  rw [stray.1.1] at answered
  obtain ⟨here, -⟩ := found_single tree_rightParenthesis inside answered
  have range := searchIn_within l.text _ _ _ inside answered
  rcases choose_front [⟨.close, frame.region.closing⟩] rfl chosen with
    ⟨o, member, same, -⟩ | ⟨-, behind⟩
  · rw [List.mem_singleton.1 member] at same
    cases same
  · have read := tree_rightParenthesis
    rw [← (rounds.round frame (by simp)).closing] at read
    have after := behind ⟨.close, frame.region.closing⟩ (by simp)
    have none := way_of_after (by omega) after read _ range.1 (Nat.le_refl _)
    simp [ways_single, here] at none

theorem takes_of_choose (quiet : Quiet l) (rounds : Rounds stack) (inside : pos ≤ l.text.length)
    {choice : Choice}
    (chosen : choose (searchIn l.text) grammar.rules (context grammar stack) pos =
      .ok (some (choice, found))) :
    Takes l pos stack choice found ∧
      Bare unexpected (choice.take l pos (context grammar stack) stack found).2 := by
  obtain ⟨o, there, rfl, answered⟩ := offer_of_choose chosen
  rcases offers_cases there with ⟨close, closing⟩ | ⟨⟨leaf, names⟩, member, apply, same⟩
  · rw [close]
    cases stack with
    | nil => simp [context] at closing
    | cons frame outer =>
      simp only [context, Option.some.injEq] at closing
      rw [← closing] at answered
      exact ⟨takes_close rounds inside answered,
        (take_unmarked _ rounds.bare root_unmarked (by simp) pos found).2⟩
  · rw [same] at answered
    rw [apply] at chosen ⊢
    have known := context_candidate rounds.known _ member
    have suited := suits_of_mem known
    cases stray : isStray leaf with
    | true =>
      cases leaf with
      | region site region children => simp [isStray] at stray
      | single rule =>
        cases stack with
        | nil => exact ⟨takes_unexpected inside stray answered, by simp [Bare, Choice.take]⟩
        | cons frame outer => exact absurd chosen (not_unexpected_inside rounds inside stray answered)
    | false =>
      have tags : ∀ candidate, Choice.apply ⟨leaf, names⟩ = .apply candidate →
          Unmarked unexpected candidate.leaf.tags := by
        rintro _ ⟨⟩
        exact unmarked_of_mem known stray
      refine ⟨?_, (take_unmarked _ rounds.bare root_unmarked tags pos found).2⟩
      have unmarked := take_unmarked (l := l) _ rounds.bare root_unmarked tags pos found
      cases leaf with
      | single rule =>
        simp only [isStray] at stray
        simp only [suits, stray, Bool.or_false] at suited
        exact takes_around quiet rounds inside suited unmarked.1 answered
      | region site region children =>
        simp only [suits, Bool.or_eq_true] at suited
        rcases suited with never | round
        · obtain ⟨tree, read, needs⟩ := exists_tree never
          obtain ⟨-, w, way, -⟩ := found_way read inside answered
          rw [Regex.Node.ways_of_needs quiet.calm_text tree needs] at way
          simp at way
        · exact takes_region quiet rounds inside (roundRegion_of_isRound round) unmarked.1
            answered

theorem unbracketed_of_ways (rounds : Rounds stack) {q : Nat}
    (none : ∀ o ∈ offers grammar.rules (context grammar stack), ∀ tree,
      lineTree? o.pattern = some tree → ∀ i, pos ≤ i → i < q → i < l.text.length →
        tree.ways l.text 0 i [] = []) : Unbracketed (piece l.text pos q) := by
  have absent {f : Fragment} {c : Char} (read : lineTree? f = some (.set (.single c)))
      (offered : ∃ o ∈ offers grammar.rules (context grammar stack), o.pattern = f) :
      c ∉ piece l.text pos q := by
    intro member
    obtain ⟨o, there, same⟩ := offered
    obtain ⟨i, ge, lt, here⟩ := mem_piece.1 member
    have noWay := none o there _ (same ▸ read) i ge lt (List.getElem?_eq_some_iff.1 here).1
    simp [ways_single, here] at noWay
  exact ⟨absent tree_leftParenthesis (opener_offered rounds),
    absent tree_rightParenthesis (closer_offered rounds)⟩

end Match

def Leads (l : Line) (pos : Nat) (stack : List Frame) (tokens : List Token) : Outcome → Prop
  | .finished => Reads l pos l.content.length stack.length stack.length tokens
  | .stalled => False
  | .moved pos' stack' =>
    pos < pos' ∧ pos' ≤ l.content.length ∧ Rounds stack' ∧
      Reads l pos pos' stack.length stack'.length tokens

theorem step_leads {l : Line} (quiet : Quiet l) {pos : Nat} (inside : pos ≤ l.content.length)
    {stack : List Frame} (rounds : Rounds stack) :
    ∃ tokens outcome, step (searchIn l.text) grammar l pos stack = .ok (tokens, outcome) ∧
      Leads l pos stack tokens outcome := by
  have inside' : pos ≤ l.text.length := by
    simp only [Line.text, List.length_append]
    omega
  obtain ⟨result, chosen⟩ := choose_answers rounds.known l.text pos
  cases result with
  | none =>
    refine ⟨_, _, step_of_choose_none chosen, ?_⟩
    have plain : Unbracketed (piece l.text pos l.content.length) :=
      unbracketed_of_ways rounds fun o there tree read i ge _ room =>
        way_of_choose_none chosen there read i ge (Nat.le_of_lt room)
    exact reads_unbracketed quiet (Nat.le_refl _) plain (clipped_unmarked rounds.bare root_unmarked)
  | some result =>
    obtain ⟨choice, found⟩ := result
    obtain ⟨takes, bare⟩ := takes_of_choose quiet rounds inside' chosen
    have range := choose_within (searchIn_within l.text) inside' chosen
    have lt := takes.lt
    have stop := takes.inside
    have moves : choice.stalls l pos stack found = false := by
      simp only [Choice.stalls, Bool.and_eq_false_iff, decide_eq_false_iff_not]
      exact .inl (by omega)
    refine ⟨_, _, step_of_choose_some chosen, ?_⟩
    rw [if_neg (by simp [moves]), Nat.max_eq_right (by omega)]
    refine ⟨by omega, stop, ⟨take_known rounds.known chosen, bare, takes.round⟩, ?_⟩
    refine Reads.trans quiet range.1 (Nat.le_of_lt lt) (by omega) ?_ takes.reads
    have plain : Unbracketed (piece l.text pos found.whole.start) :=
      unbracketed_of_ways rounds fun o there tree read i ge lt _ =>
        way_before_choice inside' chosen there read i ge lt
    exact reads_unbracketed quiet (by omega) plain (clipped_unmarked rounds.bare root_unmarked)

/-- The rest of a line leaves as many regions open as parentheses, and marks the strays. -/
theorem scanFrom_reads {l : Line} (quiet : Quiet l) (room : Nat) {pos : Nat}
    (inside : pos ≤ l.content.length) (enough : l.content.length - pos < room)
    {stack : List Frame} (rounds : Rounds stack) :
    ∃ result, scanFrom (searchIn l.text) grammar l room pos stack = .ok result ∧
      result.stalled = false ∧ Rounds result.stack ∧
      Reads l pos l.content.length stack.length result.stack.length result.tokens := by
  induction room generalizing pos stack with
  | zero => omega
  | succ room ih =>
    obtain ⟨tokens, outcome, stepped, leads⟩ := step_leads quiet inside rounds
    cases outcome with
    | finished => exact ⟨_, scanFrom_finished stepped, rfl, rounds, leads⟩
    | stalled => exact leads.elim
    | moved pos' stack' =>
      obtain ⟨lt, inside', rounds', reads⟩ := leads
      obtain ⟨result, scanned, moved, rounds'', reads'⟩ := ih inside' (by omega) rounds'
      exact ⟨_, scanFrom_moved stepped scanned, moved, rounds'',
        reads.trans quiet (Nat.le_of_lt lt) inside' inside' reads'⟩

theorem scanLine_reads {l : Line} (quiet : Quiet l) (short : byteSize l.content < lineBound)
    {stack : List Frame} (rounds : Rounds stack) :
    ∃ result, scanLine (searchIn l.text) grammar l stack = .ok result ∧
      result.stalled = false ∧ Rounds result.stack ∧
      result.stack.length = depthAfter stack.length l.content ∧
      (marked result.tokens).map Token.place =
        (strays l.number 0 stack.length l.content).map closingAt := by
  have size := length_le_byteSize l.content
  obtain ⟨result, scanned, moved, rounds', reads⟩ := scanFrom_reads quiet mostSteps
    (Nat.zero_le _) (by simp only [mostSteps, lineBound] at short ⊢; omega) rounds
  have whole : piece l.text 0 l.content.length = l.content := by simp [piece, Line.text]
  have depth := reads.depth
  have places := reads.places
  rw [whole] at depth places
  exact ⟨result, scanned, moved, rounds', depth, places⟩

end ScopeGrammar.WebAssembly
