import ScopeGrammar.Proofs.WebAssembly.Nesting

/-!
A line that begins in a form without a keyword is scanned as the reader reads it: step by step the
regions that are open mirror the state of the reader, no step stalls, and no parenthesis is marked
as unexpected.
-/

set_option autoImplicit false

namespace ScopeGrammar.WebAssembly

open Scan
open Regex (Found)

/-- The regions of a scan are areas that mirror the state of the reader. -/
structure Mirrors (stack : List Frame) (areas : List Area) (s : Reading) : Prop where
  known : Known grammar stack
  bare : Bare unexpected stack
  sites : stack.map (·.site) = areas.map Area.site
  nest : Nest s areas

def Entered (l : Line) (pos : Nat) (stack : List Frame) : Prop :=
  ∀ frame ∈ stack, frame.line ≤ l.number ∧ (frame.line = l.number → frame.pos < pos)

structure Holds (l : Line) (pos : Nat) (stack : List Frame) (areas : List Area) (s : Reading) : Prop
    extends Mirrors stack areas s where
  entered : Entered l pos stack
  inside : pos ≤ l.text.length
  edge : s.mode ≠ .code → pos ≤ l.content.length

def rank (l : Line) (pos : Nat) (s : Reading) : Nat :=
  l.text.length - pos + if s.mode = .rest then 1 else 0

def Follows (l : Line) (pos : Nat) (s : Reading) : Outcome → Prop
  | .finished => s.mode = .code ∧ ∃ q, pos ≤ q ∧ l.content.length ≤ q ∧ Moves l.content pos q s s
  | .stalled => False
  | .moved pos' stack' =>
    pos ≤ pos' ∧ ∃ areas' s', Moves l.content pos pos' s s' ∧ Holds l pos' stack' areas' s' ∧
      rank l pos' s' < rank l pos s

section Step

variable {l : Line} {pos : Nat} {frame : Frame} {outer : List Frame} {a : Area}
  {areas : List Area} {s : Reading} {found : Found}

theorem not_stray_of_asked {leaf : Leaf} {ask : Ask} (asked : ask ∈ a.asks)
    (is : outline leaf = ask.outline) : isStray leaf = false := by
  cases leaf with
  | region site region children => rfl
  | single rule =>
    cases ask with
    | area b => simp [outline, Ask.outline] at is
    | lexeme f =>
      simp only [outline, Ask.outline, Prod.mk.injEq, true_and] at is
      have other : f ≠ rightParenthesis := by
        rintro rfl
        revert asked
        cases a <;> decide
      simp [isStray, isUnexpected, is, other]

theorem Entered.later {pos' : Nat} {stack : List Frame} (entered : Entered l pos stack)
    (le : pos ≤ pos') : Entered l pos' stack := fun frame member =>
  ⟨(entered frame member).1, fun same => Nat.lt_of_lt_of_le ((entered frame member).2 same) le⟩

theorem follows_close (inLine : '\n' ∉ l.content)
    (holds : Holds l pos (frame :: outer) (a :: areas) s) (range : pos ≤ found.whole.start)
    (gap : Moves l.content pos found.whole.start s s)
    (answered : searchIn l.text a.closing pos = .ok (some found)) :
    Follows l pos s (if Choice.close.stalls l pos (frame :: outer) found then .stalled
      else .moved (max pos found.whole.stop) outer) := by
  obtain ⟨tree, read⟩ := tree_of_searchIn answered
  obtain ⟨-, w, member, stop⟩ := found_way read holds.inside answered
  obtain ⟨s', moves, mode, nest, reads⟩ := holds.nest.close inLine read member
  have within := searchIn_within l.text _ _ _ holds.inside answered
  rw [stop] at moves reads
  have moving : Choice.close.stalls l pos (frame :: outer) found = false := by
    have before := (holds.entered frame (by simp)).2
    simp only [Choice.stalls, List.head?_cons, Option.any_some, Bool.and_eq_false_iff,
      decide_eq_false_iff_not]
    by_cases same : frame.line = l.number
    · have lt := before same
      exact .inr (.inr (by omega))
    · exact .inr (.inl same)
  have sites := (List.cons.inj holds.sites).2
  rw [moving, if_neg (by simp), Nat.max_eq_right (by omega)]
  refine ⟨by omega, areas, s', gap.trans range within.2.1 moves, ⟨⟨?_, ?_, sites, nest⟩, ?_, within.2.2, ?_⟩, ?_⟩
  · exact fun other inside => holds.known other (List.mem_cons_of_mem _ inside)
  · exact fun other inside => holds.bare other (List.mem_cons_of_mem _ inside)
  · exact fun other inside => (holds.entered.later (by omega)) other (List.mem_cons_of_mem _ inside)
  · exact fun other => absurd mode other
  · simp only [rank, mode]
    split at reads
    · rename_i comment
      have rest : s.mode = .rest := by
        have nest := holds.nest
        rw [comment] at nest
        cases nest with
        | round is => simp [Area.isRound] at is
        | rest => rfl
      simp [rest]
      omega
    · simp
      omega

theorem sites_of_enter {site : Site} {region : Region} {children : List Pattern} {names : List String}
    {stack : List Frame} :
    (((Choice.apply ⟨.region site region children, names⟩).take l pos (context grammar stack) stack
      found).2).map (·.site) = site :: stack.map (·.site) := rfl

theorem Entered.take {stack : List Frame} (choice : Choice) (entered : Entered l pos stack)
    (lt : pos < found.whole.stop) :
    Entered l found.whole.stop (choice.take l pos (context grammar stack) stack found).2 := by
  have before := entered.later (Nat.le_of_lt lt)
  cases choice with
  | close =>
    cases stack with
    | nil => exact before
    | cons frame outer => exact fun other inside => before other (List.mem_cons_of_mem _ inside)
  | apply candidate =>
    obtain ⟨leaf, names⟩ := candidate
    cases leaf with
    | single rule => exact before
    | region site region children =>
      intro frame member
      rcases List.mem_cons.1 member with rfl | inside
      · exact ⟨Nat.le_refl _, fun _ => lt⟩
      · exact before frame inside

theorem alone_of_first {b : Area} {p : Nat} (asked : .area b ∈ a.asks)
    (alone : .area b ∈ a.first ∨ ∀ other ∈ a.first, ∀ tree, lineTree? other.pattern = some tree →
      tree.ways l.text 0 p [] = [])
    (here : b.isRound = true → l.text[p]? = some '(') (is : b.isRound = true) :
    l.text[p + 1]? ≠ some ';' := by
  intro semicolon
  rcases alone with first | none
  · exact Area.not_first_of_isRound is first
  · rcases Area.isRound_of_asked asked with round | ⟨-, rfl⟩
    · have no := none _ (Area.blockComment_first round) _ tree_blockCommentStart
      exact ways_group_pair_ne_nil (here is) semicolon no
    · simp [Area.isRound] at is

theorem follows_ask (holds : Holds l pos (frame :: outer) (a :: areas) s) {ask : Ask} {leaf : Leaf}
    {names : List String} (asked : ask ∈ a.asks) (is : outline leaf = ask.outline)
    (alone : ask ∈ a.first ∨ ∀ other ∈ a.first, ∀ tree, lineTree? other.pattern = some tree →
      tree.ways l.text 0 found.whole.start [] = [])
    (range : pos ≤ found.whole.start) (gap : Moves l.content pos found.whole.start s s)
    (answered : searchIn l.text ask.pattern pos = .ok (some found))
    (known : Known grammar ((Choice.apply ⟨leaf, names⟩).take l pos (context grammar (frame :: outer))
      (frame :: outer) found).2)
    (bare : Bare unexpected ((Choice.apply ⟨leaf, names⟩).take l pos
      (context grammar (frame :: outer)) (frame :: outer) found).2) :
    Follows l pos s (if (Choice.apply ⟨leaf, names⟩).stalls l pos (frame :: outer) found then .stalled
      else .moved (max pos found.whole.stop) ((Choice.apply ⟨leaf, names⟩).take l pos
        (context grammar (frame :: outer)) (frame :: outer) found).2) := by
  obtain ⟨tree, read⟩ := tree_of_searchIn answered
  obtain ⟨start, w, member, stop⟩ := found_way read holds.inside answered
  have size := length_text l
  have moving (lt : found.whole.start < found.whole.stop) :
      (Choice.apply ⟨leaf, names⟩).stalls l pos (frame :: outer) found = false := by
    simp only [Choice.stalls, Bool.and_eq_false_iff, decide_eq_false_iff_not]
    exact .inl (by omega)
  cases ask with
  | area b =>
    have here : b.isRound = true → l.text[found.whole.start]? = some '(' := fun round =>
      (opening_of_isRound round read member).1
    obtain ⟨s', moves, nest, lt, further, room⟩ := holds.nest.enter start asked read member
      (alone_of_first asked alone here)
    rw [stop] at moves lt further room
    cases leaf with
    | single rule => simp [outline, Ask.outline] at is
    | region site region children =>
      simp only [outline, Ask.outline, Prod.mk.injEq, Option.some.injEq] at is
      rw [moving lt, if_neg (by simp), Nat.max_eq_right (by omega)]
      refine ⟨by omega, b :: a :: areas, s', gap.trans range (Nat.le_of_lt lt) moves,
        ⟨⟨known, bare, ?_, nest⟩, holds.entered.take _ (by omega), by omega, fun _ => room⟩, ?_⟩
      · rw [sites_of_enter, holds.sites, is.1]
        rfl
      · simp only [rank]
        split
        · rename_i rest
          have two := further rest
          omega
        · omega
  | lexeme f =>
    obtain ⟨moves, lt, room⟩ := holds.nest.lexeme start asked read member
    rw [stop] at moves lt room
    cases leaf with
    | region site region children => simp [outline, Ask.outline] at is
    | single rule =>
      rw [moving lt, if_neg (by simp), Nat.max_eq_right (by omega)]
      refine ⟨by omega, a :: areas, s, gap.trans range (Nat.le_of_lt lt) moves,
        ⟨⟨known, bare, holds.sites, holds.nest⟩, holds.entered.take _ (by omega), by omega,
          fun _ => room⟩, ?_⟩
      simp only [rank]
      omega

theorem step_follows (inLine : '\n' ∉ l.content)
    (holds : Holds l pos (frame :: outer) (a :: areas) s) :
    ∃ tokens outcome, step (searchIn l.text) grammar l pos (frame :: outer) = .ok (tokens, outcome) ∧
      (∀ t ∈ tokens, Unmarked unexpected t.scopes) ∧ Follows l pos s outcome := by
  have is : Described a frame :=
    described (holds.known frame (by simp)) (List.cons.inj holds.sites).1
  have clipped {p q : Nat} {rules : List String} :
      ∀ t ∈ l.clipped p q (context grammar (frame :: outer)).scopes rules,
        Unmarked unexpected t.scopes := clipped_unmarked holds.bare root_unmarked
  obtain ⟨result, chosen⟩ := choose_answers holds.known l.text pos
  cases result with
  | none =>
    have silent := silent_of_none is chosen
    refine ⟨_, _, step_of_choose_none chosen, clipped, holds.nest.mode_of_silent holds.edge (silent _),
      max pos l.content.length, Nat.le_max_left _ _, Nat.le_max_right _ _, ?_⟩
    exact holds.nest.gap (silent _) (Nat.le_max_left _ _)
  | some result =>
    obtain ⟨choice, found⟩ := result
    have range := choose_within (searchIn_within l.text) holds.inside chosen
    have gap := holds.nest.gap (silent_before is holds.inside chosen) range.1
    have known := take_known (l := l) holds.known chosen
    have picks := picks_of_choose is holds.inside chosen
    refine ⟨_, _, step_of_choose_some chosen, ?_⟩
    cases picks with
    | close answered =>
      have unmarked := take_unmarked (l := l) .close holds.bare root_unmarked (by simp)
        pos found
      refine ⟨fun t member => ?_, follows_close inLine holds range.1 gap answered⟩
      exact (List.mem_append.1 member).elim (clipped t) (unmarked.1 t)
    | ask ask leaf names asked same answered alone =>
      have given : ∀ candidate, Choice.apply ⟨leaf, names⟩ = .apply candidate →
          Unmarked unexpected candidate.leaf.tags := by
        rintro _ ⟨⟩
        exact unmarked_of_mem (known_of_choose holds.known chosen) (not_stray_of_asked asked same)
      have unmarked := take_unmarked (l := l) _ holds.bare root_unmarked given pos found
      refine ⟨fun t member => ?_, follows_ask holds asked same alone range.1 gap answered known unmarked.2⟩
      exact (List.mem_append.1 member).elim (clipped t) (unmarked.1 t)

end Step

section Root

variable {l : Line} {pos : Nat}

theorem root_reads :
    ((candidates table (.top .entry) entry).all fun c =>
      hasTree c.leaf.pattern fun tree => tree.avoids [] ['\n'] && !tree.nullable) = true := by
  decide +kernel

theorem step_behind (full : l.content.length ≤ pos) (inside : pos ≤ l.text.length) :
    ∃ tokens, step (searchIn l.text) grammar l pos [] = .ok (tokens, .finished) ∧
      ∀ t ∈ tokens, Unmarked unexpected t.scopes := by
  obtain ⟨result, chosen⟩ := choose_answers known_nil l.text pos
  cases result with
  | none =>
    exact ⟨_, step_of_choose_none chosen, clipped_unmarked bare_nil root_unmarked⟩
  | some result =>
    obtain ⟨choice, found⟩ := result
    have range := choose_within (searchIn_within l.text) inside chosen
    obtain ⟨o, there, -, answered⟩ := offer_of_choose chosen
    rcases offers_cases there with ⟨-, closing⟩ | ⟨c, member, -, same⟩
    · simp [context] at closing
    · obtain ⟨tree, read, reads⟩ := exists_tree (List.all_eq_true.1 root_reads c member)
      simp only [Bool.and_eq_true, Bool.not_eq_true'] at reads
      obtain ⟨start, w, way, stop⟩ := found_way (same ▸ read) inside answered
      have lt := Regex.Node.lt_of_not_nullable tree reads.2 start way
      have spared := Regex.Node.spares_of_avoids ['\n'] tree reads.1 start way
      have size := length_text l
      have last := le_of_spares (by decide) (by omega) spared.2.2
      omega

end Root

/-- A line has been read up to its end, with the given numbers of parentheses and block comments
open behind it. -/
structure ReadTo (l : Line) (counts : Nat × Nat) (result : LineResult) : Prop where
  moved : result.stalled = false
  unmarked : ∀ t ∈ result.tokens, Unmarked unexpected t.scopes
  entered : ∀ frame ∈ result.stack, frame.line ≤ l.number
  mirrors : ∃ areas, Mirrors result.stack areas ⟨.code, counts.1, counts.2⟩

section Run

variable {l : Line} {pos first : Nat} {stack : List Frame} {areas : List Area} {s start : Reading}

/-- Where the regions mirror the reader, the rest of the line is read as the reader reads it, if
parentheses are open up to the last character. -/
theorem scanFrom_readTo (inLine : '\n' ∉ l.content)
    (safe : ∀ k, first ≤ k → k < l.content.length → 0 < (start.read (l.content.take k)).1)
    (room : Nat) (le : first ≤ pos) (holds : Holds l pos stack areas s)
    (before : Moves l.content 0 pos start s) (enough : rank l pos s < room) :
    ∃ result, scanFrom (searchIn l.text) grammar l room pos stack = .ok result ∧
      ReadTo l (start.read l.content) result := by
  induction room generalizing pos stack areas s with
  | zero => omega
  | succ room ih =>
    have entered : ∀ frame ∈ stack, frame.line ≤ l.number := fun frame member =>
      (holds.entered frame member).1
    cases stack with
    | nil =>
      have none : areas = [] := by simpa using holds.sites.symm
      subst none
      cases holds.nest
      have closed := before.read_take
      have full : l.content.length ≤ pos := by
        rcases Nat.lt_or_ge pos l.content.length with lt | ge
        · have positive := safe pos le lt
          rw [closed] at positive
          simp at positive
        · exact ge
      obtain ⟨tokens, stepped, unmarked⟩ := step_behind full holds.inside
      rw [List.take_of_length_le full] at closed
      rw [closed]
      exact ⟨_, scanFrom_finished stepped, rfl, unmarked, entered, [], holds.toMirrors⟩
    | cons frame outer =>
      cases areas with
      | nil => simpa using holds.sites
      | cons a areas =>
        obtain ⟨tokens, outcome, stepped, unmarked, follows⟩ := step_follows inLine holds
        cases outcome with
        | finished =>
          obtain ⟨mode, q, ge, full, moves⟩ := follows
          obtain ⟨_, n, m⟩ := s
          cases mode
          have behind := (before.trans (Nat.zero_le _) ge moves).read_take
          rw [List.take_of_length_le full] at behind
          rw [behind]
          exact ⟨_, scanFrom_finished stepped, rfl, unmarked, entered, a :: areas, holds.toMirrors⟩
        | stalled => exact follows.elim
        | moved pos' stack' =>
          obtain ⟨ge, areas', s', moves, holds', smaller⟩ := follows
          obtain ⟨result, scanned, reads⟩ := ih (Nat.le_trans le ge) holds'
            (before.trans (Nat.zero_le _) ge moves) (by omega)
          refine ⟨_, scanFrom_moved stepped scanned, reads.moved, fun t member => ?_, reads.entered,
            reads.mirrors⟩
          exact (List.mem_append.1 member).elim (unmarked t) (reads.unmarked t)

theorem rank_lt_mostSteps (pos : Nat) (s : Reading) (short : byteSize l.content < lineBound) :
    rank l pos s + 1 < mostSteps := by
  have size := length_le_byteSize l.content
  simp only [rank, length_text, mostSteps, lineBound]
    at short ⊢
  split <;> omega

theorem scanLine_readTo {n m : Nat} (inLine : '\n' ∉ l.content)
    (short : byteSize l.content < lineBound)
    (safe : ∀ k, k < l.content.length → 0 < (read .code n m (l.content.take k)).1)
    (mirrors : Mirrors stack areas ⟨.code, n, m⟩) (older : ∀ frame ∈ stack, frame.line < l.number) :
    ∃ result, scanLine (searchIn l.text) grammar l stack = .ok result ∧
      ReadTo l (read .code n m l.content) result := by
  have holds : Holds l 0 stack areas ⟨.code, n, m⟩ :=
    ⟨mirrors, fun frame member => ⟨Nat.le_of_lt (older frame member),
      fun same => absurd same (Nat.ne_of_lt (older frame member))⟩, Nat.zero_le _, by simp⟩
  have safe' : ∀ k, 0 ≤ k → k < l.content.length →
      0 < (Reading.read ⟨.code, n, m⟩ (l.content.take k)).1 := fun k _ => safe k
  exact scanFrom_readTo inLine safe' mostSteps (Nat.le_refl _) holds (Moves.refl _ _ _)
    (Nat.lt_of_succ_lt (rank_lt_mostSteps 0 _ short))

end Run

end ScopeGrammar.WebAssembly
