import ScopeGrammar.Proofs.Scan.Ends
import ScopeGrammar.Proofs.Scan.Known

/-!
Giving a line up is exact. A scan that gives lines up ends on every line, it gives a line up exactly
where the unchecked scan never ends, and where the unchecked scan ends the two agree.
-/

set_option autoImplicit false

namespace ScopeGrammar.Scan

open Regex (Found)

/-- The frames on top that have been entered from a position of the line. -/
def here (l : Line) (pos : Nat) (stack : List Frame) : List Frame :=
  stack.takeWhile fun frame => frame.line = l.number && frame.pos = pos

/-- Every frame of the line has been entered by an unchecked step that did not lead further than to
the given position. -/
def Trail (search : Search) (r : Repository) (l : Line) (pos : Nat) : List Frame → Prop
  | [] => True
  | frame :: below =>
    (frame.line = l.number → ∃ tokens p,
      freeStep search r l frame.pos below = .ok (tokens, .moved p (frame :: below)) ∧ p ≤ pos) ∧
    Trail search r l pos below

variable {search : Search} {r : Repository} {l : Line} {pos : Nat} {stack : List Frame}
  {choice : Choice} {found : Found}

theorem Trail.mono {pos' : Nat} (trail : Trail search r l pos stack) (le : pos ≤ pos') :
    Trail search r l pos' stack := by
  induction stack with
  | nil => trivial
  | cons frame below ih =>
    refine ⟨fun same => ?_, ih trail.2⟩
    obtain ⟨tokens, p, stepped, before⟩ := trail.1 same
    exact ⟨tokens, p, stepped, Nat.le_trans before le⟩

theorem trail_of_earlier (earlier : ∀ frame ∈ stack, frame.line < l.number) :
    Trail search r l pos stack := by
  induction stack with
  | nil => trivial
  | cons frame below ih =>
    refine ⟨fun same => ?_, ih fun frame member => earlier frame (by simp [member])⟩
    have lt := earlier frame (by simp)
    omega

theorem Trail.top {frame : Frame} {below : List Frame}
    (trail : Trail search r l pos (frame :: below)) (line : frame.line = l.number)
    (start : frame.pos = pos) :
    ∃ tokens, freeStep search r l pos below = .ok (tokens, .moved pos (frame :: below)) := by
  obtain ⟨tokens, p, stepped, le⟩ := trail.1 line
  rw [start] at stepped
  obtain ⟨choice, found, -, same, -⟩ := freeStep_moved stepped
  have equal : p = pos := by omega
  exact ⟨tokens, equal ▸ stepped⟩

theorem take_trail (trail : Trail search r l pos stack)
    (chosen : choose search r.rules (context r stack) pos = .ok (some (choice, found))) :
    Trail search r l (max pos found.whole.stop)
      (choice.take l pos (context r stack) stack found).2 := by
  have stepped := freeStep_of_choose_some (l := l) chosen
  have later := trail.mono (Nat.le_max_left pos found.whole.stop)
  cases choice with
  | close =>
    cases stack with
    | nil => trivial
    | cons frame outer => exact later.2
  | apply candidate =>
    obtain ⟨leaf, names⟩ := candidate
    cases leaf with
    | single rule => exact later
    | region site region children =>
      exact ⟨fun _ => ⟨_, _, stepped, Nat.le_refl _⟩, later⟩

/-- At the position, inside a region of the first leaf, the unchecked scan enters one of the second
without moving on. -/
def Enters (search : Search) (r : Repository) (l : Line) (pos : Nat) (outer inner : Leaf) : Prop :=
  ∀ frame below, frame.leaf = outer → ∃ tokens frame',
    freeStep search r l pos (frame :: below) = .ok (tokens, .moved pos (frame' :: frame :: below)) ∧
      frame'.leaf = inner

theorem choose_congr_leaf {frame frame' : Frame} (same : frame'.leaf = frame.leaf)
    (below below' : List Frame) :
    choose search r.rules (context r (frame' :: below')) pos =
      choose search r.rules (context r (frame :: below)) pos := by
  simp only [Frame.leaf, Leaf.region.injEq] at same
  obtain ⟨site, region, children⟩ := same
  simp only [choose, context, site, region, children]

theorem enters_of_choose {frame : Frame} {below : List Frame} {site : Site} {region : Region}
    {children : List Pattern} {names : List String}
    (chosen : choose search r.rules (context r (frame :: below)) pos =
      .ok (some (.apply ⟨.region site region children, names⟩, found)))
    (still : found.whole.stop ≤ pos) :
    Enters search r l pos frame.leaf (.region site region children) := by
  intro frame' below' same
  rw [← choose_congr_leaf same below below'] at chosen
  have stepped := freeStep_of_choose_some (l := l) chosen
  rw [Nat.max_eq_left still] at stepped
  exact ⟨_, _, stepped, rfl⟩

theorem enters_of_freeStep {frame inner : Frame} {below : List Frame} {tokens : List Token}
    (stepped : freeStep search r l pos (frame :: below) =
      .ok (tokens, .moved pos (inner :: frame :: below))) :
    Enters search r l pos frame.leaf inner.leaf := by
  obtain ⟨choice, found, chosen, still, same⟩ := freeStep_moved stepped
  cases choice with
  | close =>
    have size := congrArg List.length same
    simp only [Choice.take, List.length_cons] at size
    omega
  | apply candidate =>
    obtain ⟨leaf, names⟩ := candidate
    cases leaf with
    | single rule =>
      have size := congrArg List.length same
      simp [Choice.take] at size
    | region site region children =>
      simp only [Choice.take, List.cons.injEq] at same
      rw [same.1]
      exact enters_of_choose chosen (by omega)

theorem enters_chain {last : Leaf} {frames rest : List Frame}
    (trail : Trail search r l pos (frames ++ rest))
    (all : ∀ frame ∈ frames, frame.line = l.number ∧ frame.pos = pos)
    (top : ∀ frame ∈ frames.head?, Enters search r l pos frame.leaf last) :
    ∀ frame ∈ frames, ∃ inner ∈ last :: frames.map Frame.leaf,
      Enters search r l pos frame.leaf inner := by
  induction frames generalizing last with
  | nil => simp
  | cons first frames ih =>
    intro frame member
    rcases List.mem_cons.1 member with rfl | later
    · exact ⟨last, by simp, top _ rfl⟩
    · have next : ∀ frame ∈ frames.head?, Enters search r l pos frame.leaf first.leaf := by
        intro second is
        cases frames with
        | nil => simp at is
        | cons head frames =>
          simp only [List.head?_cons, Option.mem_some_iff] at is
          subst is
          obtain ⟨line, start⟩ := all first (by simp)
          obtain ⟨tokens, stepped⟩ := trail.top line start
          exact enters_of_freeStep stepped
      obtain ⟨inner, among, enters⟩ :=
        ih trail.2 (fun frame member => all frame (by simp [member])) next frame later
      exact ⟨inner, List.mem_cons_of_mem last among, enters⟩

theorem endless_of_repeated {site : Site} {region : Region} {children : List Pattern}
    {names : List String} (known : Known r stack) (trail : Trail search r l pos stack)
    (chosen : choose search r.rules (context r stack) pos =
      .ok (some (.apply ⟨.region site region children, names⟩, found)))
    (still : found.whole.stop ≤ pos) (repeated : (here l pos stack).any (·.site = site) = true) :
    Endless (freeStep search r l) pos stack := by
  have whole : stack = here l pos stack ++ stack.dropWhile fun frame =>
      frame.line = l.number && frame.pos = pos := List.takeWhile_append_dropWhile.symm
  have all : ∀ frame ∈ here l pos stack, frame.line = l.number ∧ frame.pos = pos := by
    intro frame member
    have is := List.all_eq_true.1 List.all_takeWhile frame member
    simpa using is
  generalize here l pos stack = frames at whole all repeated
  generalize stack.dropWhile (fun frame => frame.line = l.number && frame.pos = pos) = rest at whole
  subst whole
  obtain ⟨twin, among, sameSite⟩ := List.any_eq_true.1 repeated
  have leaf : .region site region children ∈ frames.map Frame.leaf := by
    have inside := known_of_choose known chosen
    have inside' := known twin (List.mem_append_left _ among)
    rw [Frame.leaf, of_decide_eq_true sameSite] at inside'
    obtain ⟨sameRegion, sameChildren⟩ := region_unique inside' inside
    refine List.mem_map.2 ⟨twin, among, ?_⟩
    rw [Frame.leaf, of_decide_eq_true sameSite, sameRegion, sameChildren]
  cases frames with
  | nil => simp at among
  | cons first frames =>
    have top : ∀ frame ∈ (first :: frames).head?,
        Enters search r l pos frame.leaf (.region site region children) := by
      rintro _ ⟨⟩
      exact enters_of_choose chosen still
    have chain := enters_chain trail all top
    refine endless_of_closed (fun p stack => p = pos ∧ ∃ frame below,
      stack = frame :: below ∧ frame.leaf ∈ (first :: frames).map Frame.leaf) ?_
      ⟨rfl, first, frames ++ rest, rfl, by simp⟩
    rintro _ _ ⟨rfl, frame, below, rfl, member⟩
    obtain ⟨frame', member', same⟩ := List.mem_map.1 member
    obtain ⟨inner, inside, enters⟩ := chain frame' member'
    obtain ⟨tokens, next, stepped, is⟩ := enters frame below same.symm
    refine ⟨tokens, _, _, stepped, rfl, next, _, rfl, ?_⟩
    rw [is]
    rcases List.mem_cons.1 inside with rfl | inside
    · exact leaf
    · exact inside

theorem endless_of_stalls (known : Known r stack) (trail : Trail search r l pos stack)
    (chosen : choose search r.rules (context r stack) pos = .ok (some (choice, found)))
    (stalls : choice.stalls l pos stack found = true) : Endless (freeStep search r l) pos stack := by
  simp only [Choice.stalls, Bool.and_eq_true, decide_eq_true_eq] at stalls
  obtain ⟨still, nowhere⟩ := stalls
  have stepped := freeStep_of_choose_some (l := l) chosen
  rw [Nat.max_eq_left still] at stepped
  cases choice with
  | close =>
    cases stack with
    | nil => simp at nowhere
    | cons frame outer =>
      -- The step that entered the region leads from behind its end to where the region ends.
      simp only [List.head?_cons, Option.any_some, Bool.and_eq_true, decide_eq_true_eq] at nowhere
      obtain ⟨tokens, entered⟩ := trail.top nowhere.1 nowhere.2
      refine endless_of_closed
        (fun p stack => p = pos ∧ (stack = frame :: outer ∨ stack = outer)) ?_ ⟨rfl, .inl rfl⟩
      rintro _ _ ⟨rfl, rfl | rfl⟩
      · exact ⟨_, _, _, stepped, rfl, .inr rfl⟩
      · exact ⟨_, _, _, entered, rfl, .inl rfl⟩
  | apply candidate =>
    obtain ⟨leaf, names⟩ := candidate
    cases leaf with
    | single rule =>
      refine endless_of_closed (fun p stack' => p = pos ∧ stack' = stack) ?_ ⟨rfl, rfl⟩
      rintro _ _ ⟨rfl, rfl⟩
      exact ⟨_, _, _, stepped, rfl, rfl⟩
    | region site region children => exact endless_of_repeated known trail chosen still nowhere

section Measure

def Leaf.site? : Leaf → Option Site
  | .single _ => none
  | .region site _ _ => some site

/-- The regions of the repository that have not been entered from here. -/
def unentered (r : Repository) (l : Line) (pos : Nat) (stack : List Frame) : List Site :=
  ((leaves r).filterMap Leaf.site?).filter (· ∉ (here l pos stack).map Frame.site)

/-- How many regions can be left without moving on, until one is entered from here. -/
def leavable (l : Line) (pos : Nat) (stack : List Frame) : Nat :=
  if (here l pos stack).isEmpty then stack.length + 1 else 0

theorem leavable_le (l : Line) (pos : Nat) (stack : List Frame) :
    leavable l pos stack ≤ stack.length + 1 := by
  unfold leavable
  split <;> omega

theorem here_cons_of_not {frame : Frame} {outer : List Frame}
    (other : (frame.line = l.number && frame.pos = pos) = false) :
    here l pos (frame :: outer) = [] := by
  simp [here, other]

theorem unentered_lt {frame : Frame} (known : frame.leaf ∈ leaves r)
    (is : here l pos (frame :: stack) = frame :: here l pos stack)
    (new : frame.site ∉ (here l pos stack).map Frame.site) :
    (unentered r l pos (frame :: stack)).length < (unentered r l pos stack).length := by
  have fewer : unentered r l pos (frame :: stack) =
      (unentered r l pos stack).filter (· ≠ frame.site) := by
    simp only [unentered, is, List.map_cons, List.filter_filter]
    congr 1
    funext site
    by_cases same : site = frame.site <;> simp [same]
  rw [fewer]
  refine List.length_filter_lt_length_iff_exists.2 ⟨frame.site, ?_, by simp⟩
  refine List.mem_filter.2 ⟨List.mem_filterMap.2 ⟨_, known, rfl⟩, by simpa using new⟩

/-- A match that does not move on leaves a region entered elsewhere, or enters a region anew. -/
theorem measure_lt (known : Known r stack)
    (chosen : choose search r.rules (context r stack) pos = .ok (some (choice, found)))
    (goes : choice.stalls l pos stack found = false) (still : found.whole.stop ≤ pos) :
    leavable l pos (choice.take l pos (context r stack) stack found).2 < leavable l pos stack ∨
      (leavable l pos (choice.take l pos (context r stack) stack found).2 = leavable l pos stack ∧
        (unentered r l pos (choice.take l pos (context r stack) stack found).2).length <
          (unentered r l pos stack).length) := by
  simp only [Choice.stalls, still, decide_true, Bool.true_and] at goes
  cases choice with
  | close =>
    obtain ⟨before, f, after, split, -⟩ := choose_some chosen
    have member : ⟨.close, f⟩ ∈ offers r.rules (context r stack) := by simp [split]
    cases stack with
    | nil =>
      rcases offers_cases member with ⟨-, closing⟩ | ⟨c, -, apply, -⟩
      · simp [context] at closing
      · simp at apply
    | cons frame outer =>
      left
      simp only [List.head?_cons, Option.any_some] at goes
      have most := leavable_le l pos outer
      simp only [leavable, here_cons_of_not goes, List.isEmpty_nil, if_true, List.length_cons]
      exact Nat.lt_succ_of_le most
  | apply candidate =>
    have inside := known_of_choose known chosen
    obtain ⟨leaf, names⟩ := candidate
    cases leaf with
    | single rule => simp at goes
    | region site region children =>
      simp only [Choice.take]
      generalize entered : Frame.mk site region children _ l.number pos _ _ _ = frame
      have is : here l pos (frame :: stack) = frame :: here l pos stack := by
        simp [here, ← entered]
      have new : frame.site ∉ (here l pos stack).map Frame.site := by
        intro member
        obtain ⟨other, among, same⟩ := List.mem_map.1 member
        have not := List.any_eq_false.1 goes other among
        simp [same, ← entered] at not
      have fewer := unentered_lt (by rw [← entered]; exact inside) is new
      cases empty : (here l pos stack).isEmpty with
      | true =>
        left
        simp [leavable, is, empty]
      | false =>
        right
        exact ⟨by simp [leavable, is, empty], fewer⟩

end Measure

theorem ends_cases {size : Nat} (within : search.Within size) {pos : Nat} {stack : List Frame}
    (inside : pos ≤ size) (known : Known r stack) (trail : Trail search r l pos stack) :
    ∃ result, Ends (step search r l) pos stack result ∧
      (((∃ line, result = .ok line ∧ line.stalled = true) ∧
          Endless (freeStep search r l) pos stack) ∨
        ((∀ line, result = .ok line → line.stalled = false) ∧
          Ends (freeStep search r l) pos stack result)) := by
  cases chosen : choose search r.rules (context r stack) pos with
  | error defect =>
    obtain ⟨free, guarded⟩ := freeStep_of_choose_error (l := l) chosen
    exact ⟨_, .failed guarded, .inr ⟨by simp, .failed free⟩⟩
  | ok result =>
    cases result with
    | none =>
      refine ⟨_, .finished (step_of_choose_none chosen), .inr ⟨?_, ?_⟩⟩
      · rintro _ ⟨⟩
        rfl
      · exact .finished (freeStep_of_choose_none chosen)
    | some result =>
      obtain ⟨choice, found⟩ := result
      have stepped := step_of_choose_some (l := l) chosen
      cases stalls : choice.stalls l pos stack found with
      | true =>
        rw [stalls, if_pos rfl] at stepped
        exact ⟨_, .stalled stepped, .inl ⟨⟨_, rfl, rfl⟩, endless_of_stalls known trail chosen stalls⟩⟩
      | false =>
        rw [stalls, if_neg (by simp)] at stepped
        have free := freeStep_of_choose_some (l := l) chosen
        have range := choose_within within inside chosen
        have inside' : max pos found.whole.stop ≤ size := by omega
        obtain ⟨result, ends, verdict⟩ := ends_cases within inside' (take_known known chosen)
          (take_trail trail chosen)
        refine ⟨_, .moved stepped ends, ?_⟩
        rcases verdict with ⟨⟨line, rfl, stalled⟩, endless⟩ | ⟨finished, same⟩
        · refine .inl ⟨⟨_, rfl, stalled⟩, fun other ends' => ?_⟩
          obtain ⟨rest, later, -⟩ := ends'.of_moved free
          exact endless rest later
        · refine .inr ⟨?_, .moved free same⟩
          intro line is
          cases result with
          | error defect => cases is
          | ok rest =>
            cases is
            exact finished rest rfl
termination_by (size - pos, leavable l pos stack, (unentered r l pos stack).length)
decreasing_by
  rcases Nat.lt_or_ge pos found.whole.stop with moves | still
  · exact Prod.Lex.left _ _ (by omega)
  · rw [Nat.max_eq_left still]
    refine Prod.Lex.right _ ?_
    rcases measure_lt known chosen stalls still with fewer | ⟨same, fewer⟩
    · exact Prod.Lex.left _ _ fewer
    · rw [same]
      exact Prod.Lex.right _ fewer

/-- Whatever finds matches in a line, and whatever regions are open before it: scanning the line
ends, it gives the line up exactly where the unchecked scan never ends, and where the unchecked scan
ends the tokens and the stack are the same. -/
theorem stalls_exactly (r : Repository) (l : Line) (search : Search)
    (within : search.Within l.text.length) (stack : List Frame)
    (entered : ∀ frame ∈ stack, frame.line < l.number ∧ frame.leaf ∈ leaves r) :
    ∃ result, Ends (step search r l) 0 stack result ∧
      (∀ other, Ends (step search r l) 0 stack other → other = result) ∧
      (∃ most, ∀ room, most ≤ room → scanFrom search r l room 0 stack = result) ∧
      ((∃ line, result = .ok line ∧ line.stalled = true) ↔
        Endless (freeStep search r l) 0 stack) ∧
      ∀ free, Ends (freeStep search r l) 0 stack free → free = result := by
  have known : Known r stack := fun frame member => (entered frame member).2
  have trail : Trail search r l 0 stack :=
    trail_of_earlier fun frame member => (entered frame member).1
  obtain ⟨result, ends, verdict⟩ := ends_cases within (Nat.zero_le _) known trail
  refine ⟨result, ends, fun other ends' => ends'.unique ends, scanFrom_of_ends ends, ?_, ?_⟩
  · rcases verdict with ⟨stalled, endless⟩ | ⟨finished, same⟩
    · exact ⟨fun _ => endless, fun _ => stalled⟩
    · constructor
      · rintro ⟨line, is, stalled⟩
        simp [finished line is] at stalled
      · exact fun endless => absurd same (endless result)
  · intro free ends'
    rcases verdict with ⟨-, endless⟩ | ⟨-, same⟩
    · exact absurd ends' (endless free)
    · exact ends'.unique same

/-- A region that begins and ends before an `x`, and reads nothing. -/
def idle : Region :=
  ⟨.ofString "(?=x)", .ofString "(?=x)", none, none, .empty, .empty⟩

def idling : Repository :=
  ⟨⟨"Idling", "source.idling", []⟩, [.inline (.region idle [])], .empty⟩

/-- What a search for such a region finds in a line that begins with its only `x`. -/
def findIdle : Search := fun _ pos => .ok (if pos = 0 then some ⟨⟨0, 0⟩, []⟩ else none)

def idleFrame : Frame := ⟨⟨.entry, [0]⟩, idle, [], "<inline>", 0, 0, ["source.idling"], ["source.idling"], []⟩

/-- The region of the line before is left, one is entered, and it cannot be left again. -/
theorem stalls_exactly_idling :
    findIdle.Within (Line.text ⟨1, ['x']⟩).length ∧
      (∀ frame ∈ [idleFrame], frame.line < 1 ∧ frame.leaf ∈ leaves idling) ∧
      Endless (freeStep findIdle idling ⟨1, ['x']⟩) 0 [idleFrame] := by
  have within : findIdle.Within (Line.text ⟨1, ['x']⟩).length := by
    intro f pos found inside answered
    unfold findIdle at answered
    split at answered
    · rename_i zero
      cases answered
      exact ⟨Nat.le_of_eq zero, Nat.le_refl _, Nat.zero_le _⟩
    · simp at answered
  have entered : ∀ frame ∈ [idleFrame], frame.line < 1 ∧ frame.leaf ∈ leaves idling := by
    intro frame member
    rw [List.mem_singleton.1 member]
    exact ⟨Nat.zero_lt_one, List.mem_singleton.2 rfl⟩
  obtain ⟨result, -, only, -, exact', -⟩ :=
    stalls_exactly idling ⟨1, ['x']⟩ findIdle within [idleFrame] entered
  have left : step findIdle idling ⟨1, ['x']⟩ 0 [idleFrame] = .ok ([], .moved 0 []) := rfl
  have again : step findIdle idling ⟨1, ['x']⟩ 0 [] =
      .ok ([], .moved 0 [{ idleFrame with line := 1 }]) := rfl
  have stuck : step findIdle idling ⟨1, ['x']⟩ 0 [{ idleFrame with line := 1 }] =
      .ok ([], .stalled) := rfl
  have ends := Ends.moved left (.moved again (.stalled stuck))
  exact ⟨within, entered, exact'.1 ⟨_, (only _ ends).symm, rfl⟩⟩

end ScopeGrammar.Scan
