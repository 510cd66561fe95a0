import ScopeGrammar.Proofs.WebAssembly.Leaves

set_option autoImplicit false

namespace ScopeGrammar.WebAssembly

open Scan

inductive Area where
  | form
  | annotated
  | nested
  | string
  | lineComment
  | blockComment
  deriving DecidableEq, Repr

namespace Area

def all : List Area := [form, annotated, nested, string, lineComment, blockComment]

theorem mem_all (a : Area) : a ∈ all := by cases a <;> decide

def name : Area → String
  | .form => WebAssembly.form
  | .annotated => "annotation"
  | .nested => "annotationParens"
  | .string => "string"
  | .lineComment => "lineComment"
  | .blockComment => "blockComment"

def site (a : Area) : Site := .top (.rule a.name)

def opening : Area → Fragment
  | .form | .nested => leftParenthesis
  | .annotated => annotationOpening
  | .string => quote
  | .lineComment => lineCommentOpening
  | .blockComment => blockCommentStart.capture

def closing : Area → Fragment
  | .form | .annotated | .nested => rightParenthesis
  | .string => stringEnd
  | .lineComment => lineCommentClosing
  | .blockComment => blockCommentEnd.capture

def isRound : Area → Bool
  | .form | .annotated | .nested => true
  | .string | .lineComment | .blockComment => false

end Area

/-- What is asked for in an area: another area or a lexeme. -/
inductive Ask where
  | area (a : Area)
  | lexeme (f : Fragment)
  deriving DecidableEq

def Ask.pattern : Ask → Fragment
  | .area a => a.opening
  | .lexeme f => f

def outline : Leaf → Option Site × Fragment
  | .single rule => (none, rule.pattern)
  | .region site region _ => (some site, region.opening)

theorem outline_pattern (leaf : Leaf) : (outline leaf).2 = leaf.pattern := by cases leaf <;> rfl

def Ask.outline : Ask → Option Site × Fragment
  | .area a => (some a.site, a.opening)
  | .lexeme f => (none, f)

namespace Area

def first : Area → List Ask
  | .form | .nested => [.area .lineComment, .area .blockComment]
  | .annotated => [.lexeme annotationName, .area .lineComment, .area .blockComment]
  | .string | .lineComment | .blockComment => []

def later : Area → List Ask
  | .form =>
    [.area .annotated, .area .string, .lexeme constInstruction, .lexeme identifier, .area .form]
  | .annotated | .nested => [.area .nested, .area .string]
  | .string => [.lexeme escape]
  | .lineComment => []
  | .blockComment => [.area .blockComment]

def asks (a : Area) : List Ask := a.first ++ a.later

def isDescribed (a : Area) : Bool :=
  match table.get? a.name with
  | some (.region region children) =>
    region.closing = a.closing &&
      (candidates table a.site children).map (outline ·.leaf) = a.asks.map Ask.outline
  | _ => false

theorem all_described : all.all isDescribed = true := by decide +kernel

end Area

/-- The closing pattern of a region that the area stands for, and the candidates in it. -/
structure Described (a : Area) (frame : Frame) : Prop where
  closing : frame.region.closing = a.closing
  candidates : (candidates table frame.site frame.children).map (outline ·.leaf) =
    a.asks.map Ask.outline

theorem described {a : Area} {frame : Frame} (known : frame.leaf ∈ leaves grammar)
    (stands : frame.site = a.site) : Described a frame := by
  have is := List.all_eq_true.1 Area.all_described a a.mem_all
  unfold Area.isDescribed at is
  split at is
  · rename_i region children registered
    have there : .region a.site region children ∈ leaves grammar :=
      patternLeaves_subset (r := grammar) registered (by simp [Area.site])
    rw [Frame.leaf, stands] at known
    obtain ⟨sameRegion, sameChildren⟩ := region_unique known there
    simp only [Bool.and_eq_true, decide_eq_true_eq] at is
    exact ⟨sameRegion ▸ is.1, by rw [stands, sameChildren]; exact is.2⟩
  · simp at is

theorem pattern_of_outline {leaf : Leaf} {ask : Ask} (same : outline leaf = ask.outline) :
    leaf.pattern = ask.pattern := by
  cases leaf <;> cases ask <;> simp_all [outline, Ask.outline, Ask.pattern, Leaf.pattern]

theorem patterns_offered (ctx : Context) :
    (offers grammar.rules ctx).map (·.pattern) =
      ctx.closing.toList ++
        ((candidates table ctx.site ctx.children).map (outline ·.leaf)).map (·.2) := by
  simp only [offers, List.map_append, List.map_map, Function.comp_def, List.map_id', outline_pattern]
  rfl

theorem offers_outlined (ctx : Context) {front back : List (Option Site × Fragment)}
    {x : Option Site × Fragment}
    (same : (candidates table ctx.site ctx.children).map (outline ·.leaf) = front ++ x :: back) :
    ∃ first c last, offers grammar.rules ctx = first ++ Offer.mk (.apply c) c.leaf.pattern :: last ∧
      outline c.leaf = x ∧ first.map (·.pattern) = ctx.closing.toList ++ front.map (·.2) := by
  obtain ⟨cs, rest, split, before, after⟩ := List.map_eq_append_iff.1 same
  obtain ⟨c, later, rfl, is, -⟩ := List.map_eq_cons_iff.1 after
  refine ⟨ctx.closing.toList.map (Offer.mk .close ·) ++
      cs.map fun c => Offer.mk (.apply c) c.leaf.pattern, c,
    later.map fun c => Offer.mk (.apply c) c.leaf.pattern, ?_, is, ?_⟩
  · rw [offers, show candidates grammar.rules _ _ = _ from split]
    simp
  · simp [← before, Function.comp_def, outline_pattern]

theorem region_first {stack : List Frame} {text : List Char} {p q : Nat} {first last : List Offer}
    {c : Candidate} {site : Site} {f : Fragment} {tree : Regex.Node} (known : Known grammar stack)
    (split : offers grammar.rules (context grammar stack) =
      first ++ Offer.mk (.apply c) c.leaf.pattern :: last)
    (outlined : outline c.leaf = (some site, f)) (read : lineTree? f = some tree) (ge : p ≤ q)
    (le : q ≤ text.length) (way : tree.ways text 0 q [] ≠ [])
    (quiet : ∀ o ∈ offers grammar.rules (context grammar stack), ∀ tree,
      lineTree? o.pattern = some tree → ∀ i, p ≤ i → i < q → tree.ways text 0 i [] = [])
    (silent : ∀ o ∈ first, ∀ tree, lineTree? o.pattern = some tree →
      tree.ways text 0 q [] = []) :
    ∃ region children names found, .region site region children ∈ leaves grammar ∧
      choose (searchIn text) grammar.rules (context grammar stack) p =
        .ok (some (.apply ⟨.region site region children, names⟩, found)) ∧
      searchIn text f p = .ok (some found) ∧ found.whole.start = q := by
  obtain ⟨leaf, names⟩ := c
  obtain rfl : leaf.pattern = f := by rw [← outline_pattern, outlined]
  obtain ⟨found, chosen, answered, start⟩ :=
    choose_first (choose_answers known text p) split read ge le way quiet silent
  have member := known_of_choose known chosen
  cases leaf with
  | single rule => cases congrArg Prod.fst outlined
  | region site' region children =>
    obtain rfl : site' = site := Option.some.inj (congrArg Prod.fst outlined)
    exact ⟨region, children, names, found, member, chosen, answered, start⟩

def Area.patterns (a : Area) : List Fragment := a.closing :: a.asks.map Ask.pattern

section

variable {a : Area} {frame : Frame} {outer : List Frame} {text : List Char} {pos : Nat}

theorem patterns_of_offers (is : Described a frame) :
    (offers grammar.rules (context grammar (frame :: outer))).map (·.pattern) = a.patterns := by
  have ask (x : Ask) : x.outline.2 = x.pattern := by cases x <;> rfl
  rw [patterns_offered]
  simp only [context, Option.toList_some, List.cons_append, List.nil_append, is.closing,
    is.candidates, List.map_map, Function.comp_def, ask, Area.patterns]

theorem offers_split (is : Described a frame) :
    ∃ front back : List Candidate,
      offers grammar.rules (context grammar (frame :: outer)) =
        (Offer.mk .close a.closing :: front.map fun c => Offer.mk (.apply c) c.leaf.pattern) ++
          (back.map fun c => Offer.mk (.apply c) c.leaf.pattern) ∧
      front.map (outline ·.leaf) = a.first.map Ask.outline ∧
      back.map (outline ·.leaf) = a.later.map Ask.outline := by
  have split := is.candidates
  rw [Area.asks, List.map_append, List.map_eq_append_iff] at split
  obtain ⟨front, back, all, first, later⟩ := split
  refine ⟨front, back, ?_, first, later⟩
  simp only [offers, context, is.closing, Option.toList_some, List.map_cons, List.map_nil]
  rw [show candidates grammar.rules frame.site frame.children = front ++ back from all]
  simp

theorem ask_of_outlines {cs : List Candidate} {asks : List Ask} {c : Candidate}
    (same : cs.map (outline ·.leaf) = asks.map Ask.outline) (member : c ∈ cs) :
    ∃ ask ∈ asks, outline c.leaf = ask.outline := by
  have there : outline c.leaf ∈ asks.map Ask.outline :=
    same ▸ List.mem_map.2 ⟨c, member, rfl⟩
  obtain ⟨ask, inside, equal⟩ := List.mem_map.1 there
  exact ⟨ask, inside, equal.symm⟩

theorem candidate_of_outlines {cs : List Candidate} {asks : List Ask} {ask : Ask}
    (same : cs.map (outline ·.leaf) = asks.map Ask.outline) (member : ask ∈ asks) :
    ∃ c ∈ cs, c.leaf.pattern = ask.pattern := by
  have there : ask.outline ∈ cs.map (outline ·.leaf) := same ▸ List.mem_map.2 ⟨ask, member, rfl⟩
  obtain ⟨c, inside, equal⟩ := List.mem_map.1 there
  exact ⟨c, inside, pattern_of_outline equal⟩

/-- What a step in an area takes: its end, or an ask, and one of the later asks only where the
first ones have no way. -/
inductive Picks (a : Area) (text : List Char) (pos : Nat) (found : Regex.Found) : Choice → Prop where
  | close (answered : searchIn text a.closing pos = .ok (some found)) : Picks a text pos found .close
  | ask (ask : Ask) (leaf : Leaf) (names : List String) (asked : ask ∈ a.asks)
    (is : outline leaf = ask.outline)
    (answered : searchIn text ask.pattern pos = .ok (some found))
    (alone : ask ∈ a.first ∨ ∀ other ∈ a.first, ∀ tree, lineTree? other.pattern = some tree →
      tree.ways text 0 found.whole.start [] = []) :
    Picks a text pos found (.apply ⟨leaf, names⟩)

theorem picks_of_choose (is : Described a frame) (inside : pos ≤ text.length) {choice : Choice}
    {found : Regex.Found}
    (chosen : choose (searchIn text) grammar.rules (context grammar (frame :: outer)) pos =
      .ok (some (choice, found))) : Picks a text pos found choice := by
  obtain ⟨front, back, split, first, later⟩ := offers_split is
  have range := choose_within (searchIn_within text) inside chosen
  rcases choose_front _ split chosen with ⟨o, member, rfl, answered⟩ | ⟨⟨o, member, rfl, answered⟩, behind⟩
  · rcases List.mem_cons.1 member with rfl | there
    · exact .close answered
    · obtain ⟨⟨leaf, names⟩, inFront, rfl⟩ := List.mem_map.1 there
      obtain ⟨ask, asked, same⟩ := ask_of_outlines first inFront
      simp only [pattern_of_outline same] at answered
      exact .ask ask leaf names (List.mem_append_left _ asked) same answered (.inl asked)
  · obtain ⟨⟨leaf, names⟩, inBack, rfl⟩ := List.mem_map.1 member
    obtain ⟨ask, asked, same⟩ := ask_of_outlines later inBack
    simp only [pattern_of_outline same] at answered
    refine .ask ask leaf names (List.mem_append_right _ asked) same answered (.inr ?_)
    intro other among tree read
    obtain ⟨c, inFront, pattern⟩ := candidate_of_outlines first among
    have after := behind ⟨.apply c, c.leaf.pattern⟩
      (List.mem_cons_of_mem _ (List.mem_map.2 ⟨c, inFront, rfl⟩))
    exact way_of_after (by omega) after (pattern ▸ read) _ range.1 (Nat.le_refl _)

/-- None of the patterns has a way from a place between the positions. -/
def Silent (fs : List Fragment) (text : List Char) (p q : Nat) : Prop :=
  ∀ f ∈ fs, ∀ tree, lineTree? f = some tree → ∀ i, p ≤ i → i < q → i < text.length →
    tree.ways text 0 i [] = []

theorem offered_of_pattern (is : Described a frame) {f : Fragment} (member : f ∈ a.patterns) :
    ∃ o ∈ offers grammar.rules (context grammar (frame :: outer)), o.pattern = f := by
  rw [← patterns_of_offers is] at member
  exact List.mem_map.1 member

theorem silent_before (is : Described a frame) (inside : pos ≤ text.length) {choice : Choice}
    {found : Regex.Found}
    (chosen : choose (searchIn text) grammar.rules (context grammar (frame :: outer)) pos =
      .ok (some (choice, found))) : Silent a.patterns text pos found.whole.start := by
  intro f member tree read i ge lt _
  obtain ⟨o, there, rfl⟩ := offered_of_pattern is member
  exact way_before_choice inside chosen there read i ge lt

theorem silent_of_none (is : Described a frame)
    (nothing : choose (searchIn text) grammar.rules (context grammar (frame :: outer)) pos =
      .ok none) (q : Nat) : Silent a.patterns text pos q := by
  intro f member tree read i ge _ lt
  obtain ⟨o, there, rfl⟩ := offered_of_pattern is member
  exact way_of_choose_none nothing there read i ge (Nat.le_of_lt lt)

end

end ScopeGrammar.WebAssembly
