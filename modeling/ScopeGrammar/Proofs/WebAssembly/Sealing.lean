import ScopeGrammar.Proofs.WebAssembly.Strings
import ScopeGrammar.Proofs.WebAssembly.Words

/-!
Strings inside a construct in parentheses. Where the construct lists strings, no parenthesis and no
semicolon of a string opens or closes a region; where it does not, no other character does.
-/

set_option autoImplicit false

namespace ScopeGrammar.WebAssembly

open Scan Fragment
open Regex (Found Node Saved Spares Way mem_piece)

/-- The rules that list strings: those of constructs that the text format has strings in, and those
of what is in parentheses without being described. -/
def stringHolders : List String :=
  [form, "annotation", "annotationParens", "moduleFieldData", "moduleFieldExport", "inlineExport",
    "moduleFieldImport", "inlineImport"]

def holdsStrings (site : Site) : Bool := stringHolders.any fun name => site = .top (.rule name)

def importName : Site := ⟨.rule "inlineImportNames", [0]⟩

def importNameOpening : Fragment :=
  sequence [
    lastKeyword Keyword.imports.letters,
    lookAhead (sequence [zeroOrMore (alternative [blank, blockComment]), quote])]

def importNameClosing : Fragment := alternative [lookBehind quote, lookAhead rightParenthesis]

/-- Whether the leaf reads something, and no quote or a parenthesis before all else. -/
def asksAround : Leaf → Bool
  | .single rule => hasTree rule.pattern fun tree => tree.avoids [] ['"'] && !tree.nullable
  | .region _ region _ =>
    region.opening = lineCommentOpening || hasTree region.opening (·.opens [] [] '(')

def asksString : Leaf → Bool
  | .single _ => false
  | .region site region children =>
    region.opening = quote && region.closing = stringEnd &&
      (candidates table site children).map (outline ·.leaf) = Area.string.asks.map Ask.outline

def asksImportName : Leaf → Bool
  | .single _ => false
  | .region site region children =>
    site = importName && region.opening = importNameOpening && region.closing = importNameClosing &&
      (candidates table site children).all (fun c => asksAround c.leaf || asksString c.leaf) &&
      (candidates table site children).any (·.leaf.pattern = quote)

/-- Whether the leaf, if it is a region that a parenthesis closes, is opened by one, and asks for
strings only as one of the rules that list them. -/
def isSealed : Leaf → Bool
  | .single _ => true
  | .region site region children =>
    region.closing ≠ rightParenthesis ||
      (hasTree region.opening (·.opens [] [] '(') &&
        (candidates table site children).all (fun c => asksAround c.leaf ||
          holdsStrings site && (asksString c.leaf || asksImportName c.leaf)) &&
        (!holdsStrings site || (candidates table site children).any (·.leaf.pattern = quote)))

theorem leaves_sealed : (leaves grammar).all isSealed = true := by decide +kernel

structure Sealed (frame : Frame) : Prop where
  opening : hasTree frame.region.opening (·.opens [] [] '(') = true
  asked : ∀ c ∈ candidates table frame.site frame.children, asksAround c.leaf = true ∨
    holdsStrings frame.site = true ∧ (asksString c.leaf = true ∨ asksImportName c.leaf = true)
  quoted : holdsStrings frame.site = true →
    ((candidates table frame.site frame.children).any (·.leaf.pattern = quote)) = true

theorem sealed_of_known {frame : Frame} (known : frame.leaf ∈ leaves grammar)
    (round : frame.region.closing = rightParenthesis) : Sealed frame := by
  have passed := List.all_eq_true.1 leaves_sealed _ known
  simp only [Frame.leaf, isSealed, round, ne_eq, not_true_eq_false, decide_false, Bool.false_or,
    Bool.and_eq_true, Bool.or_eq_true, List.all_eq_true, Bool.not_eq_true'] at passed
  refine ⟨passed.1.1, passed.1.2, fun holds => ?_⟩
  rcases passed.2 with no | some
  · simp [holds] at no
  · exact some

section Patterns

variable {text : List Char} {p opened : Nat} {s : Saved} {w : Way}

theorem tree_importNameOpening :
    lineTree? importNameOpening =
      some (.seq (.behind (wholeWordTree (word "import".toList)))
        (.ahead (.seq (.many 0 none true blankOrComment) (.set (.single '"'))))) := by
  decide +kernel

theorem tree_importNameClosing :
    lineTree? importNameClosing =
      some (.alt (.behind (.set (.single '"'))) (.alt (.ahead (.set (.single ')'))) .never)) := by
  rfl

theorem mem_ways_behind {a : Node} {n : Nat} (width : a.width = some n)
    (member : w ∈ (Node.behind a).ways text opened p s) :
    w.1 = p ∧ n ≤ p ∧ ∃ v, v ∈ a.ways text opened (p - n) s := by
  obtain ⟨m, same, le, v, first, rfl⟩ := Node.mem_ways_behind.1 member
  obtain rfl := Option.some.inj (width.symm.trans same)
  exact ⟨rfl, le, v, List.mem_of_mem_take first⟩

theorem mem_ways_importNameOpening
    (member : w ∈ (Node.seq (.behind (wholeWordTree (word "import".toList))) (.ahead (.seq
      (.many 0 none true blankOrComment) (.set (.single '"'))))).ways text opened p s) :
    w.1 = p ∧ ∃ i, i + 1 = p ∧ text[i]? = some 't' := by
  obtain ⟨v, first, rest⟩ := List.mem_flatMap.1 member
  obtain ⟨same, le, u, inside⟩ := mem_ways_behind (n := 6) rfl first
  obtain ⟨tail, drop, -⟩ := mem_ways_word (mem_ways_wholeWord inside).1
  refine ⟨(Node.ways_of_not_repeatable rfl rest).trans same, p - 1, by omega, ?_⟩
  rw [show p - 1 = (p - 6) + 5 by omega, ← List.getElem?_drop, drop]
  rfl

theorem mem_ways_importNameClosing
    (member : w ∈ (Node.alt (.behind (.set (.single '"')))
      (.alt (.ahead (.set (.single ')'))) .never)).ways text opened p s) :
    w.1 = p ∧ ((∃ i, i + 1 = p ∧ text[i]? = some '"') ∨ text[p]? = some ')') := by
  rcases List.mem_append.1 member with behind | rest
  · obtain ⟨same, le, v, inside⟩ := mem_ways_behind (n := 1) rfl behind
    exact ⟨same, .inl ⟨p - 1, by omega, (mem_ways_single inside).1⟩⟩
  · rcases List.mem_append.1 rest with ahead | never
    · obtain ⟨v, inside, -⟩ := List.mem_map.1 ahead
      exact ⟨Node.ways_of_not_repeatable rfl ahead,
        .inr (mem_ways_single (List.mem_of_mem_take inside)).1⟩
    · simp [Node.ways] at never

theorem ways_importNameClosing_ne_nil (behind : text[p]? = some '"') :
    (Node.alt (.behind (.set (.single '"')))
      (.alt (.ahead (.set (.single ')'))) .never)).ways text opened (p + 1) s ≠ [] := by
  refine ways_alt_ne_nil (.inl ?_)
  simp [Node.ways, Node.width, behind]

/-- What asks around strings has no way from a quote. -/
theorem around_silent {leaf : Leaf} (around : asksAround leaf = true) (here : text[p]? = some '"')
    {tree : Node} (read : lineTree? leaf.pattern = some tree) : tree.ways text 0 p [] = [] := by
  have inside := (List.getElem?_eq_some_iff.1 here).1
  refine List.eq_nil_iff_forall_not_mem.2 fun w member => ?_
  have avoided (avoids : tree.avoids [] ['"'] = true) (full : tree.nullable = false) : False := by
    have spared := Node.spares_of_avoids ['"'] tree avoids (Nat.le_of_lt inside) member
    have more := Node.lt_of_not_nullable tree full (Nat.le_of_lt inside) member
    exact spared.2.2 '"' (mem_piece.2 ⟨p, Nat.le_refl _, more, here⟩) (by simp)
  cases leaf with
  | single rule =>
    obtain ⟨other, read', passed⟩ := exists_tree around
    cases read.symm.trans read'
    simp only [Bool.and_eq_true, Bool.not_eq_true'] at passed
    exact avoided passed.1 passed.2
  | region site region children =>
    simp only [asksAround, Bool.or_eq_true, decide_eq_true_eq] at around
    rcases around with comment | opens
    · rw [Leaf.pattern, comment, tree_lineCommentOpening] at read
      cases read
      exact avoided (by decide) (by decide)
    · obtain ⟨other, read', passed⟩ := exists_tree opens
      cases read.symm.trans read'
      have parenthesis := (Node.ways_of_opens (by simp) tree passed (Nat.le_of_lt inside) member).1
      rw [here] at parenthesis
      exact absurd parenthesis (by decide)

end Patterns

section Crossing

variable {l : Line} {stack : List Frame} {pos c : Nat} {found : Found} {body tail : List Char}

/-- Where the search of a context has come to a place and nothing begins before it. -/
def Idle (search : Search) (stack : List Frame) (pos c : Nat) : Prop :=
  ∀ choice found, choose search grammar.rules (context grammar stack) pos =
    .ok (some (choice, found)) → c ≤ found.whole.start

theorem idle_self {search : Search} {size : Nat} (within : search.Within size)
    (inside : pos ≤ size) : Idle search stack pos pos :=
  fun _ _ chosen => (choose_within within inside chosen).1

/-- A string that is entered is read to its end. -/
theorem crosses_entered (known : Known grammar stack) {leaf : Leaf} {names : List String}
    (chosen : choose (searchIn l.text) grammar.rules (context grammar stack) pos =
      .ok (some (.apply ⟨leaf, names⟩, found)))
    (string : asksString leaf = true) (ge : pos ≤ c) (start : found.whole.start = c)
    (quoted : Quoted body) (there : l.text.drop c = '"' :: (body ++ '"' :: tail)) :
    Crosses (searchIn l.text) grammar l (c + body.length + 2) pos stack stack := by
  obtain ⟨here, there'⟩ := head_of_drop there
  have inside := (List.getElem?_eq_some_iff.1 here).1
  have answered := (candidate_of_choose chosen).2
  cases leaf with
  | single rule => simp [asksString] at string
  | region site region children =>
    simp only [asksString, Bool.and_eq_true, decide_eq_true_eq] at string
    obtain ⟨⟨opening, closing⟩, candidates⟩ := string
    simp only [Leaf.pattern, opening] at answered
    have stop := (found_single tree_quote (by omega) answered).2
    refine .take chosen (by omega) (not_stalls (by omega)) (by omega) ?_
    have known' := take_known (l := l) known chosen
    rw [show max pos found.whole.stop = c + 1 by omega,
      show c + body.length + 2 = c + 1 + body.length + 1 by omega]
    refine crosses_string ⟨closing, candidates⟩ known' quoted (Nat.le_refl _) there' ?_
    intro f _ tree _ i ge lt
    omega

theorem taken_at_quote (known : Known grammar stack) (idle : Idle (searchIn l.text) stack pos c) (ge : pos ≤ c)
    (here : l.text[c]? = some '"')
    (asks : ((candidates table (context grammar stack).site (context grammar stack).children).any
      (·.leaf.pattern = quote)) = true) :
    ∃ choice found, choose (searchIn l.text) grammar.rules (context grammar stack) pos =
        .ok (some (choice, found)) ∧ found.whole.start = c ∧
      ((choice = .close ∧ ∃ closing tree, (context grammar stack).closing = some closing ∧
          lineTree? closing = some tree ∧ tree.ways l.text 0 c [] ≠ []) ∨
        ∃ candidate, choice = .apply candidate ∧ asksAround candidate.leaf = false) := by
  have inside := (List.getElem?_eq_some_iff.1 here).1
  obtain ⟨o, offered, pattern⟩ := offered_of_candidate (context grammar stack) asks
  have way : (Node.set (.single '"')).ways l.text 0 c [] ≠ [] := by simp [ways_single, here]
  obtain ⟨choice, found, chosen, start⟩ := choose_at known offered (pattern ▸ tree_quote) ge
    (Nat.le_of_lt inside) way idle
  obtain ⟨other, among, rfl, tree, read, w, way', -⟩ := way_of_choose (by omega) chosen
  rw [start] at way'
  refine ⟨_, found, chosen, start, ?_⟩
  rcases offers_cases among with ⟨close, closing⟩ | ⟨candidate, -, apply, same⟩
  · exact .inl ⟨close, _, tree, closing, read, List.ne_nil_of_mem way'⟩
  · refine .inr ⟨candidate, apply, Bool.eq_false_iff.2 fun around => ?_⟩
    rw [same] at read
    simp [around_silent around here read] at way'

/-- A patient scan crosses `q` with the regions that are open before, or inside the region around the
name of an import's module, which the next step leaves. -/
def CrossesKept (l : Line) (q pos : Nat) (stack : List Frame) : Prop :=
  Crosses (searchIn l.text) grammar l q pos stack stack ∨
    ∃ frame tokens, frame.site = importName ∧
      Crosses (searchIn l.text) grammar l q pos stack (frame :: stack) ∧
      step (searchIn l.text) grammar l q (frame :: stack) = .ok (tokens, .moved q stack)

theorem step_leaves_importName {frame : Frame} {e : Nat} (known : Known grammar (frame :: stack))
    (closing : frame.region.closing = importNameClosing) (quote : l.text[e]? = some '"')
    (earlier : frame.pos ≠ e + 1) :
    ∃ tokens, step (searchIn l.text) grammar l (e + 1) (frame :: stack) =
      .ok (tokens, .moved (e + 1) stack) := by
  have inside := (List.getElem?_eq_some_iff.1 quote).1
  have way : (Node.alt (.behind (.set (.single '"'))) (.alt (.ahead (.set (.single ')')))
      .never)).ways l.text 0 (e + 1) [] ≠ [] := ways_importNameClosing_ne_nil quote
  let close : Offer := ⟨.close, importNameClosing⟩
  obtain ⟨rest, split⟩ : ∃ rest, offers grammar.rules (context grammar (frame :: stack)) =
      [close] ++ rest := ⟨_, by simp only [offers, context, closing, Option.toList_some]; rfl⟩
  have offered : close ∈ offers grammar.rules (context grammar (frame :: stack)) := by simp [split]
  obtain ⟨choice, found, chosen, start⟩ := choose_at known offered tree_importNameClosing
    (Nat.le_refl _) inside way (idle_self (searchIn_within l.text) inside)
  rcases choose_front [close] split chosen with ⟨o, member, rfl, answered⟩ | ⟨-, behind⟩
  · obtain rfl := List.mem_singleton.1 member
    obtain ⟨-, w, way', stop⟩ := found_way tree_importNameClosing inside answered
    have same := (mem_ways_importNameClosing way').1
    have free : close.choice.stalls l (e + 1) (frame :: stack) found = false := by
      simp [close, Choice.stalls, earlier]
    have stepped := step_of_choose_some (l := l) chosen
    rw [free, show max (e + 1) found.whole.stop = e + 1 by omega] at stepped
    exact ⟨_, stepped⟩
  · obtain ⟨other, answered, earlier⟩ := searchIn_of_way tree_importNameClosing (Nat.le_refl _)
      inside way
    have late := behind close (by simp) other answered
    omega

theorem keeps_importName {frame : Frame} {outer : List Frame}
    (known : Known grammar (frame :: outer)) (entered : frame.line = l.number → frame.pos < pos)
    {leaf : Leaf} {names : List String}
    (chosen : choose (searchIn l.text) grammar.rules (context grammar (frame :: outer)) pos =
      .ok (some (.apply ⟨leaf, names⟩, found)))
    (name : asksImportName leaf = true) (ge : pos ≤ c) (start : found.whole.start = c)
    (quoted : Quoted body) (there : l.text.drop c = '"' :: (body ++ '"' :: tail)) :
    CrossesKept l (c + body.length + 2) pos (frame :: outer) := by
  obtain ⟨here, there'⟩ := head_of_drop there
  have inside := (List.getElem?_eq_some_iff.1 here).1
  have answered := (candidate_of_choose chosen).2
  cases leaf with
  | single rule => simp [asksImportName] at name
  | region site region children =>
    simp only [asksImportName, Bool.and_eq_true, decide_eq_true_eq, List.all_eq_true,
      Bool.or_eq_true] at name
    obtain ⟨⟨⟨⟨isName, opening⟩, closing⟩, asked⟩, quote⟩ := name
    simp only [Leaf.pattern, opening] at answered
    obtain ⟨-, w, way, stop⟩ := found_way tree_importNameOpening (by omega) answered
    obtain ⟨still, i, before, letter⟩ := mem_ways_importNameOpening way
    have known' := take_known (l := l) known chosen
    generalize taken : (Choice.take (.apply ⟨.region site region children, names⟩) l pos
      (context grammar (frame :: outer)) (frame :: outer) found).2 = stack at known'
    simp only [Choice.take] at taken
    subst taken
    have again : max pos found.whole.stop = c := by omega
    -- The region of the construct has been entered before, so that entering one here is no circle.
    have free : Choice.stalls (.apply ⟨.region site region children, names⟩) l pos (frame :: outer)
        found = false := by
      have other : ¬ (frame.line = l.number ∧ frame.pos = pos) := fun same => by
        have lt := entered same.1
        omega
      simp [Choice.stalls, other]
    obtain ⟨choice, found', chosen', start', ends | ⟨candidate, rfl, around⟩⟩ :=
      taken_at_quote known' (idle_self (searchIn_within l.text) (Nat.le_of_lt inside))
        (Nat.le_refl _) here quote
    · obtain ⟨-, ending, tree, same, read, way'⟩ := ends
      simp only [context, Option.some.injEq, closing] at same
      subst same
      cases tree_importNameClosing.symm.trans read
      obtain ⟨v, rest, here'⟩ := List.exists_cons_of_ne_nil way'
      obtain ⟨-, ⟨j, before', quote⟩ | parenthesis⟩ :=
        mem_ways_importNameClosing (here' ▸ List.mem_cons_self ..)
      · rw [start] at before
        rw [show j = i by omega, letter] at quote
        exact absurd quote (by decide)
      · rw [here] at parenthesis
        exact absurd parenthesis (by decide)
    have string : asksString candidate.leaf = true := by
      rcases asked candidate (candidate_of_choose chosen').1 with no | string
      · simp [around] at no
      · exact string
    have inner := crosses_entered known' chosen' string (Nat.le_refl _) start' quoted there
    have last : l.text[c + body.length + 1]? = some '"' := by
      rw [show c + body.length + 1 = c + 1 + body.length by omega, ← List.getElem?_drop, there']
      simp
    obtain ⟨tokens, leaves⟩ := step_leaves_importName known' closing last (by simp; omega)
    exact .inr ⟨_, tokens, isName, .take chosen (by omega) free (by omega) (again ▸ inner), leaves⟩

/-- A construct that lists strings is as it was behind a string in it. -/
theorem keeps_holder {frame : Frame} {outer : List Frame} (known : Known grammar (frame :: outer))
    (round : frame.region.closing = rightParenthesis) (holds : holdsStrings frame.site = true)
    (entered : frame.line = l.number → frame.pos < pos)
    (idle : Idle (searchIn l.text) (frame :: outer) pos c) (ge : pos ≤ c) (quoted : Quoted body)
    (there : l.text.drop c = '"' :: (body ++ '"' :: tail)) :
    CrossesKept l (c + body.length + 2) pos (frame :: outer) := by
  obtain ⟨here, there'⟩ := head_of_drop there
  have inside := (List.getElem?_eq_some_iff.1 here).1
  have sealed' := sealed_of_known (known frame (by simp)) round
  obtain ⟨choice, found, chosen, start, ends | ⟨candidate, rfl, around⟩⟩ :=
    taken_at_quote known idle ge here (sealed'.quoted holds)
  · obtain ⟨-, closing, tree, same, read, way⟩ := ends
    simp only [context, Option.some.injEq, round] at same
    subst same
    cases tree_rightParenthesis.symm.trans read
    simp [ways_single, here] at way
  obtain ⟨member, answered⟩ := candidate_of_choose chosen
  rcases sealed'.asked candidate member with no | ⟨-, string | name⟩
  · simp [around] at no
  · exact .inl (crosses_entered known chosen string ge start quoted there)
  · exact keeps_importName known entered chosen name ge start quoted there

theorem single_of_around {leaf : Leaf} {start e : Nat} (around : asksAround leaf = true)
    (ge : c ≤ start) (le : start ≤ e) (quote : l.text[e]? = some '"')
    (bare : Spares l.text ['(', ')'] c e)
    (apart : ∀ i, c ≤ i → i < e → l.text[i]? = some ';' → l.text[i + 1]? ≠ some ';')
    {tree : Node} (read : lineTree? leaf.pattern = some tree) {w : Way}
    (way : w ∈ tree.ways l.text 0 start []) :
    (∃ rule, leaf = .single rule) ∧ start < w.1 ∧ w.1 ≤ e := by
  have inside := (List.getElem?_eq_some_iff.1 quote).1
  cases leaf with
  | single rule =>
    obtain ⟨other, read', passed⟩ := exists_tree around
    cases read.symm.trans read'
    simp only [Bool.and_eq_true, Bool.not_eq_true'] at passed
    have spared := (Node.spares_of_avoids ['"'] tree passed.1 (by omega) way).2.2
    refine ⟨⟨rule, rfl⟩, Node.lt_of_not_nullable tree passed.2 (by omega) way, ?_⟩
    refine Nat.le_of_not_lt fun beyond => ?_
    exact spared '"' (mem_piece.2 ⟨e, le, beyond, quote⟩) (by simp)
  | region site region children =>
    simp only [asksAround, Bool.or_eq_true, decide_eq_true_eq] at around
    rcases around with comment | opens
    · rw [Leaf.pattern, comment, tree_lineCommentOpening] at read
      cases read
      obtain ⟨k, first, spares, mark, mark', -⟩ := mem_ways_lineComment (by omega) way
      have before : k < e := by
        rcases Nat.lt_trichotomy k e with lt | rfl | gt
        · exact lt
        · rw [quote] at mark
          exact absurd mark (by decide)
        · exact absurd (by simp [specials]) (spares '"' (mem_piece.2 ⟨e, le, gt, quote⟩))
      exact absurd mark' (apart k (by omega) before mark)
    · obtain ⟨other, read', passed⟩ := exists_tree opens
      cases read.symm.trans read'
      have parenthesis := (Node.ways_of_opens (by simp) tree passed (by omega) way).1
      rcases Nat.lt_or_eq_of_le le with lt | rfl
      · exact absurd (by simp) (bare '(' (mem_piece.2 ⟨start, ge, lt, parenthesis⟩))
      · rw [quote] at parenthesis
        exact absurd parenthesis (by decide)

theorem crosses_around {frame : Frame} {outer : List Frame} (known : Known grammar (frame :: outer))
    (round : frame.region.closing = rightParenthesis) (holds : holdsStrings frame.site = false)
    {e : Nat} (idle : Idle (searchIn l.text) (frame :: outer) pos c) (quote : l.text[e]? = some '"')
    (bare : Spares l.text ['(', ')'] c e)
    (apart : ∀ i, c ≤ i → i < e → l.text[i]? = some ';' → l.text[i + 1]? ≠ some ';') :
    Crosses (searchIn l.text) grammar l (e + 1) pos (frame :: outer) (frame :: outer) := by
  have inside := (List.getElem?_eq_some_iff.1 quote).1
  have sealed' := sealed_of_known (known frame (by simp)) round
  induction size : e + 1 - pos using Nat.strongRecOn generalizing pos with
  | ind n ih =>
    subst size
    rcases Nat.lt_or_ge e pos with passed | before
    · exact .behind passed
    obtain ⟨result, chosen⟩ := choose_answers known l.text pos
    by_cases later : ∀ choice found, result = some (choice, found) → e + 1 ≤ found.whole.start
    · exact .beyond (by omega) chosen later
    obtain ⟨choice, found, rfl, start⟩ : ∃ choice found, result = some (choice, found) ∧
        found.whole.start < e + 1 := by simpa [Nat.lt_succ_iff] using later
    have within := choose_within (searchIn_within l.text) (by omega) chosen
    have first := idle choice found chosen
    obtain ⟨o, offered, rfl, tree, read, w, way, stop⟩ := way_of_choose (by omega) chosen
    rcases offers_cases offered with ⟨-, closing⟩ | ⟨candidate, member, apply, pattern⟩
    · simp only [context, Option.some.injEq, round] at closing
      rw [← closing, tree_rightParenthesis] at read
      cases read
      have here := (mem_ways_single way).1
      rcases Nat.lt_or_eq_of_le (Nat.le_of_lt_succ start) with lt | same
      · exact absurd (by simp) (bare ')' (mem_piece.2 ⟨_, first, lt, here⟩))
      · rw [same, quote] at here
        exact absurd here (by decide)
    · have around : asksAround candidate.leaf = true := by
        rcases sealed'.asked candidate member with around | ⟨no, -⟩
        · exact around
        · simp [holds] at no
      obtain ⟨⟨rule, single⟩, more, le⟩ := single_of_around around first (by omega) quote bare apart
        (pattern ▸ read) way
      obtain ⟨leaf, names⟩ := candidate
      simp only at single
      subst single
      rw [apply] at chosen
      refine .take chosen start (not_stalls (by omega)) within.1 ?_
      have idle' : Idle (searchIn l.text) (frame :: outer) (max pos found.whole.stop) c := fun _ _ chosen' => by
        have range := choose_within (searchIn_within l.text) (by omega) chosen'
        omega
      exact ih _ (by omega) idle' rfl

end Crossing

section States

variable {number pos : Nat} {stack : List Frame}

/-- Where a scan can stand: in regions of the grammar, which have been entered before, and those in
parentheses at an earlier place. -/
structure Standing (number pos : Nat) (stack : List Frame) : Prop where
  known : Known grammar stack
  entered : ∀ frame ∈ stack, frame.line ≤ number ∧ (frame.line = number → frame.pos ≤ pos ∧
    (frame.region.closing = rightParenthesis → frame.pos < pos))

theorem Standing.mono {pos' : Nat} (standing : Standing number pos stack) (le : pos ≤ pos') :
    Standing number pos' stack where
  known := standing.known
  entered frame member := by
    obtain ⟨before, here⟩ := standing.entered frame member
    exact ⟨before, fun same => ⟨Nat.le_trans (here same).1 le,
      fun round => Nat.lt_of_lt_of_le ((here same).2 round) le⟩⟩

theorem Standing.next_line (standing : Standing number pos stack) :
    Standing (number + 1) 0 stack where
  known := standing.known
  entered frame member := by
    have before := (standing.entered frame member).1
    exact ⟨Nat.le_succ_of_le before, fun same => by omega⟩

theorem Standing.step {l : Line} {pos' : Nat} {stack' : List Frame} {tokens : List Token}
    (standing : Standing l.number pos stack) (inside : pos ≤ l.text.length)
    (stepped : Scan.step (searchIn l.text) grammar l pos stack = .ok (tokens, .moved pos' stack')) :
    Standing l.number pos' stack' := by
  have known := step_known standing.known stepped
  obtain ⟨choice, found, chosen, -, rfl, rfl⟩ := step_moved stepped
  have kept := (standing.mono (Nat.le_max_left pos found.whole.stop)).entered
  refine ⟨known, ?_⟩
  cases choice with
  | close =>
    cases stack with
    | nil => exact kept
    | cons frame outer => exact fun other member => kept other (List.mem_cons_of_mem _ member)
  | apply candidate =>
    have answered := (candidate_of_choose chosen).2
    obtain ⟨leaf, names⟩ := candidate
    cases leaf with
    | single rule => exact kept
    | region site region children =>
      refine List.forall_mem_cons.2 ⟨⟨Nat.le_refl _, fun _ => ⟨Nat.le_max_left _ _, ?_⟩⟩, kept⟩
      intro round
      have sealed' := sealed_of_known (known _ (List.mem_cons_self ..)) round
      obtain ⟨tree, read, opens⟩ := exists_tree sealed'.opening
      obtain ⟨le, w, way, stop⟩ := found_way read inside answered
      have more := (Node.ways_of_opens (by simp) tree opens le way).2.1
      have first := choose_within (searchIn_within l.text) inside chosen
      show pos < max pos found.whole.stop
      omega

/-- A scan stands nowhere else. -/
theorem standing_of_reached {lines : List (List Char)} {made : Nat}
    (reached : Reached searchIn grammar lines number made pos stack) :
    Standing number pos stack := by
  induction reached with
  | start => exact ⟨known_nil, by simp⟩
  | moved reached here _ stepped ih => exact ih.step (reached.inside searchIn_within here) stepped
  | ended _ _ _ _ _ ih => exact ih.next_line
  | exhausted _ _ ih => exact ih.next_line

end States

theorem infix_of_getElem? {s : List Char} {i : Nat} {a b : Char} (first : s[i]? = some a)
    (second : s[i + 1]? = some b) : [a, b] <:+: s := by
  have drop : s.drop i = a :: b :: s.drop (i + 2) := by
    obtain ⟨inside, rfl⟩ := List.getElem?_eq_some_iff.1 first
    obtain ⟨inside', rfl⟩ := List.getElem?_eq_some_iff.1 second
    rw [List.drop_eq_getElem_cons inside, List.drop_eq_getElem_cons inside']
  have whole : s.take i ++ [a, b] ++ s.drop (i + 2) = s := by
    calc s.take i ++ [a, b] ++ s.drop (i + 2) = s.take i ++ s.drop i := by simp [drop]
      _ = s := List.take_append_drop i s
  exact ⟨s.take i, s.drop (i + 2), whole⟩

theorem drop_text_of_string {l : Line} {c : Nat} {body : List Char}
    (there : '"' :: body ++ ['"'] <+: l.content.drop c) :
    ∃ tail, l.text.drop c = '"' :: (body ++ '"' :: tail) := by
  obtain ⟨tail, same⟩ := there
  exact ⟨tail ++ ['\n'], by rw [(drop_text same.symm (by simp)).2]; simp⟩

/-- A string in a construct in parentheses is crossed with the regions that are open before, if the
construct lists strings or there are no parentheses and line comments in the string. -/
theorem crossesKept {l : Line} {pos c : Nat} {frame : Frame} {outer : List Frame} {s : List Char}
    (standing : Standing l.number pos (frame :: outer))
    (round : frame.region.closing = rightParenthesis) (ge : pos ≤ c)
    (idle : Idle (searchIn l.text) (frame :: outer) pos c) (string : IsString s)
    (there : s <+: l.content.drop c)
    (kind : holdsStrings frame.site = true ∨ '(' ∉ s ∧ ')' ∉ s ∧ ¬ [';', ';'] <:+: s) :
    CrossesKept l (c + s.length) pos (frame :: outer) := by
  obtain ⟨body, is, rfl⟩ := string
  obtain ⟨tail, drop⟩ := drop_text_of_string there
  have length : c + ('"' :: body ++ ['"']).length = c + body.length + 2 := by simp; omega
  have at' (i : Nat) (below : i < body.length + 2) :
      l.text[c + i]? = ('"' :: body ++ ['"'])[i]? := by
    have split : '"' :: (body ++ '"' :: tail) = ('"' :: body ++ ['"']) ++ tail := by simp
    have inside : i < ('"' :: body ++ ['"']).length := by
      rw [List.length_append, List.length_cons, List.length_singleton]
      omega
    rw [← List.getElem?_drop, drop, split, List.getElem?_append_left inside]
  rw [length]
  cases holds : holdsStrings frame.site with
  | true =>
    exact keeps_holder standing.known round holds
      (fun same => (((standing.entered frame (by simp)).2 same).2 round)) idle ge is.quoted drop
  | false =>
    obtain ⟨opening, closing, comment⟩ := kind.resolve_left (by simp [holds])
    have quote : l.text[c + body.length + 1]? = some '"' := by
      rw [Nat.add_assoc, at' _ (by omega)]
      simp
    have member {i : Nat} {x : Char} (ge : c ≤ i) (lt : i < c + body.length + 1)
        (here : l.text[i]? = some x) : ('"' :: body ++ ['"'])[i - c]? = some x := by
      rw [← at' _ (by omega), Nat.add_sub_cancel' ge, here]
    refine .inl (crosses_around standing.known round holds idle quote (fun x inside bad => ?_) ?_)
    · obtain ⟨i, ge, lt, here⟩ := mem_piece.1 inside
      have among := List.mem_of_getElem? (member ge lt here)
      simp only [List.mem_cons, List.not_mem_nil, or_false] at bad
      rcases bad with rfl | rfl
      · exact opening among
      · exact closing among
    · intro i ge lt first second
      refine comment (infix_of_getElem? (member ge lt first) ?_)
      rw [← at' _ (by omega), show c + (i - c + 1) = i + 1 by omega, second]

/-- A scan that crosses `q` does so with the regions that are open before. Behind the name of an
import's module the region around the name is open too, and the next step leaves it unless a search
is given up. -/
def Keeps (engine : Regex.Engine) (l : Line) (q pos : Nat) (stack : List Frame) : Prop :=
  ∀ last, Crosses (searchBy engine l.text) grammar l q pos stack last →
    last = stack ∨ ∃ frame tokens, last = frame :: stack ∧ frame.site = importName ∧
      UnlessGivenUp engine grammar [l.content] (step (searchBy engine l.text) grammar l q last)
        (.ok (tokens, .moved q stack))

theorem CrossesKept.keeps {l : Line} {q pos : Nat} {stack : List Frame}
    (kept : CrossesKept l q pos stack) (engine : Regex.Engine) (known : Known grammar stack) :
    Keeps engine l q pos stack := by
  intro last crosses
  have crosses' := crosses.patient known
  rcases kept with same | ⟨frame, tokens, stands, more, leaves⟩
  · exact .inl (crosses'.unique same)
  · obtain rfl := crosses'.unique more
    refine .inr ⟨frame, tokens, rfl, stands, ?_⟩
    exact leaves ▸ step_unlessGivenUp engine (more.known known) l q

theorem CrossesKept.crosses {l : Line} {q pos : Nat} {stack : List Frame}
    (kept : CrossesKept l q pos stack) (engine : Regex.Engine) (known : Known grammar stack) :
    (∃ last, Crosses (searchBy engine l.text) grammar l q pos stack last) ∨
      GivesUpIn engine grammar l.text := by
  rcases kept with same | ⟨frame, tokens, -, more, -⟩
  · exact (same.by_engine engine known).imp_left fun crosses => ⟨_, crosses⟩
  · exact (more.by_engine engine known).imp_left fun crosses => ⟨_, crosses⟩

/-- Every state of a scan is one where it can stand. From such a state in a construct in
parentheses, a string in the line leaves the open regions as they are, if the construct lists
strings or there are no parentheses and line comments in the string. It is crossed unless a search is
given up. -/
theorem strings_keep_stack (engine : Regex.Engine) :
    (∀ lines number made pos stack, Reached (searchBy engine) grammar lines number made pos stack →
      Standing number pos stack) ∧
    ∀ (l : Line) (pos c : Nat) (frame : Frame) (outer : List Frame) (s : List Char),
      Standing l.number pos (frame :: outer) → frame.region.closing = rightParenthesis →
      pos ≤ c → Idle (searchBy engine l.text) (frame :: outer) pos c → IsString s →
      s <+: l.content.drop c →
      (holdsStrings frame.site = true ∨ '(' ∉ s ∧ ')' ∉ s ∧ ¬ [';', ';'] <:+: s) →
      Keeps engine l (c + s.length) pos (frame :: outer) ∧
        ((∃ last, Crosses (searchBy engine l.text) grammar l (c + s.length) pos (frame :: outer) last) ∨
          GivesUpIn engine grammar l.text) := by
  refine ⟨fun _ _ _ _ _ reached => standing_of_reached reached.patient, ?_⟩
  intro l pos c frame outer s standing round ge idle string there kind
  have positive : 0 < s.length := by
    obtain ⟨body, -, rfl⟩ := string
    simp
  rcases (choose_unlessGivenUp engine standing.known l pos).of_line with same | givenUp
  · have idle' : Idle (searchIn l.text) (frame :: outer) pos c := fun choice found chosen =>
      idle choice found (same.trans chosen)
    have kept := crossesKept standing round ge idle' string there kind
    exact ⟨kept.keeps engine standing.known, kept.crosses engine standing.known⟩
  · refine ⟨fun last crosses => ?_, .inr givenUp⟩
    obtain ⟨result, chosen⟩ := crosses.chosen (by omega)
    have idle' : Idle (searchIn l.text) (frame :: outer) pos c := by
      intro choice found chosen'
      have chosen'' := (choose_unlessGivenUp engine standing.known l pos).ok chosen
      cases chosen'.symm.trans chosen''
      exact idle choice found chosen
    exact (crossesKept standing round ge idle' string there kind).keeps engine standing.known
      last crosses

theorem eq_singleton_of_map {α β : Type} {next : Option (α × List Frame)} {f : Frame → β} {p : α}
    {b : β} (same : next.map (fun s => (s.1, s.2.map f)) = some (p, [b])) :
    ∃ frame, next = some (p, [frame]) ∧ f frame = b := by
  obtain ⟨⟨q, stack⟩, rfl, pair⟩ := Option.map_eq_some_iff.1 same
  obtain ⟨rfl, single⟩ := Prod.mk.inj pair
  obtain ⟨frame, rfl, rfl⟩ := List.map_eq_singleton_iff.1 single
  exact ⟨frame, rfl, rfl⟩

theorem reached_of_next? {engine : Regex.Engine} {l : Line} {p : Nat} {stack : List Frame}
    (first : l.number = 0) (next : next? (searchBy engine l.text) grammar l 0 [] = some (p, stack)) :
    Reached (searchBy engine) grammar [l.content] 0 1 p stack := by
  obtain ⟨number, content⟩ := l
  obtain rfl : number = 0 := first
  obtain ⟨tokens, stepped⟩ := step_of_next? next
  exact .moved .start rfl (by decide) stepped

def segment : Line := ⟨0, "(data\"(;\")".toList⟩

theorem strings_keep_stack_segment :
    ∃ frame, Reached (searchBy .standard) grammar [segment.content] 0 1 5 [frame] ∧
      frame.region.closing = rightParenthesis ∧ holdsStrings frame.site = true ∧
      Idle (searchBy .standard segment.text) [frame] 5 5 ∧ IsString "\"(;\"".toList ∧
      "\"(;\"".toList <+: segment.content.drop 5 ∧ Keeps .standard segment 9 5 [frame] ∧
      Crosses (searchBy .standard segment.text) grammar segment 9 5 [frame] [frame] := by
  have open' : (next? (searchBy .standard segment.text) grammar segment 0 []).map
      (fun s => (s.1, s.2.map fun frame => (frame.region.closing, holdsStrings frame.site,
        (crossed? (searchBy .standard segment.text) grammar segment 9 3 5 [frame]).map
          List.length))) =
      some (5, [(rightParenthesis, true, some 1)]) := by decide +kernel
  obtain ⟨frame, next, same⟩ := eq_singleton_of_map open'
  obtain ⟨round, rest⟩ := Prod.mk.inj same
  obtain ⟨holds, length⟩ := Prod.mk.inj rest
  obtain ⟨last, crossed, one⟩ := Option.map_eq_some_iff.1 length
  have reached := reached_of_next? rfl next
  have idle : Idle (searchBy .standard segment.text) [frame] 5 5 :=
    idle_self (searchBy_within _ segment.text) (by decide)
  have string : IsString "\"(;\"".toList :=
    ⟨['(', ';'], .plain (by decide) (.plain (by decide) .nil), rfl⟩
  have there : "\"(;\"".toList <+: segment.content.drop 5 := by decide
  have keeps := ((strings_keep_stack .standard).2 segment 5 5 frame [] _
    ((strings_keep_stack .standard).1 _ _ _ _ _ reached) round (Nat.le_refl _) idle string there
    (.inl holds)).1
  have crosses := crosses_of_crossed? crossed
  rcases keeps last crosses with rfl | ⟨inner, tokens, rfl, -⟩
  · exact ⟨frame, reached, round, holds, idle, string, there, keeps, crosses⟩
  · cases one

def misplaced : Line := ⟨0, "(func\"(\")".toList⟩

/-- The parenthesis in the string of a function opens a region. -/
theorem strings_open_function :
    ∃ frame, Reached (searchBy .standard) grammar [misplaced.content] 0 1 5 [frame] ∧
      frame.region.closing = rightParenthesis ∧
      Idle (searchBy .standard misplaced.text) [frame] 5 5 ∧
      IsString "\"(\"".toList ∧ "\"(\"".toList <+: misplaced.content.drop 5 ∧
      ¬ Keeps .standard misplaced 8 5 [frame] := by
  have open' : (next? (searchBy .standard misplaced.text) grammar misplaced 0 []).map
      (fun s => (s.1, s.2.map fun frame => (frame.region.closing,
        (crossed? (searchBy .standard misplaced.text) grammar misplaced 8 3 5 [frame]).map
          List.length))) =
      some (5, [(rightParenthesis, some 3)]) := by decide +kernel
  obtain ⟨frame, next, same⟩ := eq_singleton_of_map open'
  obtain ⟨round, length⟩ := Prod.mk.inj same
  obtain ⟨last, crossed, three⟩ := Option.map_eq_some_iff.1 length
  refine ⟨frame, reached_of_next? rfl next, round,
    idle_self (searchBy_within _ misplaced.text) (by decide),
    ⟨['('], .plain (by decide) .nil, rfl⟩, by decide, fun keeps => ?_⟩
  rcases keeps last (crosses_of_crossed? crossed) with rfl | ⟨inner, tokens, rfl, -⟩
  · cases three
  · cases three

end ScopeGrammar.WebAssembly
