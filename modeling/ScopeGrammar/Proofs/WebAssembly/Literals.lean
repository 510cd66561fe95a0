import ScopeGrammar.Proofs.Scan.Ends
import ScopeGrammar.Proofs.Scan.Enclosing
import ScopeGrammar.Proofs.WebAssembly.Escapes
import ScopeGrammar.Proofs.WebAssembly.Sealing

/-!
The rest of a line inside a string. The scan takes the escapes that a reader of the line skips, one
a step, and then leaves the string: at the quote where the reader stops, or else at the last
character of the line, or behind it where no character is left for that.
-/

set_option autoImplicit false

namespace ScopeGrammar.WebAssembly

open Scan
open Regex (Found Node Span Way)

def escapeScope : String := "constant.character.escape.wasm"

def closingScope : String := "punctuation.definition.string.end.wasm"

def newlineScope : String := "invalid.illegal.newline.wasm"

def escapeRule : MatchRule := ⟨escape, some escapeScope, .empty⟩

/-- The regions that a quote opens: strings, the names of exports, and the names of the modules of
imports, which stand inside the region around them. -/
def literalSites : List Site :=
  [.top (.rule "string"), .top (.rule "exportName"), importName.child 1]

def plainRule? : Leaf → Option MatchRule
  | .single rule => some rule
  | .region _ _ _ => none

/-- What a literal is closed by and how that is tagged, and that it asks for escapes alone. -/
def isLiteral : Leaf → Bool
  | .single _ => true
  | .region site region children =>
    !literalSites.contains site ||
      (region.closing = stringEnd &&
        region.closingCaptures = .ofList [(1, closingScope), (2, newlineScope)] &&
        (candidates table site children).map (fun c => (plainRule? c.leaf, c.names)) =
          [(some escapeRule, ["stringCharacterEscape"])])

theorem leaves_literal : (leaves grammar).all isLiteral = true := by decide +kernel

structure Literal (frame : Frame) : Prop where
  described : Described .string frame
  captures : frame.region.closingCaptures = .ofList [(1, closingScope), (2, newlineScope)]
  candidates : ∀ c ∈ candidates table frame.site frame.children,
    c = ⟨.single escapeRule, ["stringCharacterEscape"]⟩

theorem literal_of_known {frame : Frame} (known : frame.leaf ∈ leaves grammar)
    (site : frame.site ∈ literalSites) : Literal frame := by
  have passed := List.all_eq_true.1 leaves_literal _ known
  have there : literalSites.contains frame.site = true := List.contains_iff_mem.2 site
  simp only [Frame.leaf, isLiteral, there, Bool.not_true, Bool.false_or, Bool.and_eq_true,
    decide_eq_true_eq] at passed
  obtain ⟨⟨closing, captures⟩, candidates⟩ := passed
  obtain ⟨⟨leaf, names⟩, one, same⟩ := List.map_eq_singleton_iff.1 candidates
  cases leaf with
  | region => simp [plainRule?] at same
  | single rule =>
    simp only [plainRule?, Prod.mk.injEq, Option.some.injEq] at same
    obtain ⟨rfl, rfl⟩ := same
    refine ⟨⟨closing, ?_⟩, captures, fun c member => ?_⟩
    · rw [one]
      rfl
    · rw [one] at member
      exact List.mem_singleton.1 member

theorem string_regular {f : Fragment} (member : f ∈ Area.string.patterns) {regex : Regex}
    (read : linePattern f = .ok regex) : regex.tree.regular = true := by
  have all : (Area.string.patterns.all fun f =>
      (linePattern f).toOption.all (·.tree.regular)) = true := by decide
  have is := List.all_eq_true.1 all f member
  rwa [read] at is

theorem choose_literal {frame : Frame} (literal : Literal frame) (engine : Regex.Engine)
    (text : List Char) (outer : List Frame) (pos : Nat) :
    choose (searchBy engine text) grammar.rules (context grammar (frame :: outer)) pos =
      choose (searchIn text) grammar.rules (context grammar (frame :: outer)) pos := by
  refine choose_congr fun o offered => searchBy_eq_searchIn engine _ _ _ fun regex read => ?_
  have member := List.mem_map_of_mem (f := (·.pattern)) offered
  rw [patterns_of_offers literal.described] at member
  rw [Regex.Engine.givesUp, engine.regular regex text (string_regular member read)]
  rfl

theorem step_literal {frame : Frame} (literal : Literal frame) (engine : Regex.Engine) (l : Line)
    (outer : List Frame) (pos : Nat) :
    step (searchBy engine l.text) grammar l pos (frame :: outer) =
      step (searchIn l.text) grammar l pos (frame :: outer) := by
  rw [step_eq_follow, step_eq_follow, choose_literal literal]

section Ends

variable {text : List Char} {p pos : Nat}

/-- The groups of the pattern that ends a literal: the quote, and what stands for it. -/
def endGroups (p : Nat) : Bool → List (Option Span)
  | true => [some ⟨p, p + 1⟩, none]
  | false => [none, some ⟨p, p + 1⟩]

def lineRest : Node :=
  .alt (.seq (.set (.compl (.single '\n'))) (.anchor .lineEnd)) (.alt (.set (.single '\n')) .never)

theorem mem_ways_lineRest {opened : Nat} {s : Regex.Saved} {w : Way}
    (member : w ∈ lineRest.ways text opened p s) : w = (p + 1, s) := by
  rcases List.mem_append.1 member with last | rest
  · obtain ⟨v, first, edge⟩ := List.mem_flatMap.1 last
    obtain ⟨c, -, -, rfl⟩ := Node.mem_ways_set.1 first
    rw [ways_lineEnd] at edge
    split at edge
    · exact List.mem_singleton.1 edge
    · simp at edge
  · rcases List.mem_append.1 rest with feed | never
    · exact (mem_ways_single feed).2
    · simp [Node.ways] at never

theorem ways_stringEnd (text : List Char) (p : Nat) :
    stringEndTree.ways text 0 p [] =
      (if text[p]? = some '"' then [(p + 1, [(1, ⟨p, p + 1⟩)])] else []) ++
        (lineRest.ways text 2 p []).map fun w => (w.1, (2, ⟨p, w.1⟩) :: w.2) := by
  have split : stringEndTree.ways text 0 p [] =
      ((Node.set (.single '"')).ways text 1 p []).map (fun w => (w.1, (1, ⟨p, w.1⟩) :: w.2)) ++
        ((lineRest.ways text 2 p []).map (fun w => (w.1, (2, ⟨p, w.1⟩) :: w.2)) ++ []) := rfl
  rw [split, ways_single, List.append_nil]
  by_cases quote : text[p]? = some '"' <;> simp [quote]

theorem head_ways_stringEnd (ends : stringEndTree.ways text 0 p [] ≠ []) :
    ∃ w, (stringEndTree.ways text 0 p []).head? = some w ∧ w.1 = p + 1 ∧
      (List.range stringEndTree.groups).map (fun i => w.2.lookup (i + 1)) =
        endGroups p (text[p]? = some '"') := by
  rw [ways_stringEnd] at ends ⊢
  by_cases quote : text[p]? = some '"'
  · refine ⟨(p + 1, [(1, ⟨p, p + 1⟩)]), by simp [quote], rfl, ?_⟩
    rw [decide_eq_true quote]
    rfl
  · rw [if_neg quote, List.nil_append] at ends ⊢
    cases ways : lineRest.ways text 2 p [] with
    | nil => simp [ways] at ends
    | cons w rest =>
      obtain rfl := mem_ways_lineRest (ways ▸ List.mem_cons_self : w ∈ lineRest.ways text 2 p [])
      refine ⟨(p + 1, [(2, ⟨p, p + 1⟩)]), rfl, rfl, ?_⟩
      rw [decide_eq_false quote]
      rfl

theorem found_stringEnd {found : Found} (inside : pos ≤ text.length)
    (answered : searchIn text stringEnd pos = .ok (some found)) :
    found = ⟨⟨found.whole.start, found.whole.start + 1⟩,
      endGroups found.whole.start (text[found.whole.start]? = some '"')⟩ := by
  obtain ⟨-, -, ⟨w, first, stop, groups⟩, -⟩ := way_of_searchIn tree_stringEnd inside answered
  obtain ⟨v, first', one, groups'⟩ := head_ways_stringEnd
    (List.ne_nil_of_mem (List.mem_of_mem_head? first))
  cases first.symm.trans first'
  obtain ⟨⟨start, _⟩, _⟩ := found
  simp only at stop groups groups' one ⊢
  rw [groups, groups', ← stop, one]

theorem ways_stringEnd_iff {l : Line} (inLine : '\n' ∉ l.content) (inside : p ≤ l.content.length) :
    stringEndTree.ways l.text 0 p [] ≠ [] ↔
      l.content[p]? = some '"' ∨ l.content.length ≤ p + 1 := by
  have within {i : Nat} (lt : i < l.content.length) : l.text[i]? = some l.content[i] := by
    rw [Line.text, List.getElem?_append_left lt, List.getElem?_eq_getElem lt]
  have plain {i : Nat} (lt : i < l.content.length) : l.content[i] ≠ '\n' := fun same =>
    inLine (same ▸ List.getElem_mem lt)
  constructor
  · intro some
    obtain ⟨w, member⟩ := List.exists_mem_of_ne_nil _ some
    rcases Nat.lt_or_eq_of_le inside with lt | rfl
    · rcases (mem_ways_stringEnd member).2 with quote | feed | ⟨-, last⟩
      · rw [within lt] at quote
        rw [List.getElem?_eq_getElem lt]
        exact .inl quote
      · rw [within lt] at feed
        exact absurd (Option.some.inj feed) (plain lt)
      · refine .inr (Nat.le_of_not_lt fun more => ?_)
        rw [within more] at last
        exact plain more (by simpa using last)
    · exact .inr (Nat.le_succ _)
  · rintro (quote | few)
    · obtain ⟨lt, same⟩ := List.getElem?_eq_some_iff.1 quote
      exact ways_stringEnd_ne_nil (.inl (by rw [within lt, same]))
    · rcases Nat.lt_or_eq_of_le inside with lt | rfl
      · have last : p + 1 = l.content.length := by omega
        refine ways_stringEnd_ne_nil (.inr (.inr ⟨⟨_, within lt, plain lt⟩, ?_⟩))
        rw [last, text_getElem?_content]
        simp
      · exact ways_stringEnd_ne_nil (.inr (.inl text_getElem?_content))

theorem ways_stringEnd_eq_nil {l : Line} (inLine : '\n' ∉ l.content)
    (more : p + 1 < l.content.length) (other : l.content[p]? ≠ some '"') :
    stringEndTree.ways l.text 0 p [] = [] := by
  refine Classical.byContradiction fun some => ?_
  rcases (ways_stringEnd_iff inLine (by omega)).1 some with quote | few
  · exact other quote
  · omega

theorem found_escape {found : Found} (inside : pos ≤ text.length)
    (answered : searchIn text escape pos = .ok (some found)) :
    EscapeAt text found.whole.start found.whole.stop ∧ found.groups = [] := by
  obtain ⟨-, le, ⟨w, first, stop, groups⟩, -⟩ := way_of_searchIn tree_escape inside answered
  obtain ⟨is, -⟩ := (mem_ways_escape_iff le).1 (List.mem_of_mem_head? first)
  exact ⟨stop ▸ is, groups⟩

end Ends

def endScope : Bool → String
  | true => closingScope
  | false => newlineScope

section Steps

variable {l : Line} {frame : Frame} {outer : List Frame} {pos b q : Nat}

theorem choose_end (literal : Literal frame) (known : Known grammar (frame :: outer)) (ge : pos ≤ b)
    (inside : b < l.text.length) (ends : stringEndTree.ways l.text 0 b [] ≠ [])
    (none : ∀ q, ¬ EscapeAt l.text b q) (silent : Silent Area.string.patterns l.text pos b) :
    choose (searchIn l.text) grammar.rules (context grammar (frame :: outer)) pos =
      .ok (some (.close, ⟨⟨b, b + 1⟩, endGroups b (l.text[b]? = some '"')⟩)) := by
  obtain ⟨choice, found, chosen, start, picks⟩ := string_choice literal.described known
    (f := stringEnd) (by decide) tree_stringEnd ge inside ends silent
  cases picks with
  | close answered =>
    have whole := found_stringEnd (by omega) answered
    rw [start] at whole
    rw [chosen, whole]
  | ask ask leaf names asked same answered =>
    obtain rfl := string_asks asked
    exact absurd (start ▸ (found_escape (by omega) answered).1) (none _)

theorem choose_escape (literal : Literal frame) (known : Known grammar (frame :: outer)) (ge : pos ≤ b)
    (is : EscapeAt l.text b q) (ends : stringEndTree.ways l.text 0 b [] = [])
    (silent : Silent Area.string.patterns l.text pos b) :
    choose (searchIn l.text) grammar.rules (context grammar (frame :: outer)) pos =
      .ok (some (.apply ⟨.single escapeRule, ["stringCharacterEscape"]⟩, ⟨⟨b, q⟩, []⟩)) := by
  have bounds := is.bounds
  have way : (Node.seq (.set (.single '\\')) escapeTail).ways l.text 0 b [] ≠ [] :=
    List.ne_nil_of_mem ((mem_ways_escape_iff (w := (q, [])) (by omega)).2 ⟨is, rfl⟩)
  obtain ⟨choice, found, chosen, start, picks⟩ := string_choice literal.described known
    (f := escape) (by decide) tree_escape ge (by omega) way silent
  cases picks with
  | close answered =>
    obtain ⟨-, w, way', -⟩ := found_way tree_stringEnd (by omega) answered
    rw [start, ends] at way'
    simp at way'
  | ask ask leaf names asked same answered =>
    obtain rfl := string_asks asked
    obtain ⟨is', groups⟩ := found_escape (by omega) answered
    have candidate := literal.candidates _ (candidate_of_choose chosen).1
    obtain ⟨⟨first, last⟩, groups'⟩ := found
    simp only at start groups is'
    subst start groups
    rw [chosen, candidate, is'.unique is]

theorem captured_end (l : Line) (scopes rules : List String) (b : Nat) (quote : Bool) :
    l.captured (.ofList [(1, closingScope), (2, newlineScope)]) false scopes rules
        ⟨⟨b, b + 1⟩, endGroups b quote⟩ =
      l.piece b (b + 1) (scopes ++ [endScope quote]) rules := by
  cases quote <;> exact List.append_nil _

theorem captured_escape (l : Line) (scopes rules : List String) (b q : Nat) :
    l.captured escapeRule.captures escapeRule.scope.isSome (within scopes escapeRule.scope) rules
        ⟨⟨b, q⟩, []⟩ =
      l.clipped b q (scopes ++ [escapeScope]) rules :=
  List.append_nil _

theorem step_end (literal : Literal frame) (ge : pos ≤ b) {quote : Bool}
    (chosen : choose (searchIn l.text) grammar.rules (context grammar (frame :: outer)) pos =
      .ok (some (.close, ⟨⟨b, b + 1⟩, endGroups b quote⟩))) :
    step (searchIn l.text) grammar l pos (frame :: outer) =
      .ok (l.clipped pos b frame.contentScopes frame.rules ++
        l.piece b (b + 1) (frame.scopes ++ [endScope quote]) frame.rules,
        .moved (b + 1) outer) := by
  rw [step_of_choose_some chosen, not_stalls (by simp only; omega)]
  simp only [taken, Choice.take, literal.captures, captured_end, context, Bool.false_eq_true,
    if_false, Nat.max_eq_right (Nat.le_succ_of_le ge)]

theorem step_escape (literal : Literal frame) (known : Known grammar (frame :: outer)) (ge : pos ≤ b)
    (is : EscapeAt l.text b q) (ends : stringEndTree.ways l.text 0 b [] = [])
    (silent : Silent Area.string.patterns l.text pos b) :
    step (searchIn l.text) grammar l pos (frame :: outer) =
      .ok (l.clipped pos b frame.contentScopes frame.rules ++
        l.clipped b q (frame.contentScopes ++ [escapeScope])
          (frame.rules ++ ["stringCharacterEscape"]),
        .moved q (frame :: outer)) := by
  have bounds := is.bounds
  have chosen := choose_escape (l := l) literal known ge is ends silent
  rw [step_of_choose_some chosen, not_stalls (by simp only; omega)]
  simp only [taken, Choice.take, captured_escape, context, Bool.false_eq_true, if_false,
    Nat.max_eq_right (show pos ≤ q by omega)]

end Steps

def behindEscapes : Nat → List Span → Nat
  | pos, [] => pos
  | _, e :: escapes => behindEscapes e.stop escapes

/-- Where a literal ends: at the quote, or else at the last character of the line, if some of the
line is left and no escape has that character, or at the end of the line. -/
def endPlace (content : List Char) (pos : Nat) (escapes : List Span) : Option Nat → Nat
  | some quote => quote
  | none =>
    if pos < content.length ∧ ∀ e ∈ escapes, e.stop < content.length then content.length - 1
    else content.length

def literalTokens (l : Line) (frame : Frame) (last : Nat) (quote : Bool) : Nat → List Span → List Token
  | pos, [] =>
    l.clipped pos last frame.contentScopes frame.rules ++
      l.piece last (last + 1) (frame.scopes ++ [endScope quote]) frame.rules
  | pos, e :: escapes =>
    l.clipped pos e.start frame.contentScopes frame.rules ++
      l.clipped e.start e.stop (frame.contentScopes ++ [escapeScope])
        (frame.rules ++ ["stringCharacterEscape"]) ++
      literalTokens l frame last quote e.stop escapes

section Run

variable {engine : Regex.Engine} {l : Line} {frame : Frame} {outer : List Frame} {pos b : Nat}

/-- What the scan makes of a literal: behind the escapes it finds the end. With more steps than
escapes it leaves the literal there, and with no more it gives up the line inside. -/
structure ReadsLiteral (engine : Regex.Engine) (l : Line) (frame : Frame) (outer : List Frame)
    (pos : Nat) (escapes : List Span) (quote : Option Nat) (last room : Nat) : Prop where
  close : choose (searchBy engine l.text) grammar.rules (context grammar (frame :: outer))
      (behindEscapes pos escapes) =
    .ok (some (.close, ⟨⟨last, last + 1⟩, endGroups last quote.isSome⟩))
  left : escapes.length < room →
    scanFrom (searchBy engine l.text) grammar l room pos (frame :: outer) =
      (scanFrom (searchBy engine l.text) grammar l (room - (escapes.length + 1)) (last + 1)
        outer).map
        (.behind (literalTokens l frame last quote.isSome pos escapes))
  givenUp : room ≤ escapes.length → ∃ tokens,
    scanFrom (searchBy engine l.text) grammar l room pos (frame :: outer) =
      .ok ⟨tokens, frame :: outer, true⟩

theorem readsLiteral_of_end (literal : Literal frame) {quote : Option Nat} {last : Nat}
    (ge : pos ≤ last)
    (chosen : choose (searchIn l.text) grammar.rules (context grammar (frame :: outer)) pos =
      .ok (some (.close, ⟨⟨last, last + 1⟩, endGroups last quote.isSome⟩)))
    (room : Nat) : ReadsLiteral engine l frame outer pos [] quote last room := by
  refine ⟨(choose_literal literal engine l.text outer pos).trans chosen, fun enough => ?_,
    fun few => ?_⟩
  · obtain ⟨room, rfl⟩ : ∃ n, room = n + 1 := ⟨room - 1, by simp at enough; omega⟩
    have stepped := (step_literal literal engine l outer pos).trans (step_end literal ge chosen)
    exact scanFrom_step stepped room
  · obtain rfl : room = 0 := Nat.le_zero.1 few
    exact ⟨[], rfl⟩

theorem readsLiteral_of_escape {p q last : Nat} {escapes : List Span} {quote : Option Nat}
    (stepped : step (searchBy engine l.text) grammar l pos (frame :: outer) =
      .ok (l.clipped pos p frame.contentScopes frame.rules ++
        l.clipped p q (frame.contentScopes ++ [escapeScope])
          (frame.rules ++ ["stringCharacterEscape"]),
        .moved q (frame :: outer)))
    (later : ∀ room, ReadsLiteral engine l frame outer q escapes quote last room) (room : Nat) :
    ReadsLiteral engine l frame outer pos (⟨p, q⟩ :: escapes) quote last room := by
  refine ⟨(later room).close, fun enough => ?_, fun few => ?_⟩
  · obtain ⟨room, rfl⟩ : ∃ n, room = n + 1 := ⟨room - 1, by simp at enough; omega⟩
    have less : room + 1 - ((⟨p, q⟩ :: escapes : List Span).length + 1) =
        room - (escapes.length + 1) := by
      rw [List.length_cons]
      omega
    rw [scanFrom_step stepped, (later room).left (by simpa using enough), map_behind_behind, less]
    simp only [literalTokens, List.append_assoc]
  · cases room with
    | zero => exact ⟨[], rfl⟩
    | succ room =>
      obtain ⟨tokens, rest⟩ := (later room).givenUp (by simpa using few)
      rw [scanFrom_step stepped, rest]
      exact ⟨_, rfl⟩

/-- From a place in a literal the scan makes of it what the reader does from there. Up to that place
it finds nothing. -/
theorem readsLiteral_of_skims (literal : Literal frame) (known : Known grammar (frame :: outer))
    (inLine : '\n' ∉ l.content) {escapes : List Span} {quote : Option Nat}
    (reads : Skims l.content b escapes quote) (ge : pos ≤ b)
    (silent : Silent Area.string.patterns l.text pos b) (room : Nat) :
    ReadsLiteral engine l frame outer pos escapes quote (endPlace l.content pos escapes quote) room := by
  have size : l.text.length = l.content.length + 1 := length_text l
  have text {p : Nat} {c : Char} (here : l.content[p]? = some c) :
      p < l.content.length ∧ l.text[p]? = some c := by
    have lt := (List.getElem?_eq_some_iff.1 here).1
    exact ⟨lt, by rw [Line.text, List.getElem?_append_left lt, here]⟩
  have free {p : Nat} {c : Char} (here : l.text[p]? = some c) (plain : c ≠ '\\') (q : Nat) :
      ¬ EscapeAt l.text p q := fun is => plain (Option.some.inj (here.symm.trans is.bounds.1))
  induction reads generalizing pos room with
  | @quote p here =>
    obtain ⟨lt, there⟩ := text here
    have chosen := choose_end literal known ge (by omega)
      ((ways_stringEnd_iff inLine (Nat.le_of_lt lt)).2 (.inl here)) (free there (by decide)) silent
    rw [decide_eq_true there] at chosen
    exact readsLiteral_of_end literal ge chosen room
  | @lineEnd p full =>
    subst full
    have standing : pos = l.content.length := by
      refine Nat.le_antisymm ge (Nat.le_of_not_lt fun before => ?_)
      refine (ways_stringEnd_iff inLine (Nat.sub_le _ 1)).2 (.inr (by omega)) ?_
      exact silent stringEnd (by decide) _ tree_stringEnd (l.content.length - 1) (by omega)
        (by omega) (by omega)
    have chosen := choose_end literal known ge (by omega)
      ((ways_stringEnd_iff inLine (Nat.le_refl _)).2 (.inr (Nat.le_succ _)))
      (free text_getElem?_content (by decide)) silent
    rw [decide_eq_false (by rw [text_getElem?_content]; decide)] at chosen
    have place : endPlace l.content pos [] none = l.content.length := by simp [endPlace, standing]
    rw [place]
    exact readsLiteral_of_end literal ge chosen room
  | @escape p q escapes quote is rest ih =>
    have bounds := is.bounds
    have ends := ways_stringEnd_eq_nil inLine (p := p) (by omega) (by rw [bounds.1]; decide)
    have stepped := (step_literal literal engine l outer pos).trans
      (step_escape literal known ge (escapeAt_line.2 is) ends silent)
    have place : endPlace l.content pos (⟨p, q⟩ :: escapes) quote =
        endPlace l.content q escapes quote := by
      have before : pos < l.content.length := by omega
      cases quote <;> simp [endPlace, before]
    rw [place]
    refine readsLiteral_of_escape stepped (fun room => ih (Nat.le_refl q) ?_ room) room
    intro f _ tree _ i ge lt
    omega
  | @plain p c escapes quote here other none rest ih =>
    obtain ⟨lt, there⟩ := text here
    have none' (q : Nat) : ¬ EscapeAt l.text p q := fun is => none q (escapeAt_line.1 is)
    rcases Nat.lt_or_eq_of_le lt with more | last
    · have ends := ways_stringEnd_eq_nil inLine more (by rw [here]; simpa using other)
      have noEscape : (Node.seq (.set (.single '\\')) escapeTail).ways l.text 0 p [] = [] :=
        List.eq_nil_iff_forall_not_mem.2 fun w member =>
          none' w.1 ((mem_ways_escape_iff (by omega)).1 member).1
      exact ih (Nat.le_succ_of_le ge) (silent.grow ends noEscape) room
    · -- What the reader skips last is what the scan ends the literal with.
      obtain ⟨rfl, rfl⟩ := rest.at_end last
      have chosen := choose_end literal known ge (by omega)
        ((ways_stringEnd_iff inLine (Nat.le_of_lt lt)).2 (.inr (by omega))) none' silent
      rw [decide_eq_false (by rw [there]; simpa using other)] at chosen
      have place : endPlace l.content pos [] Option.none = p := by
        have before : pos < l.content.length := by omega
        simp only [endPlace, before, true_and, List.not_mem_nil, false_imp_iff, implies_true, if_true]
        omega
      rw [place]
      exact readsLiteral_of_end literal ge chosen room

end Run

end ScopeGrammar.WebAssembly
