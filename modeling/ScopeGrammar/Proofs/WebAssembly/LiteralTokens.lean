import ScopeGrammar.Proofs.Result
import ScopeGrammar.Proofs.Scan.Carrying
import ScopeGrammar.Proofs.WebAssembly.Literals

set_option autoImplicit false

namespace ScopeGrammar.WebAssembly

open Scan
open Regex (Found Node Span Way)

def literalTags : List String := [escapeScope, closingScope, newlineScope]

def sparesTags : Leaf → Bool
  | .single _ => true
  | .region _ region _ =>
    (region.scope.toList ++ region.contentScope.toList).all fun scope =>
      literalTags.all fun tag => lacksName tag scope

theorem leaves_spareTags : (leaves grammar).all sparesTags = true := by decide +kernel

theorem root_sparesTags :
    (literalTags.all fun tag => lacksName tag grammar.metadata.scopeName) = true := by decide

section Tags

variable {l : Line} {frame : Frame} {outer stack : List Frame} {tag : String}

theorem enclosing_unmarked (known : Known grammar stack) {tag : String}
    (among : tag ∈ literalTags) : Unmarked tag (enclosing grammar stack) := by
  intro scope member
  rcases List.mem_cons.1 member with rfl | inside
  · exact List.all_eq_true.1 root_sparesTags tag among
  · obtain ⟨frame, there, has⟩ := List.mem_flatMap.1 inside
    have spares := List.all_eq_true.1 leaves_spareTags _ (known frame (List.mem_reverse.1 there))
    exact List.all_eq_true.1 (List.all_eq_true.1 spares scope has) tag among

theorem frame_unmarked (known : Known grammar (frame :: outer))
    (justified : Justified grammar (frame :: outer)) (tag : String) (among : tag ∈ literalTags) :
    Unmarked tag frame.scopes ∧ Unmarked tag frame.contentScopes := by
  have inside : Unmarked tag frame.contentScopes := by
    have around : frame.contentScopes = enclosing grammar (frame :: outer) := context_scopes justified
    exact around ▸ enclosing_unmarked known among
  refine ⟨fun scope member => inside scope ?_, inside⟩
  rw [justified.1.contentScopes]
  exact List.mem_append_left _ member

theorem filter_piece_of_tag {scopes rules : List String} {start stop : Nat}
    (is : lacksName tag tag = false) :
    (l.piece start stop (scopes ++ [tag]) rules).filter (·.hasScope tag) =
      l.piece start stop (scopes ++ [tag]) rules :=
  List.filter_eq_self.2 fun _ member => hasScope_of_last is (piece_scopes member)

theorem filter_piece_of_unmarked {scopes rules : List String} {start stop : Nat}
    (unmarked : Unmarked tag scopes) :
    (l.piece start stop scopes rules).filter (·.hasScope tag) = [] :=
  filter_unmarked fun _ member => piece_scopes member ▸ unmarked

theorem filter_clipped_of_unmarked {scopes rules : List String} {start stop : Nat}
    (unmarked : Unmarked tag scopes) :
    (l.clipped start stop scopes rules).filter (·.hasScope tag) = [] :=
  filter_piece_of_unmarked unmarked

theorem unmarked_snoc {scopes : List String} {other : String} (unmarked : Unmarked tag scopes)
    (differ : lacksName tag other = true) : Unmarked tag (scopes ++ [other]) :=
  unmarked_append unmarked (by simpa [Unmarked] using differ)

theorem filter_escapes (outside : Unmarked escapeScope frame.scopes)
    (inside : Unmarked escapeScope frame.contentScopes) (last : Nat) (quote : Bool) (pos : Nat)
    (escapes : List Span) :
    (literalTokens l frame last quote pos escapes).filter (·.hasScope escapeScope) =
      escapes.flatMap fun e => l.clipped e.start e.stop (frame.contentScopes ++ [escapeScope])
        (frame.rules ++ ["stringCharacterEscape"]) := by
  induction escapes generalizing pos with
  | nil =>
    have differ : lacksName escapeScope (endScope quote) = true := by cases quote <;> decide
    rw [literalTokens, List.filter_append, filter_clipped_of_unmarked inside,
      filter_piece_of_unmarked (unmarked_snoc outside differ)]
    rfl
  | cons e escapes ih =>
    rw [literalTokens, List.filter_append, List.filter_append, filter_clipped_of_unmarked inside,
      List.flatMap_cons, ih, List.nil_append, Line.clipped, filter_piece_of_tag (by decide)]

theorem filter_end (other : Bool) (outside : Unmarked (endScope other) frame.scopes)
    (inside : Unmarked (endScope other) frame.contentScopes) (last : Nat) (quote : Bool) (pos : Nat)
    (escapes : List Span) :
    (literalTokens l frame last quote pos escapes).filter (·.hasScope (endScope other)) =
      if quote = other then l.piece last (last + 1) (frame.scopes ++ [endScope quote]) frame.rules
      else [] := by
  induction escapes generalizing pos with
  | nil =>
    rw [literalTokens, List.filter_append, filter_clipped_of_unmarked inside, List.nil_append]
    by_cases same : quote = other
    · subst same
      rw [if_pos rfl, filter_piece_of_tag (by cases quote <;> decide)]
    · have differ : lacksName (endScope other) (endScope quote) = true := by
        cases quote <;> cases other <;> first | decide | exact absurd rfl same
      rw [if_neg same, filter_piece_of_unmarked (unmarked_snoc outside differ)]
  | cons e escapes ih =>
    have differ : lacksName (endScope other) escapeScope = true := by cases other <;> decide
    rw [literalTokens, List.filter_append, List.filter_append, filter_clipped_of_unmarked inside,
      filter_clipped_of_unmarked (unmarked_snoc inside differ), ih]
    rfl

theorem mem_literalTokens {pos b last : Nat} {escapes : List Span} {t : Token}
    (reads : Skims l.content b escapes (some last)) (ge : pos ≤ b)
    (member : t ∈ literalTokens l frame last true pos escapes) :
    t.Between l pos (last + 1) ∧ ∃ scopes ∈ [frame.contentScopes, frame.scopes],
      ∃ tags, tags ⊆ [escapeScope, closingScope] ∧ t.scopes = scopes ++ tags := by
  have gap {a c : Nat} (there : t ∈ l.clipped a c frame.contentScopes frame.rules) :
      ∃ scopes ∈ [frame.contentScopes, frame.scopes],
        ∃ tags, tags ⊆ [escapeScope, closingScope] ∧ t.scopes = scopes ++ tags :=
    ⟨frame.contentScopes, by simp, [], by simp, by simp [clipped_scopes there]⟩
  generalize quote : some last = stop at reads
  induction reads generalizing pos with
  | @quote p =>
    obtain rfl := Option.some.inj quote
    rcases List.mem_append.1 member with inside | ending
    · exact ⟨between_of_clipped inside (Nat.le_refl pos) (Nat.le_succ _), gap inside⟩
    · exact ⟨between_of_piece ending ge (Nat.le_refl _), frame.scopes, by simp, [closingScope], by simp,
        piece_scopes ending⟩
  | lineEnd => cases quote
  | @escape p q escapes _ is rest ih =>
    obtain rfl := quote
    have bounds := is.bounds
    have le := rest.le_quote
    rcases List.mem_append.1 member with front | later
    · rcases List.mem_append.1 front with inside | escape
      · exact ⟨between_of_clipped inside (Nat.le_refl pos) (by simp only; omega), gap inside⟩
      · exact ⟨between_of_clipped escape ge (by simp only; omega), frame.contentScopes, by simp,
          [escapeScope], by simp, clipped_scopes escape⟩
    · obtain ⟨between, scopes⟩ := ih (Nat.le_refl q) later rfl
      exact ⟨between.mono (by omega) (Nat.le_refl _), scopes⟩
  | plain _ _ _ _ ih => exact ih (Nat.le_succ_of_le ge) member quote

end Tags

/-- What the scan makes of the rest of a literal that a reader reads, with some steps left for the
line. The literal is left at the quote where the reader stops, and there is no token for a line
without one; or it is left at the last character of the line, or behind it, and that is the one such
token. The tokens of escapes are the escapes that the reader skips. -/
theorem literals_read (engine : Regex.Engine) :
    (∀ lines number made pos stack, Reached (searchBy engine) grammar lines number made pos stack →
      Known grammar stack ∧ Justified grammar stack) ∧
    (∀ content c, c ≤ content.length → ∃ escapes quote, Skims content c escapes quote) ∧
    ∀ (l : Line) (frame : Frame) (outer : List Frame) (c room : Nat) (escapes : List Span)
      (quote : Option Nat),
      Known grammar (frame :: outer) → Justified grammar (frame :: outer) →
      frame.site ∈ literalSites → '\n' ∉ l.content → Skims l.content c escapes quote →
      let last := endPlace l.content c escapes quote
      let ending := l.piece last (last + 1) (frame.scopes ++ [endScope quote.isSome]) frame.rules
      choose (searchBy engine l.text) grammar.rules (context grammar (frame :: outer))
          (behindEscapes c escapes) =
        .ok (some (.close, ⟨⟨last, last + 1⟩, endGroups last quote.isSome⟩)) ∧
      (escapes.length < room → ∃ tokens,
        scanFrom (searchBy engine l.text) grammar l room c (frame :: outer) =
          (scanFrom (searchBy engine l.text) grammar l (room - (escapes.length + 1)) (last + 1)
            outer).map (.behind tokens) ∧
        tokens.filter (·.hasScope escapeScope) = (escapes.flatMap fun e =>
          l.piece e.start e.stop (frame.contentScopes ++ [escapeScope])
            (frame.rules ++ ["stringCharacterEscape"])) ∧
        tokens.filter (·.hasScope closingScope) = (if quote.isSome then ending else []) ∧
        tokens.filter (·.hasScope newlineScope) = (if quote.isSome then [] else ending)) ∧
      (room ≤ escapes.length → ∃ tokens,
        scanFrom (searchBy engine l.text) grammar l room c (frame :: outer) =
          .ok ⟨tokens, frame :: outer, true⟩) := by
  refine ⟨fun _ _ _ _ _ reached => ⟨reached.known, reached_justified reached⟩,
    fun _ _ inside => exists_skims inside, ?_⟩
  intro l frame outer c room escapes quote known justified site inLine reads last ending
  have literal := literal_of_known (known frame (List.mem_cons_self ..)) site
  have read : ReadsLiteral engine l frame outer c escapes quote last room :=
    readsLiteral_of_skims literal known inLine reads (Nat.le_refl c)
      (fun f _ tree _ i ge lt => by omega) room
  refine ⟨read.close, fun enough => ⟨_, read.left enough, ?_, ?_, ?_⟩, read.givenUp⟩
  · obtain ⟨outside, inside⟩ := frame_unmarked known justified escapeScope (by decide)
    rw [filter_escapes outside inside]
    refine congrArg List.flatten (List.map_congr_left fun e member => ?_)
    rw [Line.clipped, Nat.min_eq_left (reads.escape_bounds e member).2.2]
  · obtain ⟨outside, inside⟩ := frame_unmarked known justified closingScope (by decide)
    exact filter_end true outside inside last quote.isSome c escapes
  · obtain ⟨outside, inside⟩ := frame_unmarked known justified newlineScope (by decide)
    refine (filter_end false outside inside last quote.isSome c escapes).trans ?_
    cases quote <;> rfl

theorem reached_of_two {engine : Regex.Engine} {l : Line} {p : Nat} {stack : List Frame} (first : l.number = 0)
    (next : (next? (searchBy engine l.text) grammar l 0 []).bind
      (fun s => next? (searchBy engine l.text) grammar l s.1 s.2) = some (p, stack)) :
    Reached (searchBy engine) grammar [l.content] 0 2 p stack := by
  obtain ⟨⟨pos, open'⟩, one, two⟩ := Option.bind_eq_some_iff.1 next
  obtain ⟨tokens, stepped⟩ := step_of_next? two
  obtain ⟨number, content⟩ := l
  obtain rfl : number = 0 := first
  exact .moved (reached_of_next? rfl one) rfl (by decide) stepped

def feeding : Line := ⟨0, "(\"\\n\"".toList⟩

theorem feeding_skims : Skims feeding.content 2 [⟨2, 4⟩] (some 4) :=
  .escape ⟨['n'], .letter (by decide), by decide, rfl⟩ (.quote rfl)

theorem literals_read_feeding :
    ∃ frame outer, Reached (searchBy .standard) grammar [feeding.content] 0 2 2 (frame :: outer) ∧
      frame.site ∈ literalSites ∧ ∃ tokens,
        scanFrom (searchBy .standard feeding.text) grammar feeding (mostSteps - 2) 2 (frame :: outer) =
          (scanFrom (searchBy .standard feeding.text) grammar feeding (mostSteps - 4) 5 outer).map
            (.behind tokens) ∧
        (tokens.filter (·.hasScope escapeScope)).map (·.text) = ["\\n"] ∧
        (tokens.filter (·.hasScope closingScope)).map (·.text) = ["\""] ∧
        tokens.filter (·.hasScope newlineScope) = [] := by
  have open' : ((next? (searchBy .standard feeding.text) grammar feeding 0 []).bind
      (fun s => next? (searchBy .standard feeding.text) grammar feeding s.1 s.2)).map
      (fun s => (s.1, s.2.map (·.site))) = some (2, [Area.string.site, Area.form.site]) := by
    decide +kernel
  obtain ⟨⟨pos, stack⟩, next, same⟩ := Option.map_eq_some_iff.1 open'
  obtain ⟨rfl, sites⟩ := Prod.mk.inj same
  obtain ⟨frame, outer, rfl, site, -⟩ := List.map_eq_cons_iff.1 sites
  have reached := reached_of_two rfl next
  have literal : frame.site ∈ literalSites := by
    rw [site]
    decide
  obtain ⟨known, justified⟩ := (literals_read .standard).1 _ _ _ _ _ reached
  obtain ⟨tokens, scanned, escapes, ending, newline⟩ := ((literals_read .standard).2.2 feeding frame outer 2
    (mostSteps - 2) _ _ known justified literal (by decide) feeding_skims).2.1 (by decide)
  refine ⟨frame, outer, reached, literal, tokens, scanned, ?_, ?_, newline⟩
  · rw [escapes]
    rfl
  · rw [ending]
    rfl

def feeds (n : Nat) : List Char := (List.replicate n ['\\', 'n']).flatten

theorem skims_feeds {content tail : List Char} (n : Nat) {p : Nat}
    (there : content.drop p = feeds n ++ '"' :: tail) :
    ∃ escapes, escapes.length = n ∧ Skims content p escapes (some (p + 2 * n)) := by
  induction n generalizing p with
  | zero => exact ⟨[], rfl, .quote (head_of_drop there).1⟩
  | succ n ih =>
    have front : feeds (n + 1) = '\\' :: 'n' :: feeds n := by simp [feeds, List.replicate_succ]
    rw [front, List.cons_append, List.cons_append] at there
    obtain ⟨-, there'⟩ := head_of_drop there
    obtain ⟨escapes, count, reads⟩ := ih (head_of_drop there').2
    refine ⟨⟨p, p + 2⟩ :: escapes, by simp [count], .escape ⟨['n'], .letter (by decide), ?_, rfl⟩ ?_⟩
    · rw [there]
      exact ⟨_, rfl⟩
    · rw [show p + 2 * (n + 1) = p + 2 + 2 * n by omega]
      exact reads

theorem feed_not_mem_feeds (n : Nat) : '\n' ∉ feeds n := by
  simp only [feeds, List.mem_flatten, List.mem_replicate, not_exists, not_and]
  rintro _ ⟨-, rfl⟩
  decide

def crowded : List (List Char) := [['('], '"' :: (feeds 9999 ++ ['"', ')'])]

def crowdedLine : Line := ⟨1, '"' :: (feeds 9999 ++ ['"', ')'])⟩

theorem leaves_asksString :
    ((leaves grammar).all fun leaf => match leaf with
      | .single _ => true
      | .region site _ _ => !asksString leaf || literalSites.contains site) = true := by
  decide +kernel

theorem step_opens_literal {l : Line} {rest : List Char} (quote : l.content = '"' :: rest)
    {frame : Frame} (known : Known grammar [frame]) (site : frame.site = Area.form.site) :
    ∃ tokens literal, step (searchIn l.text) grammar l 0 [frame] =
      .ok (tokens, .moved 1 [literal, frame]) ∧ literal.site ∈ literalSites := by
  have here : l.text[0]? = some '"' := by simp [Line.text, quote]
  have round : frame.region.closing = rightParenthesis :=
    (described (known frame (List.mem_singleton_self _)) site).closing
  have sealed' := sealed_of_known (known frame (List.mem_singleton_self _)) round
  have holds : holdsStrings frame.site = true := by
    rw [site]
    decide
  obtain ⟨choice, found, chosen, start, taken⟩ := taken_at_quote known
    (idle_self (searchIn_within l.text) (Nat.zero_le _)) (Nat.le_refl 0) here (sealed'.quoted holds)
  rcases taken with ⟨-, closing, tree, closes, read, way⟩ | ⟨⟨leaf, names⟩, rfl, around⟩
  · cases closes
    rw [round] at read
    cases tree_rightParenthesis.symm.trans read
    simp [ways_single, here] at way
  · obtain ⟨among, answered⟩ := candidate_of_choose chosen
    have leafKnown := known_of_choose known chosen
    rcases sealed'.asked _ among with same | ⟨-, string | name⟩
    · simp [same] at around
    · cases leaf with
      | single rule => simp [asksString] at string
      | region at' region children =>
        have literal := List.all_eq_true.1 leaves_asksString _ leafKnown
        simp only [string, Bool.not_true, Bool.false_or] at literal
        simp only [asksString, Bool.and_eq_true, decide_eq_true_eq] at string
        simp only [Leaf.pattern, string.1.1] at answered
        have stop := (found_single tree_quote (Nat.zero_le _) answered).2
        have stepped := step_of_choose_some (l := l) chosen
        rw [not_stalls (by omega), stop, start] at stepped
        exact ⟨_, _, stepped, List.contains_iff_mem.1 literal⟩
    · cases leaf with
      | single rule => simp [asksImportName] at name
      | region at' region children =>
        simp only [asksImportName, Bool.and_eq_true, decide_eq_true_eq] at name
        simp only [Leaf.pattern, name.1.1.1.2] at answered
        obtain ⟨-, w, way, -⟩ := found_way tree_importNameOpening (Nat.zero_le _) answered
        obtain ⟨-, i, before, -⟩ := mem_ways_importNameOpening way
        omega

theorem reached_behind_form :
    ∃ frame, Reached searchIn grammar crowded 1 0 0 [frame] ∧ frame.site = Area.form.site := by
  let first : Line := ⟨0, ['(']⟩
  have open' : (next? (searchIn first.text) grammar first 0 []).bind (fun s =>
      (choose (searchIn first.text) grammar.rules (context grammar s.2) s.1).toOption.map
        fun chosen => (chosen.isNone, s.2.map (·.site))) = some (true, [Area.form.site]) := by
    decide +kernel
  obtain ⟨⟨pos, stack⟩, next, rest⟩ := Option.bind_eq_some_iff.1 open'
  obtain ⟨chosen, answered, same⟩ := Option.map_eq_some_iff.1 rest
  obtain ⟨nothing, sites⟩ := Prod.mk.inj same
  obtain ⟨form, rfl, site⟩ := List.map_eq_singleton_iff.1 sites
  obtain rfl := Option.isNone_iff_eq_none.1 nothing
  obtain ⟨before, stepped⟩ := step_of_next? next
  have finished := step_of_choose_none (l := first) (toOption_eq_some.1 answered)
  exact ⟨form, .ended (.moved .start rfl (by decide) stepped) rfl (by decide) finished (.inl rfl),
    site⟩

/-- The string is closed in its line, and the line is given up before the scan gets there: behind it
the string is open. -/
theorem literal_outlasts_steps :
    ∃ frame outer escapes quote tokens,
      Reached searchIn grammar crowded 1 1 1 (frame :: outer) ∧ frame.site ∈ literalSites ∧
      Skims crowdedLine.content 1 escapes (some quote) ∧
      scanFrom (searchIn crowdedLine.text) grammar crowdedLine (mostSteps - 1) 1 (frame :: outer) =
        .ok ⟨tokens, frame :: outer, true⟩ ∧
      Reached searchIn grammar crowded 2 0 0 (frame :: outer) := by
  obtain ⟨form, behind, site⟩ := reached_behind_form
  obtain ⟨opening, literal, opened, quoted⟩ := step_opens_literal (l := crowdedLine) rfl
    behind.known site
  have reached : Reached searchIn grammar crowded 1 1 1 [literal, form] :=
    .moved behind rfl (by decide) opened
  have inLine : '\n' ∉ crowdedLine.content := by
    simp only [crowdedLine, List.mem_cons, List.mem_append, feed_not_mem_feeds]
    decide
  have there : crowdedLine.content.drop 1 = feeds 9999 ++ '"' :: [')'] := rfl
  obtain ⟨escapes, count, reads⟩ := skims_feeds 9999 there
  obtain ⟨given, scanned⟩ := (readsLiteral_of_skims (literal_of_known
    (reached.known literal (List.mem_cons_self ..)) quoted) reached.known inLine reads
    (Nat.le_refl 1) (fun f _ tree _ i ge lt => by omega) (mostSteps - 1)).givenUp
    (by rw [count]; decide)
  exact ⟨literal, [form], escapes, _, given, reached, quoted, reads, scanned,
    (scanFrom_reached rfl (mostSteps - 1) rfl reached scanned).2⟩

end ScopeGrammar.WebAssembly
