import ScopeGrammar.Proofs.Regex.Sight
import ScopeGrammar.Proofs.Scan.Carrying
import ScopeGrammar.Proofs.WebAssembly.Backtracking
import ScopeGrammar.Proofs.WebAssembly.Openings
import ScopeGrammar.Proofs.WebAssembly.Sealing

set_option autoImplicit false

namespace ScopeGrammar.WebAssembly

open Scan
open Regex (Found Node Spares mem_piece not_sees)

/-- A place for line comments: outside all regions, in a clause, or in a form or an annotation. -/
inductive CommentPlace : List Frame → Prop where
  | outside : CommentPlace []
  | clause {frame : Frame} {outer : List Frame} {word : Fragment} :
    frame.region.opening = clauseOpening word → CommentPlace (frame :: outer)
  | round {a : Area} {frame : Frame} {outer : List Frame} :
    a.isRound = true → frame.site = a.site → CommentPlace (frame :: outer)

section Asked

def remarkScope : String := "comment.line.double-semicolon.wasm"

def marks : List Char := [' ', '\t', ';', '\n']

def standsOff (f : Fragment) : Bool := hasTree f (·.shows blankChars marks true)

def isRemark (c : Candidate) : Bool :=
  outline c.leaf = (Ask.area .lineComment).outline &&
    c.names.getLast? = some Area.lineComment.name

/-- Whether line comments are among what is asked for, and nothing else begins where they do. -/
def asksRemarks (cs : List Candidate) : Bool :=
  cs.all (fun c => isRemark c || standsOff c.leaf.pattern) && cs.any isRemark

def isCommentPlace (site : Site) (region : Region) : Bool :=
  isClause region || Area.all.any fun a => a.isRound && site = a.site

def holdsRemarks : Leaf → Bool
  | .single _ => true
  | .region site region children =>
    !isCommentPlace site region ||
      (standsOff region.closing && asksRemarks (candidates table site children))

/-- Comments are asked for at every place for them, and the rest of the line is all they scope. -/
theorem remarks_held :
    (leaves grammar).all holdsRemarks = true ∧
      asksRemarks (candidates table (.top .entry) entry) = true ∧
      ((table.get? Area.lineComment.name).any (isRegion fun region _ =>
        region.contentScope = some remarkScope && region.closingCaptures.isEmpty)) = true := by
  decide +kernel

theorem CommentPlace.asks {stack : List Frame} (place : CommentPlace stack)
    (known : Known grammar stack) :
    asksRemarks (candidates table (context grammar stack).site (context grammar stack).children) =
        true ∧
      ∀ closing ∈ (context grammar stack).closing, standsOff closing = true := by
  have inside {frame : Frame} {outer : List Frame} (known : Known grammar (frame :: outer))
      (is : isCommentPlace frame.site frame.region = true) :
      asksRemarks (candidates table frame.site frame.children) = true ∧
        standsOff frame.region.closing = true := by
    have holds := List.all_eq_true.1 remarks_held.1 _ (known frame (by simp))
    simp only [Frame.leaf, holdsRemarks, is, Bool.not_true, Bool.false_or, Bool.and_eq_true] at holds
    exact holds.symm
  cases place with
  | outside => exact ⟨remarks_held.2.1, by simp [context]⟩
  | @clause frame outer word opening =>
    obtain ⟨keywords, listed, same⟩ := clauses_of_known (known frame (by simp)) opening
    have is : isClause frame.region = true :=
      List.any_eq_true.2 ⟨keywords, listed, decide_eq_true same⟩
    simpa [context] using inside known (by simp [isCommentPlace, is])
  | @round a frame outer round stands =>
    have is : (Area.all.any fun a => a.isRound && frame.site = a.site) = true :=
      List.any_eq_true.2 ⟨a, a.mem_all, by simp [round, stands]⟩
    simpa [context] using inside known (by simp [isCommentPlace, is])

theorem remark_region {region : Region} {children : List Pattern}
    (known : .region Area.lineComment.site region children ∈ leaves grammar) :
    region.contentScope = some remarkScope ∧ region.closingCaptures.isEmpty = true := by
  simpa using checked_of_registered remarks_held.2.2 known

end Asked

section Texts

variable {text gap rest : List Char} {c : Nat}

/-- At a place of a text there are blanks and two semicolons behind them. -/
structure OpensRemark (text : List Char) (c : Nat) (gap rest : List Char) : Prop where
  there : text.drop c = gap ++ ';' :: ';' :: rest
  blank : ∀ b ∈ gap, b ∈ blankChars

namespace OpensRemark

theorem sign (opens : OpensRemark text c gap rest) :
    text[c + gap.length]? = some ';' ∧ text[c + gap.length + 1]? = some ';' := by
  have behind := Regex.drop_behind opens.there
  obtain ⟨first, behind'⟩ := head_of_drop behind
  exact ⟨first, (head_of_drop behind').1⟩

theorem gap_blank (opens : OpensRemark text c gap rest) {i : Nat} (ge : c ≤ i)
    (lt : i < c + gap.length) {b : Char} (here : text[i]? = some b) : b ∈ blankChars := by
  obtain ⟨n, rfl⟩ := Nat.exists_eq_add_of_le ge
  rw [← List.getElem?_drop, opens.there, List.getElem?_append_left (by omega)] at here
  exact opens.blank b (List.mem_of_getElem? here)

theorem marked (opens : OpensRemark text c gap rest) {i : Nat} (ge : c ≤ i)
    (le : i ≤ c + gap.length) {b : Char} (here : text[i]? = some b) : b ∈ marks := by
  rcases Nat.lt_or_eq_of_le le with lt | rfl
  · have blank := opens.gap_blank ge lt here
    simp only [blankChars, marks, List.mem_cons, List.not_mem_nil, or_false] at blank ⊢
    exact blank.elim .inl (.inr ∘ .inl)
  · rw [opens.sign.1] at here
    exact Option.some.inj here ▸ by decide

theorem silent (opens : OpensRemark text c gap rest) {f : Fragment} (off : standsOff f = true)
    {tree : Node} (read : lineTree? f = some tree) {i : Nat} (ge : c ≤ i)
    (le : i ≤ c + gap.length) : tree.ways text 0 i [] = [] := by
  have inside := (List.getElem?_eq_some_iff.1 opens.sign.1).1
  refine List.eq_nil_iff_forall_not_mem.2 fun w way => ?_
  obtain ⟨other, read', shows⟩ := exists_tree off
  cases read.symm.trans read'
  refine not_sees le (fun j ge' le' b here => ?_) (fun b here => ?_)
    (Node.sees_of_way tree shows (by omega) way)
  · exact opens.marked (by omega) le' here
  · rw [opens.sign.1] at here
    exact Option.some.inj here ▸ by decide

theorem stop (opens : OpensRemark text c gap rest) {i : Nat} (ge : c ≤ i)
    (le : i ≤ c + gap.length) {w : Regex.Way}
    (way : w ∈ (Node.seq indent (.group (.group (pair ';' ';')))).ways text 0 i []) :
    w.1 = c + gap.length + 2 := by
  obtain ⟨sign, -⟩ := opens.sign
  have inside := (List.getElem?_eq_some_iff.1 sign).1
  obtain ⟨k, first, spares, here, -, last⟩ := mem_ways_lineComment (by omega) way
  rcases Nat.lt_trichotomy k (c + gap.length) with before | rfl | behind
  · have blank := opens.gap_blank (by omega) before here
    exact absurd blank (by decide)
  · exact last
  · exact absurd (by decide) (spares ';' (mem_piece.2 ⟨c + gap.length, le, behind, sign⟩))

end OpensRemark

theorem silent_at_end {l : Line} {f : Fragment} {i : Nat} {tree : Node}
    (ge : l.content.length ≤ i) (le : i ≤ l.text.length)
    (off : standsOff f = true ∨ f = lineCommentOpening) (read : lineTree? f = some tree) :
    tree.ways l.text 0 i [] = [] := by
  have size := length_text l
  have last {b : Char} (here : l.text[i]? = some b) : b = '\n' := by
    have inside := (List.getElem?_eq_some_iff.1 here).1
    obtain rfl : i = l.content.length := by omega
    rw [text_getElem?_content] at here
    exact (Option.some.inj here).symm
  refine List.eq_nil_iff_forall_not_mem.2 fun w way => ?_
  rcases off with off | rfl
  · obtain ⟨other, read', shows⟩ := exists_tree off
    cases read.symm.trans read'
    refine not_sees (Nat.le_refl i) (fun j ge' le' b here => ?_) (fun b here => ?_)
      (Node.sees_of_way tree shows le way)
    · obtain rfl : j = i := by omega
      exact last here ▸ by decide
    · exact last here ▸ by decide
  · cases read.symm.trans tree_lineCommentOpening
    obtain ⟨k, first, -, here, next, -⟩ := mem_ways_lineComment le way
    have inside := (List.getElem?_eq_some_iff.1 next).1
    omega

end Texts

section Steps

variable {l : Line} {stack : List Frame} {c : Nat} {gap rest : List Char}

theorem offers_remark (place : CommentPlace stack) (known : Known grammar stack) {o : Offer}
    (offered : o ∈ offers grammar.rules (context grammar stack)) :
    standsOff o.pattern = true ∨
      ∃ candidate, o.choice = .apply candidate ∧ isRemark candidate = true ∧
        o.pattern = lineCommentOpening := by
  obtain ⟨asks, closing⟩ := place.asks known
  simp only [asksRemarks, Bool.and_eq_true, List.all_eq_true, Bool.or_eq_true] at asks
  rcases offers_cases offered with ⟨-, close⟩ | ⟨candidate, there, apply, pattern⟩
  · exact .inl (closing _ close)
  · rcases asks.1 candidate there with remark | off
    · refine .inr ⟨candidate, apply, remark, ?_⟩
      simp only [isRemark, Bool.and_eq_true, decide_eq_true_eq] at remark
      exact pattern.trans (pattern_of_outline remark.1)
    · exact .inl (pattern ▸ off)

/-- What is taken before the sign of a line comment is the line comment. -/
theorem remark_chosen (known : Known grammar stack) (place : CommentPlace stack)
    (opens : OpensRemark l.text c gap rest) :
    ∃ region children names found,
      .region Area.lineComment.site region children ∈ leaves grammar ∧
      names.getLast? = some Area.lineComment.name ∧
      choose (searchIn l.text) grammar.rules (context grammar stack) c =
        .ok (some (.apply ⟨.region Area.lineComment.site region children, names⟩, found)) ∧
      found.whole.stop = c + gap.length + 2 := by
  obtain ⟨sign, sign'⟩ := opens.sign
  have inside := (List.getElem?_eq_some_iff.1 sign).1
  obtain ⟨asks, -⟩ := place.asks known
  simp only [asksRemarks, Bool.and_eq_true, List.any_eq_true] at asks
  obtain ⟨-, candidate, listed, remark⟩ := asks
  have pattern : candidate.leaf.pattern = lineCommentOpening := by
    simp only [isRemark, Bool.and_eq_true, decide_eq_true_eq] at remark
    exact pattern_of_outline remark.1
  obtain ⟨o, offered, same⟩ := offered_of_candidate (context grammar stack)
    (List.any_eq_true.2 ⟨candidate, listed, decide_eq_true pattern⟩)
  have read := same ▸ tree_lineCommentOpening
  have way : (Node.seq indent (.group (.group (pair ';' ';')))).ways l.text 0 (c + gap.length) [] ≠ [] :=
    ways_lineComment_ne_nil sign sign'
  obtain ⟨result, chosen⟩ := choose_answers known l.text c
  cases result with
  | none =>
    exact absurd (way_of_choose_none chosen offered read _ (by omega) (by omega)) way
  | some result =>
    obtain ⟨choice, found⟩ := result
    obtain ⟨other, answered, earlier⟩ := searchIn_of_way read (Nat.le_add_right ..) (by omega) way
    have least := choose_least chosen o offered other answered
    have range := choose_within (searchIn_within l.text) (by omega) chosen
    obtain ⟨o', offered', rfl, tree, read', w, way', stop⟩ := way_of_choose (by omega) chosen
    rcases offers_remark place known offered' with off | ⟨⟨leaf, names⟩, apply, remark', pattern'⟩
    · rw [opens.silent off read' range.1 (by omega)] at way'
      cases way'
    · simp only [isRemark, Bool.and_eq_true, decide_eq_true_eq] at remark'
      rw [apply] at chosen
      have member := known_of_choose known chosen
      cases leaf with
      | single rule => simp [outline, Ask.outline] at remark'
      | region site region children =>
        obtain rfl : site = Area.lineComment.site := Option.some.inj (Prod.mk.inj remark'.1).1
        rw [pattern'] at read'
        cases read'.symm.trans tree_lineCommentOpening
        exact ⟨region, children, names, found, member, remark'.2, chosen,
          stop ▸ opens.stop range.1 (by omega) way'⟩

theorem remark_ends {frame : Frame} {p : Nat} (known : Known grammar (frame :: stack))
    (stands : frame.site = Area.lineComment.site) (inLine : '\n' ∉ l.content)
    (inside : p ≤ l.content.length) :
    ∃ found, choose (searchIn l.text) grammar.rules (context grammar (frame :: stack)) p =
      .ok (some (.close, found)) ∧ found.whole = ⟨l.content.length, l.content.length⟩ := by
  have is := described (known frame (by simp)) stands
  have size := length_text l
  have offered : offers grammar.rules (context grammar (frame :: stack)) =
      [] ++ Offer.mk .close lineCommentClosing :: [] := by
    have none := is.candidates
    rw [Area.asks, Area.first, Area.later, List.append_nil, List.map_nil, List.map_eq_nil_iff] at none
    have all : candidates grammar.rules frame.site frame.children = [] := none
    simp [offers, context, all, is.closing, Area.closing]
  obtain ⟨found, chosen, answered, start⟩ := choose_first (choose_answers known l.text p) offered
    tree_lineCommentClosing inside (by omega) (ways_lineEnd_ne_nil (text_getElem?_content ..)) (by
      intro o member tree read i ge lt
      simp only [offered, List.nil_append, List.mem_singleton] at member
      subst member
      cases read.symm.trans tree_lineCommentClosing
      refine List.eq_nil_iff_forall_not_mem.2 fun w way => inLine ?_
      have last := (mem_ways_lineEnd way).2
      rw [Line.text, List.getElem?_append_left lt, List.getElem?_eq_getElem lt, Option.all_some,
        decide_eq_true_eq] at last
      exact last ▸ List.getElem_mem lt) (by simp)
  obtain ⟨-, w, way, stop⟩ := found_way tree_lineCommentClosing (by omega) answered
  have last : found.whole.stop = l.content.length :=
    stop.symm.trans ((mem_ways_lineEnd way).1.trans start)
  exact ⟨found, chosen, congr (congrArg Regex.Span.mk start) last⟩

theorem carries_remark (known : Known grammar stack) (place : CommentPlace stack)
    (inLine : '\n' ∉ l.content) (opens : OpensRemark l.text c gap rest) :
    ∃ before scopes rules,
      Carries (searchIn l.text) grammar l 2 c stack
        (before ++ l.piece (c + gap.length + 2) l.content.length scopes rules) l.content.length stack ∧
      (∀ t ∈ before, t.Between l c (c + gap.length + 2)) ∧
      scopes.getLast? = some remarkScope ∧ rules.getLast? = some Area.lineComment.name := by
  have size := length_text l
  have inside := (List.getElem?_eq_some_iff.1 opens.sign.2).1
  have inside' : c + gap.length + 2 ≤ l.content.length := by
    have here := opens.sign.2
    have notLast : c + gap.length + 1 ≠ l.content.length := fun same => by
      rw [same, text_getElem?_content] at here
      exact absurd (Option.some.inj here) (by decide)
    omega
  obtain ⟨region, children, names, found, member, named, chosen, stop⟩ :=
    remark_chosen known place opens
  obtain ⟨scope, captures⟩ := remark_region member
  have entered := step_enters (l := l) chosen (not_stalls (by omega))
  rw [show max c found.whole.stop = c + gap.length + 2 by omega] at entered
  generalize shape : (context grammar stack).enter l c Area.lineComment.site region children names =
    frame at entered
  have known' := step_known known entered
  obtain ⟨found', chosen', whole⟩ := remark_ends known' (shape ▸ rfl) inLine inside'
  have left := step_leaves (l := l) chosen' (by
    have passed : c ≠ c + gap.length + 2 := by omega
    simp [Choice.stalls, ← shape, Context.enter, passed])
  have empty : frame.region.closingCaptures.isEmpty = true := shape ▸ captures
  rw [captured_of_isEmpty empty, whole, clipped_self, List.append_nil, Nat.max_eq_right inside',
    Line.clipped, Nat.min_self] at left
  refine ⟨_, frame.contentScopes, frame.rules, (carries_step entered).trans (carries_step left),
    step_between (offers_groupsRead known) (by omega) entered, ?_, ?_⟩
  · simp [← shape, Context.enter, within, scope]
  · simp [← shape, Context.enter, named]

theorem nothing_at_end (known : Known grammar stack) (place : CommentPlace stack) :
    choose (searchIn l.text) grammar.rules (context grammar stack) l.content.length = .ok none := by
  have size := length_text l
  obtain ⟨result, chosen⟩ := choose_answers known l.text l.content.length
  cases result with
  | none => exact chosen
  | some result =>
    obtain ⟨choice, found⟩ := result
    have range := choose_within (searchIn_within l.text) (by omega) chosen
    obtain ⟨o, offered, -, tree, read, w, way, -⟩ := way_of_choose (by omega) chosen
    have either : standsOff o.pattern = true ∨ o.pattern = lineCommentOpening :=
      (offers_remark place known offered).imp id fun ⟨_, _, _, pattern⟩ => pattern
    rw [silent_at_end range.1 (by omega) either read] at way
    cases way

/-- Every state of a scan is of regions of the grammar. In such a state, where nothing is open or a
clause, a form or an annotation is innermost, two semicolons behind blanks at most take the rest of
the line, whatever it is, unless a search in the line is given up: the line is read to its end in
three steps, the open regions are as before, and what is behind the semicolons is one token, which is
in the comment. -/
theorem line_comments :
    (∀ engine lines number made pos stack,
      Reached (searchBy engine) grammar lines number made pos stack → Known grammar stack) ∧
    ∀ (l : Line) (c : Nat) (stack : List Frame), Known grammar stack → CommentPlace stack →
      '\n' ∉ l.content → ∀ gap rest : List Char, l.content.drop c = gap ++ ';' :: ';' :: rest →
      (∀ b ∈ gap, b = ' ' ∨ b = '\t') →
      ∃ before behind, (∀ engine room, 3 ≤ room → UnlessGivenUp engine grammar [l.content]
          (scanFrom (searchBy engine l.text) grammar l room c stack)
          (.ok ⟨before ++ behind, stack, false⟩)) ∧
        (∀ t ∈ before, t.stop ≤ byteSize (l.content.take (c + gap.length + 2))) ∧
        String.join (behind.map (·.text)) = String.ofList rest ∧
        ∀ t ∈ before ++ behind, byteSize (l.content.take (c + gap.length + 2)) ≤ t.start →
          t.hasRule "lineComment" = true ∧
            t.hasScope "comment.line.double-semicolon.wasm" = true := by
  refine ⟨fun _ _ _ _ _ _ reached => reached.known, ?_⟩
  intro l c stack known place inLine gap rest there blank
  have split : l.content.drop c = (gap ++ [';', ';']) ++ rest := by simpa using there
  obtain ⟨within, behind'⟩ := drop_text split (by simp)
  have opens : OpensRemark l.text c gap (rest ++ ['\n']) :=
    ⟨by simpa using behind', fun b member => by simpa [blankChars] using blank b member⟩
  have length : l.content.length = c + gap.length + 2 + rest.length := by
    have same := congrArg List.length there
    simp only [List.length_drop, List.length_append, List.length_cons] at same
    omega
  have behind : l.text.drop (c + gap.length + 2) = rest ++ ['\n'] :=
    (head_of_drop (head_of_drop (Regex.drop_behind opens.there)).2).2
  have front : l.text.take (c + gap.length + 2) = l.content.take (c + gap.length + 2) :=
    List.take_append_of_le_length (by omega)
  obtain ⟨before, scopes, rules, carries, between, scope, rule⟩ :=
    carries_remark known place inLine opens
  refine ⟨before, l.piece (c + gap.length + 2) l.content.length scopes rules, ?_, ?_, ?_, ?_⟩
  · intro engine room enough
    have expected := scanFrom_unlessGivenUp engine known l room c
    rwa [carries.finish (nothing_at_end known place) enough, clipped_self, List.append_nil] at expected
  · intro t member
    exact front ▸ ((between t member).bytes (by rw [length_text]; omega)).2.2
  · rw [length]
    exact text_of_piece behind scopes rules
  · intro t member late
    rcases List.mem_append.1 member with early | inside
    · have bytes := (between t early).bytes (by rw [length_text]; omega)
      rw [front] at bytes
      omega
    · constructor
      · rw [Token.hasRule, piece_rules inside, List.contains_iff_mem]
        exact List.mem_of_getLast? rule
      · obtain ⟨outer, last⟩ := List.getLast?_eq_some_iff.1 scope
        exact hasScope_of_last (by decide) ((piece_scopes inside).trans last)

def remarked : Line := ⟨0, "(func ;; \"(;(".toList⟩

theorem line_comments_in_function :
    ∃ frame, Reached searchIn grammar [remarked.content] 0 1 5 [frame] ∧ CommentPlace [frame] ∧
      '\n' ∉ remarked.content ∧ remarked.content.drop 5 = [' '] ++ ';' :: ';' :: " \"(;(".toList ∧
      ∃ before behind, scanFrom (searchIn remarked.text) grammar remarked 3 5 [frame] =
          .ok ⟨before ++ behind, [frame], false⟩ ∧
        (∀ t ∈ before, t.stop ≤ 8) ∧ String.join (behind.map (·.text)) = " \"(;(" ∧
        ∀ t ∈ before ++ behind, 8 ≤ t.start → t.hasRule "lineComment" = true ∧
          t.hasScope "comment.line.double-semicolon.wasm" = true := by
  obtain ⟨frame, next, opening⟩ := eq_singleton_of_map (f := (·.region.opening))
    (b := clauseOpening (anyOf [.func])) (show (next? (searchIn remarked.text) grammar remarked 0
      []).map _ = some (5, _) by decide +kernel)
  have reached := reached_of_next? rfl next
  have place : CommentPlace [frame] := .clause opening
  have inLine : '\n' ∉ remarked.content := by decide
  have there : remarked.content.drop 5 = [' '] ++ ';' :: ';' :: " \"(;(".toList := by decide
  obtain ⟨before, behind, scanned, early, text, late⟩ := line_comments.2 remarked 5 [frame]
    (line_comments.1 .patient _ _ _ _ _ reached) place inLine _ _ there (by simp)
  exact ⟨frame, reached, place, inLine, there, before, behind,
    unlessGivenUp_patient.1 (scanned .patient 3 (Nat.le_refl 3)), early, text, late⟩

def lengthyRemark : Line := ⟨0, ";; (".toList ++ (emptyComments 20 ++ ['x'])⟩

/-- The search for a module behind the parenthesis is given up, so that the line is not scanned. -/
theorem line_comment_given_up :
    CommentPlace [] ∧ '\n' ∉ lengthyRemark.content ∧
      (∃ rest, lengthyRemark.content.drop 0 = [] ++ ';' :: ';' :: rest) ∧
      (∀ room, scanFrom (searchBy .standard lengthyRemark.text) grammar lengthyRemark (room + 1) 0 []
        = .error (.badPattern (.top .search) .whole)) ∧
      scan grammar (String.ofList lengthyRemark.content) =
        .error (.badPattern (.top .search) .whole) := by
  have there : lengthyRemark.text = ";; ".toList ++ '(' :: (emptyComments 20 ++ ['x', '\n']) := rfl
  have feed : '\n' ∉ lengthyRemark.content := by decide +kernel
  have absent : 'm' ∉ lengthyRemark.text := by decide +kernel
  have failed := (outside_givenUp there absent (by decide) (by simp) (by decide)
    (Nat.zero_le _) (show 1000000 < Nat.pow 2 20 by decide)).2
  exact ⟨.outside, feed, ⟨_, rfl⟩, failed,
    scanBy_of_scanFrom_error feed (by decide) (failed 9999)⟩

end Steps

end ScopeGrammar.WebAssembly
