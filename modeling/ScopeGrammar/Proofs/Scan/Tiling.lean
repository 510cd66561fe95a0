import Mathlib.Data.List.Basic
import ScopeGrammar.Proofs.Scan.Known
import ScopeGrammar.Proofs.Scan.Reached

/-!
Nothing in a line is lost and nothing is reported twice. The steps of a line pass over spans that
follow on one another from its beginning, and each of them makes tokens of its own span alone.
-/

set_option autoImplicit false

namespace ScopeGrammar.Scan

open Regex (Found Span piece piece_append)

/-- Spans that follow on one another from one position to another. -/
inductive Tiles : Nat → Nat → List Span → Prop where
  | nil {pos : Nat} : Tiles pos pos []
  | cons (span : Span) {middle stop : Nat} {spans : List Span} :
    span.start ≤ span.stop → span.stop = middle → Tiles middle stop spans →
    Tiles span.start stop (span :: spans)

namespace Tiles

variable {start stop : Nat} {spans : List Span}

theorem le (tiles : Tiles start stop spans) : start ≤ stop := by
  induction tiles with
  | nil => exact Nat.le_refl _
  | cons span forward joined _ ih => omega

theorem stop_le (tiles : Tiles start stop spans) : ∀ span ∈ spans, span.stop ≤ stop := by
  induction tiles with
  | nil => simp
  | cons span forward joined rest ih =>
    exact List.forall_mem_cons.2 ⟨joined ▸ rest.le, ih⟩

theorem flatMap_piece (tiles : Tiles start stop spans) (text : List Char) (bound : Nat) :
    (spans.flatMap fun span => piece text span.start (min span.stop bound)) =
      piece text start (min stop bound) := by
  induction tiles with
  | nil =>
    rename_i pos
    have nothing : min pos bound - pos = 0 := by omega
    simp [piece, nothing]
  | @cons span middle stop spans forward joined rest ih =>
    have later := rest.le
    rw [List.flatMap_cons, ih, joined]
    rcases Nat.lt_or_ge middle bound with before | behind
    · rw [Nat.min_eq_left (Nat.le_of_lt before)]
      exact (piece_append text (by omega) (by omega)).symm
    · have nothing : bound - middle = 0 := by omega
      rw [Nat.min_eq_right behind, Nat.min_eq_right (Nat.le_trans behind later)]
      simp [piece, nothing]

end Tiles

/-- What a step passes over: from a position on text that no rule is applied to, and the match
behind it if there is one. -/
structure Passage where
  pos : Nat
  stack : List Frame
  taken : Option (Choice × Found)

namespace Passage

def gap (p : Passage) (l : Line) : Span :=
  ⟨p.pos, match p.taken with
    | some (_, found) => found.whole.start
    | none => max p.pos l.content.length⟩

def spans (p : Passage) (l : Line) : List Span :=
  p.gap l :: p.taken.toList.map fun t => t.2.whole

def gapTokens (p : Passage) (r : Repository) (l : Line) : List Token :=
  l.clipped p.pos (p.gap l).stop (context r p.stack).scopes (context r p.stack).rules

def matchTokens (p : Passage) (r : Repository) (l : Line) : List Token :=
  p.taken.toList.flatMap fun t => (t.1.take l p.pos (context r p.stack) p.stack t.2).1

def tokens (p : Passage) (r : Repository) (l : Line) : List Token :=
  p.gapTokens r l ++ p.matchTokens r l

end Passage

/-- The passages of a run over the rest of a line, step after step, and its result. -/
inductive Passes (search : Search) (r : Repository) (l : Line) :
    (room pos : Nat) → List Frame → List Passage → LineResult → Prop where
  | exhausted {pos : Nat} {stack : List Frame} :
    Passes search r l 0 pos stack [] ⟨[], stack, true⟩
  | finished {room pos : Nat} {stack : List Frame} {tokens : List Token} :
    choose search r.rules (context r stack) pos = .ok none →
    step search r l pos stack = .ok (tokens, .finished) →
    Passes search r l (room + 1) pos stack [⟨pos, stack, none⟩] ⟨tokens, stack, false⟩
  | stalled {room pos : Nat} {stack : List Frame} {tokens : List Token} {choice : Choice}
      {found : Found} :
    choose search r.rules (context r stack) pos = .ok (some (choice, found)) →
    step search r l pos stack = .ok (tokens, .stalled) →
    Passes search r l (room + 1) pos stack [⟨pos, stack, some (choice, found)⟩]
      ⟨tokens, stack, true⟩
  | moved {room pos : Nat} {stack : List Frame} {tokens : List Token} {choice : Choice}
      {found : Found} {passages : List Passage} {line : LineResult} :
    choose search r.rules (context r stack) pos = .ok (some (choice, found)) →
    step search r l pos stack = .ok (tokens, .moved (max pos found.whole.stop)
      (choice.take l pos (context r stack) stack found).2) →
    Passes search r l room (max pos found.whole.stop)
      (choice.take l pos (context r stack) stack found).2 passages line →
    Passes search r l (room + 1) pos stack (⟨pos, stack, some (choice, found)⟩ :: passages)
      { line with tokens := tokens ++ line.tokens }

def texts (tokens : List Token) : List Char := tokens.flatMap (·.text.toList)

@[simp] theorem texts_append (front back : List Token) :
    texts (front ++ back) = texts front ++ texts back := by
  simp [texts]

section Step

variable {search : Search} {r : Repository} {l : Line} {pos : Nat} {stack : List Frame}
  {choice : Choice} {found : Found}

theorem step_passage {tokens : List Token} {outcome : Outcome}
    (stepped : step search r l pos stack = .ok (tokens, outcome)) {taken : Option (Choice × Found)}
    (chosen : choose search r.rules (context r stack) pos = .ok taken) :
    tokens = Passage.tokens ⟨pos, stack, taken⟩ r l := by
  cases taken with
  | none =>
    rw [step_of_choose_none chosen] at stepped
    cases stepped
    have behind : min (max pos l.content.length) l.content.length = l.content.length := by omega
    simp only [Passage.tokens, Passage.gapTokens, Passage.matchTokens, Passage.gap, Line.clipped,
      behind, Nat.min_self, Option.toList_none, List.flatMap_nil, List.append_nil]
  | some t =>
    obtain ⟨choice, found⟩ := t
    rw [step_of_choose_some chosen] at stepped
    cases stepped
    simp [Passage.tokens, Passage.gapTokens, Passage.matchTokens, Passage.gap, Scan.taken]

theorem passes_of_scanFrom {room : Nat} {line : LineResult}
    (scanned : scanFrom search r l room pos stack = .ok line) :
    ∃ passages, Passes search r l room pos stack passages line := by
  induction room generalizing pos stack line with
  | zero =>
    cases scanned
    exact ⟨[], .exhausted⟩
  | succ room ih =>
    obtain ⟨tokens, outcome, stepped, next⟩ := scanFrom_cases scanned
    rcases step_cases stepped with
      ⟨chosen, rfl, -⟩ | ⟨choice, found, chosen, -, ⟨-, rfl⟩ | ⟨-, rfl⟩⟩
    · simp only [true_and, reduceCtorEq, false_and, exists_false, or_false] at next
      subst next
      exact ⟨_, .finished chosen stepped⟩
    · simp only [true_and, reduceCtorEq, false_and, exists_false, or_false, false_or] at next
      subst next
      exact ⟨_, .stalled chosen stepped⟩
    · simp only [reduceCtorEq, false_and, false_or, Outcome.moved.injEq] at next
      obtain ⟨_, _, rest, ⟨rfl, rfl⟩, later, rfl⟩ := next
      obtain ⟨passages, passes⟩ := ih later
      exact ⟨_, .moved chosen stepped passes⟩

end Step

namespace Passes

variable {search : Search} {r : Repository} {l : Line} {room pos : Nat} {stack : List Frame}
  {passages : List Passage} {line : LineResult}

theorem tokens (passes : Passes search r l room pos stack passages line) :
    line.tokens = passages.flatMap (·.tokens r l) := by
  induction passes with
  | exhausted => rfl
  | finished chosen stepped => simpa using step_passage stepped chosen
  | stalled chosen stepped => simpa using step_passage stepped chosen
  | moved chosen stepped _ ih => rw [List.flatMap_cons, ← ih, step_passage stepped chosen]

theorem tiles (passes : Passes search r l room pos stack passages line)
    (within : search.Within l.text.length) (inside : pos ≤ l.text.length) :
    ∃ stop, Tiles pos stop (passages.flatMap (·.spans l)) ∧ stop ≤ l.text.length ∧
      (line.stalled = false → l.content.length ≤ stop) ∧
      (stop = l.text.length →
        pos = l.text.length ∨ ∃ p ∈ passages, ∃ t ∈ p.taken, t.2.whole.stop = l.text.length) := by
  have size := length_text l
  induction passes with
  | exhausted => exact ⟨_, .nil, inside, by simp, .inl⟩
  | @finished room pos stack tokens chosen stepped =>
    refine ⟨max pos l.content.length, ?_, by omega, fun _ => Nat.le_max_right .., by omega⟩
    exact .cons ⟨pos, max pos l.content.length⟩ (Nat.le_max_left ..) rfl .nil
  | @stalled room pos stack tokens choice found chosen stepped =>
    obtain ⟨behind, forward, inside'⟩ := choose_within within inside chosen
    refine ⟨found.whole.stop, ?_, inside', by simp, fun last => ?_⟩
    · exact .cons ⟨pos, found.whole.start⟩ behind rfl (.cons found.whole forward rfl .nil)
    · exact .inr ⟨_, List.mem_cons_self .., _, rfl, last⟩
  | @moved room pos stack tokens choice found passages line chosen stepped passes ih =>
    obtain ⟨behind, forward, inside'⟩ := choose_within within inside chosen
    have next : max pos found.whole.stop = found.whole.stop := by omega
    rw [next] at ih
    obtain ⟨stop, rest, most, ended, feed⟩ := ih inside'
    refine ⟨stop, ?_, most, ended, fun last => .inr ?_⟩
    · exact .cons ⟨pos, found.whole.start⟩ behind rfl (.cons found.whole forward rfl rest)
    · rcases feed last with here | ⟨p, member, later⟩
      · exact ⟨_, List.mem_cons_self .., _, rfl, here⟩
      · exact ⟨p, List.mem_cons_of_mem _ member, later⟩

theorem chosen (passes : Passes search r l room pos stack passages line) :
    ∀ p ∈ passages, choose search r.rules (context r p.stack) p.pos = .ok p.taken := by
  induction passes with
  | exhausted => simp
  | finished chosen _ => simpa using chosen
  | stalled chosen _ => simpa using chosen
  | moved chosen _ _ ih => exact List.forall_mem_cons.2 ⟨chosen, ih⟩

theorem known (passes : Passes search r l room pos stack passages line) (known : Known r stack) :
    (∀ p ∈ passages, Known r p.stack) ∧ Known r line.stack := by
  induction passes with
  | exhausted => exact ⟨by simp, known⟩
  | finished _ _ => exact ⟨by simpa using known, known⟩
  | stalled _ _ => exact ⟨by simpa using known, known⟩
  | moved chosen _ _ ih =>
    obtain ⟨rest, final⟩ := ih (take_known known chosen)
    exact ⟨List.forall_mem_cons.2 ⟨known, rest⟩, final⟩

end Passes

def Leaf.isUntagged : Leaf → Bool
  | .single rule => rule.captures.isEmpty
  | .region _ delimiters _ =>
    delimiters.openingCaptures.isEmpty && delimiters.closingCaptures.isEmpty

def Untagged (r : Repository) : Prop := ∀ leaf ∈ leaves r, leaf.isUntagged = true

theorem texts_clipped (l : Line) (start stop : Nat) (scopes rules : List String) :
    texts (l.clipped start stop scopes rules) = piece l.text start (min stop l.content.length) := by
  unfold Line.clipped Line.piece
  split
  · simp [texts, piece]
  · rename_i nothing
    have none : min stop l.content.length - start = 0 := by omega
    simp [texts, piece, none]

section Untagged

variable {search : Search} {r : Repository} {l : Line} {pos : Nat} {stack : List Frame}
  {choice : Choice} {found : Found}

theorem take_untagged (untagged : Untagged r) (known : Known r stack)
    (chosen : choose search r.rules (context r stack) pos = .ok (some (choice, found))) :
    ∃ scopes rules, (choice.take l pos (context r stack) stack found).1 =
      l.clipped found.whole.start found.whole.stop scopes rules := by
  obtain ⟨g, tags⟩ := tagging_of_choose chosen
  rw [take_tokens, tags]
  have empty : g.captures.isEmpty = true := by
    cases choice with
    | close =>
      cases stack with
      | nil => simp [Choice.tagging] at tags
      | cons frame outer =>
        cases tags
        have plain := untagged _ (known frame (List.mem_cons_self ..))
        simp only [Frame.leaf, Leaf.isUntagged, Bool.and_eq_true] at plain
        exact plain.2
    | apply candidate =>
      have plain := untagged _ (known_of_choose known chosen)
      obtain ⟨leaf, names⟩ := candidate
      cases leaf with
      | single rule =>
        cases tags
        exact plain
      | region site region children =>
        cases tags
        simp only [Leaf.isUntagged, Bool.and_eq_true] at plain
        exact plain.1
  exact ⟨g.scopes, g.rules, captured_of_isEmpty empty⟩

theorem texts_passage (untagged : Untagged r) {p : Passage} (known : Known r p.stack)
    (chosen : choose search r.rules (context r p.stack) p.pos = .ok p.taken) :
    texts (p.tokens r l) =
      (p.spans l).flatMap fun span => piece l.text span.start (min span.stop l.content.length) := by
  rw [Passage.tokens, Passage.spans, texts_append, List.flatMap_cons, Passage.gapTokens,
    texts_clipped]
  obtain ⟨pos, stack, taken⟩ := p
  cases taken with
  | none => simp [Passage.matchTokens, Passage.gap, texts]
  | some t =>
    obtain ⟨choice, found⟩ := t
    obtain ⟨scopes, rules, same⟩ := take_untagged (l := l) untagged known chosen
    simp only [Passage.matchTokens, Option.toList_some, List.flatMap_cons, List.flatMap_nil,
      List.append_nil, same, texts_clipped, List.map_cons, List.map_nil]
    rfl

/-- Without tags the tokens of a line that is not given up are the line. -/
theorem texts_line (untagged : Untagged r) (known : Known r stack)
    (within : search.Within l.text.length) {line : LineResult}
    (scanned : scanLine search r l stack = .ok line) (ended : line.stalled = false) :
    texts line.tokens = l.content := by
  obtain ⟨passages, passes⟩ := passes_of_scanFrom scanned
  obtain ⟨stop, tiles, -, reached, -⟩ := passes.tiles within (Nat.zero_le _)
  have each : ∀ p ∈ passages, texts (p.tokens r l) =
      (p.spans l).flatMap fun span => piece l.text span.start (min span.stop l.content.length) :=
    fun p member => texts_passage untagged ((passes.known known).1 p member) (passes.chosen p member)
  calc texts line.tokens
    _ = passages.flatMap fun p => texts (p.tokens r l) := by
      rw [passes.tokens, texts, List.flatMap_assoc]
      rfl
    _ = (passages.flatMap (·.spans l)).flatMap fun span =>
        piece l.text span.start (min span.stop l.content.length) := by
      rw [List.flatMap_assoc]
      exact List.flatMap_congr each
    _ = piece l.text 0 l.content.length := by
      rw [tiles.flatMap_piece, Nat.min_eq_right (reached ended)]
    _ = l.content := by simp [piece, Line.text]

end Untagged

theorem line_of_mem_scanLine {search : Search} {r : Repository} {l : Line} {stack : List Frame}
    {line : LineResult} (scanned : scanLine search r l stack = .ok line) :
    ∀ t ∈ line.tokens, t.line = l.number := by
  obtain ⟨passages, passes⟩ := passes_of_scanFrom scanned
  intro t member
  rw [passes.tokens, List.mem_flatMap] at member
  obtain ⟨⟨pos, stack, taken⟩, among, inside⟩ := member
  rcases List.mem_append.1 inside with gap | matched
  · exact piece_line gap
  · cases taken with
    | none => simp [Passage.matchTokens] at matched
    | some found =>
      obtain ⟨choice, found⟩ := found
      obtain ⟨g, tags⟩ := tagging_of_choose (passes.chosen _ among)
      simp only [Passage.matchTokens, Option.toList_some, List.flatMap_cons, List.flatMap_nil,
        List.append_nil, take_tokens, tags] at matched
      exact captured_line matched

theorem le_line_of_scanPlain {search : List Char → Search} {r : Repository}
    (rest : List (List Char)) {number : Nat} {stack : List Frame} {result : Result}
    (scanned : scanPlain search r number rest stack = .ok result) :
    ∀ t ∈ result.tokens, number ≤ t.line := by
  induction rest generalizing number stack result with
  | nil =>
    cases scanned
    simp
  | cons content rest ih =>
    obtain ⟨line, later, first, next, rfl⟩ := scanPlain_cases scanned
    refine List.forall_mem_append.2 ⟨fun t member => ?_, fun t member => ?_⟩
    · exact Nat.le_of_eq (line_of_mem_scanLine first t member).symm
    · exact Nat.le_of_succ_le (ih next t member)

theorem filter_other {tokens : List Token} {number : Nat} (other : ∀ t ∈ tokens, t.line ≠ number) :
    tokens.filter (·.line = number) = [] :=
  List.filter_eq_nil_iff.2 fun t member => by simpa using other t member

theorem scanPlain_texts {search : List Char → Search} {r : Repository} (untagged : Untagged r)
    (within : ∀ text, (search text).Within text.length) (rest : List (List Char)) {number : Nat}
    {stack : List Frame} (known : Known r stack) {result : Result}
    (scanned : scanPlain search r number rest stack = .ok result) {i : Nat} {content : List Char}
    (here : rest[i]? = some content) (ended : number + i ∉ result.stalledLines) :
    texts (result.tokens.filter (·.line = number + i)) = content := by
  induction rest generalizing number stack result i with
  | nil => simp at here
  | cons first rest ih =>
    obtain ⟨line, later, own, next, rfl⟩ := scanPlain_cases scanned
    obtain ⟨passages, passes⟩ := passes_of_scanFrom own
    simp only [List.filter_append, texts_append] at ended ⊢
    cases i with
    | zero =>
      cases here
      have whole : line.stalled = false := by
        rw [← Bool.not_eq_true]
        intro stalled
        simp [stalled] at ended
      have all : line.tokens.filter (·.line = number + 0) = line.tokens :=
        List.filter_eq_self.2 fun t member => by simp [line_of_mem_scanLine own t member]
      have none : later.tokens.filter (·.line = number + 0) = [] :=
        filter_other fun t member => Nat.ne_of_gt (le_line_of_scanPlain rest next t member)
      rw [all, none, texts_line untagged known (within _) own whole]
      exact List.append_nil _
    | succ i =>
      have shift : number + (i + 1) = number + 1 + i := by omega
      have none : line.tokens.filter (·.line = number + (i + 1)) = [] := by
        refine filter_other fun t member => ?_
        have same : t.line = number := line_of_mem_scanLine own t member
        omega
      have ended' : number + 1 + i ∉ later.stalledLines := by
        intro member
        refine ended ?_
        rw [shift]
        split
        · exact List.mem_cons_of_mem _ member
        · exact member
      rw [none, shift, ih (passes.known known).2 next here ended']
      rfl

/-- Nothing is lost or reported twice. The gaps and the matches of a line follow on one another from
its beginning: to its end, or behind the line feed if a match ends there, unless the line is given
up. Each gap is reported as one token if anything of it is in the line. So without tags the tokens
of a line that is not given up are the line. -/
theorem scanLine_tiles (r : Repository) :
    (∀ search l stack line, search.Within (Line.text l).length →
      scanLine search r l stack = .ok line →
      ∃ passages, Passes search r l mostSteps 0 stack passages line ∧
        line.tokens = passages.flatMap (·.tokens r l) ∧
        (∃ stop, Tiles 0 stop (passages.flatMap (·.spans l)) ∧ stop ≤ l.text.length ∧
          (line.stalled = false → l.content.length ≤ stop) ∧
          (stop = l.text.length ↔
            ∃ p ∈ passages, ∃ t ∈ p.taken, t.2.whole.stop = l.text.length)) ∧
        (∀ p ∈ passages,
          if p.pos < min (p.gap l).stop l.content.length then
            ∃ t, p.gapTokens r l = [t] ∧ t.line = l.number ∧
              t.text.toList = piece l.text p.pos (min (p.gap l).stop l.content.length) ∧
              t.scopes = (context r p.stack).scopes
          else p.gapTokens r l = []) ∧
        (Untagged r → Known r stack → line.stalled = false → texts line.tokens = l.content)) ∧
    (Untagged r → ∀ engine source result, scanBy engine r source = .ok result →
      ∀ number content, (Text.lines source.toList)[number]? = some content →
        number ∉ result.stalledLines →
        texts (result.tokens.filter (·.line = number)) = content) := by
  constructor
  · intro search l stack line within scanned
    obtain ⟨passages, passes⟩ := passes_of_scanFrom scanned
    obtain ⟨stop, tiles, most, reached, feed⟩ := passes.tiles within (Nat.zero_le _)
    have size := length_text l
    refine ⟨passages, passes, passes.tokens, ⟨stop, tiles, most, reached, ?_, ?_⟩, ?_, ?_⟩
    · intro last
      rcases feed last with nothing | matched
      · omega
      · exact matched
    · rintro ⟨p, member, t, taken, last⟩
      have inside : t.2.whole ∈ passages.flatMap (·.spans l) :=
        List.mem_flatMap.2 ⟨p, member, by simp [Passage.spans, Option.mem_def.1 taken]⟩
      have behind := tiles.stop_le _ inside
      omega
    · intro p _
      split
      · rename_i forward
        exact ⟨_, if_pos forward, rfl, by simp [piece], rfl⟩
      · rename_i nothing
        exact if_neg nothing
    · intro untagged known ended
      exact texts_line untagged known within scanned ended
  · intro untagged engine source result scanned number content at' unstalled
    rw [scanBy_eq_scanPlain] at scanned
    rw [← Nat.zero_add number] at unstalled ⊢
    exact scanPlain_texts untagged (searchBy_within engine) _ known_nil scanned at' unstalled

def remarks : Repository where
  metadata := ⟨"Remarks", "source.remarks", []⟩
  entry := [.inline (.region
    ⟨.ofString ";", .ofString "\\n", some "comment.line", none, .empty, .empty⟩ [])]
  rules := .empty

theorem untagged_remarks : Untagged remarks := by
  intro leaf member
  rw [leaves_eq] at member
  simp [remarks, Table.empty] at member
  rw [member]
  rfl

def remarked : Line := ⟨0, ['a', ';', 'b']⟩

theorem scanLine_tiles_remarks :
    Untagged remarks ∧
    (∃ line stop, ∃ passages : List Passage,
      scanLine (searchIn remarked.text) remarks remarked [] = .ok line ∧ line.stalled = false ∧
        Tiles 0 stop (passages.flatMap (·.spans remarked)) ∧ 3 ≤ stop ∧
        texts line.tokens = ['a', ';', 'b']) ∧
    ∃ result, scan remarks "a;b\nc" = .ok result ∧
      texts (result.tokens.filter (·.line = 1)) = ['c'] := by
  obtain ⟨ofLine, ofScan⟩ := scanLine_tiles remarks
  refine ⟨untagged_remarks, ?_, ?_⟩
  · have evaluated : (scanLine (searchIn remarked.text) remarks remarked []).toOption.map
        (·.stalled) = some false := by
      decide +kernel
    cases scanned : scanLine (searchIn remarked.text) remarks remarked [] with
    | error defect => simp [scanned, Except.toOption] at evaluated
    | ok line =>
      have ended : line.stalled = false := by simpa [scanned, Except.toOption] using evaluated
      obtain ⟨passages, -, -, ⟨stop, tiles, -, reached, -⟩, -, whole⟩ :=
        ofLine _ _ [] line (searchIn_within _) scanned
      exact ⟨line, stop, passages, rfl, ended, tiles, reached ended,
        whole untagged_remarks known_nil ended⟩
  · have evaluated : (scanPlain (searchBy .standard) remarks 0 (Text.lines "a;b\nc".toList) []).toOption.map
        (·.stalledLines) = some [] := by
      decide +kernel
    rw [← scanBy_eq_scanPlain] at evaluated
    cases scanned : scanBy .standard remarks "a;b\nc" with
    | error defect => simp [scanned, Except.toOption] at evaluated
    | ok result =>
      have none : result.stalledLines = [] := by simpa [scanned, Except.toOption] using evaluated
      have second : (Text.lines "a;b\nc".toList)[1]? = some ['c'] := by decide +kernel
      exact ⟨result, scanned, ofScan untagged_remarks _ _ result scanned 1 ['c'] second (by simp [none])⟩

end ScopeGrammar.Scan
