import Mathlib.Data.List.Perm.Subperm
import ScopeGrammar.Proofs.Repository.Reachable
import ScopeGrammar.Proofs.Result
import ScopeGrammar.Proofs.Scan.Mirror
import ScopeGrammar.Proofs.Scan.Tokens

set_option autoImplicit false

namespace ScopeGrammar.Scan

open Regex (Found)

def Leaf.references : Leaf → List String
  | .single _ => []
  | .region _ _ children => referencesOf children

section Expand

/-- A candidate has been reached, and refers to, rules with such names alone. -/
structure Candidate.Inside (live : String → Prop) (c : Candidate) : Prop where
  names : ∀ name ∈ c.names, live name
  references : ∀ name ∈ c.leaf.references, live name

variable {follow follow' : List String → String → List Candidate} {live : String → Prop}
  {names : List String}

mutual

theorem expandRule_congr (site : Site) (rule : Rule)
    (agree : ∀ name ∈ rule.references, follow names name = follow' names name) :
    expandRule follow names site rule = expandRule follow' names site rule :=
  match rule with
  | .single _ | .region _ _ => rfl
  | .anyOf children => expandPatterns_congr site 0 children agree

theorem expandPattern_congr (site : Site) (pattern : Pattern)
    (agree : ∀ name ∈ pattern.references, follow names name = follow' names name) :
    expandPattern follow names site pattern = expandPattern follow' names site pattern :=
  match pattern with
  | .reference name => agree name (by simp [Pattern.references])
  | .inline rule => expandRule_congr site rule agree

theorem expandPatterns_congr (site : Site) (i : Nat) (patterns : List Pattern)
    (agree : ∀ name ∈ referencesOf patterns, follow names name = follow' names name) :
    expandPatterns follow names site i patterns = expandPatterns follow' names site i patterns :=
  match patterns with
  | [] => rfl
  | pattern :: rest => by
    simp only [referencesOf, List.forall_mem_append] at agree
    rw [expandPatterns, expandPatterns, expandPattern_congr (site.child i) pattern agree.1,
      expandPatterns_congr site (i + 1) rest agree.2]

end

structure Leads (live : String → Prop) (follow : List String → String → List Candidate)
    (names : List String) : Prop where
  through : ∀ name ∈ names, live name
  inside : ∀ name, live name → ∀ c ∈ follow names name, c.Inside live

mutual

theorem expandRule_inside (leads : Leads live follow names) (site : Site) (rule : Rule)
    (refers : ∀ name ∈ rule.references, live name) :
    ∀ c ∈ expandRule follow names site rule, c.Inside live :=
  match rule with
  | .single rule => by
    intro c member
    rw [expandRule, List.mem_singleton] at member
    exact member ▸ ⟨leads.through, by simp [Leaf.references]⟩
  | .region region children => by
    intro c member
    rw [expandRule, List.mem_singleton] at member
    exact member ▸ ⟨leads.through, refers⟩
  | .anyOf children => expandPatterns_inside leads site 0 children refers

theorem expandPattern_inside (leads : Leads live follow names) (site : Site) (pattern : Pattern)
    (refers : ∀ name ∈ pattern.references, live name) :
    ∀ c ∈ expandPattern follow names site pattern, c.Inside live :=
  match pattern with
  | .reference name => leads.inside name (refers name (by simp [Pattern.references]))
  | .inline rule => expandRule_inside leads site rule refers

theorem expandPatterns_inside (leads : Leads live follow names) (site : Site) (i : Nat)
    (patterns : List Pattern) (refers : ∀ name ∈ referencesOf patterns, live name) :
    ∀ c ∈ expandPatterns follow names site i patterns, c.Inside live :=
  match patterns with
  | [] => by simp [expandPatterns]
  | pattern :: rest => by
    simp only [referencesOf, List.forall_mem_append] at refers
    rw [expandPatterns, List.forall_mem_append]
    exact ⟨expandPattern_inside leads (site.child i) pattern refers.1,
      expandPatterns_inside leads site (i + 1) rest refers.2⟩

end

end Expand

structure Alike (live : String → Prop) (r r' : Repository) : Prop where
  root : r.metadata.scopeName = r'.metadata.scopeName
  entry : r.entry = r'.entry
  rules : ∀ name, live name → r.rules.get? name = r'.rules.get? name
  closed : r.Closed live

section Alike

variable {live : String → Prop} {r r' : Repository}

theorem followReference_inside (closed : r.Closed live) (room : Nat) {names : List String}
    (through : ∀ name ∈ names, live name) (name : String) (is : live name) :
    ∀ c ∈ followReference r.rules room names name, c.Inside live := by
  induction room generalizing names name with
  | zero => simp [followReference]
  | succ room ih =>
    obtain ⟨rule, registered, refers⟩ := closed.rules name is
    have through' : ∀ other ∈ names ++ [name], live other :=
      List.forall_mem_append.2 ⟨through, by simpa using is⟩
    rw [followReference, registered]
    split
    · simp
    · exact expandRule_inside ⟨through', ih through'⟩ _ rule refers

theorem candidates_inside (closed : r.Closed live) {site : Site} {children : List Pattern}
    (refers : ∀ name ∈ referencesOf children, live name) :
    ∀ c ∈ candidates r.rules site children, c.Inside live :=
  expandPatterns_inside ⟨by simp, followReference_inside closed _ (by simp)⟩ site 0 children refers

theorem nodup_append_new {names : List String} (different : names.Nodup) {name : String}
    (new : name ∉ names) : (names ++ [name]).Nodup := by
  simpa [List.nodup_append, different] using fun other member => ne_of_mem_of_not_mem member new

theorem contains_of_full {rules : Rules} {names : List String} (different : names.Nodup)
    (registered : names ⊆ rules.keys) (full : rules.size ≤ names.length) {name : String}
    (is : name ∈ rules.keys) : names.contains name = true := by
  have same := (different.subperm registered).perm_of_length_le (by simpa [Table.keys, Table.size] using full)
  exact List.contains_iff_mem.2 (same.mem_iff.2 is)

theorem followReference_alike (alike : Alike live r r') (room room' : Nat) {names : List String}
    (different : names.Nodup) (through : ∀ name ∈ names, live name)
    (enough : r.rules.size ≤ room + names.length) (enough' : r'.rules.size ≤ room' + names.length)
    {name : String} (is : live name) :
    followReference r.rules room names name = followReference r'.rules room' names name := by
  have keys : ∀ name, live name → name ∈ r.rules.keys ∧ name ∈ r'.rules.keys := fun name is => by
    obtain ⟨rule, registered, -⟩ := alike.closed.rules name is
    exact ⟨Table.mem_keys_of_get? registered, Table.mem_keys_of_get? (alike.rules name is ▸ registered)⟩
  induction room generalizing room' names name with
  | zero =>
    have held := contains_of_full different (fun other member => (keys other (through other member)).1)
      (by simpa using enough) (keys name is).1
    cases room' <;> simp only [followReference, held, if_true]
  | succ room ih =>
    cases room' with
    | zero =>
      have held := contains_of_full different
        (fun other member => (keys other (through other member)).2) (by simpa using enough')
        (keys name is).2
      simp only [followReference, held, if_true]
    | succ room' =>
      obtain ⟨rule, registered, refers⟩ := alike.closed.rules name is
      rw [followReference, followReference, ← alike.rules name is, registered]
      split
      · rfl
      · rename_i new
        have different' := nodup_append_new different (by simpa using new)
        have through' : ∀ other ∈ names ++ [name], live other :=
          List.forall_mem_append.2 ⟨through, by simpa using is⟩
        refine expandRule_congr _ rule fun other member => ?_
        refine ih room' different' through' ?_ ?_ (refers other member)
        · rw [List.length_append, List.length_singleton]
          omega
        · rw [List.length_append, List.length_singleton]
          omega

theorem candidates_alike (alike : Alike live r r') (site : Site) {children : List Pattern}
    (refers : ∀ name ∈ referencesOf children, live name) :
    candidates r.rules site children = candidates r'.rules site children :=
  expandPatterns_congr site 0 children fun name member =>
    followReference_alike alike _ _ .nil (by simp) (by simp) (by simp) (refers name member)

end Alike

/-- An open region is reported under such a name, if it has one, and refers to such names alone. -/
structure Frame.Inside (live : String → Prop) (frame : Frame) : Prop where
  references : ∀ name ∈ referencesOf frame.children, live name
  rules : ∀ name ∈ frame.rules, live name
  label : frame.label = "<inline>" ∨ live frame.label

section Step

variable {live : String → Prop} {r r' : Repository} {search : Search} {l : Line} {pos : Nat}
  {stack : List Frame}

theorem context_alike (alike : Alike live r r') (stack : List Frame) :
    context r stack = context r' stack := by
  cases stack with
  | nil => simp [context, alike.root, alike.entry]
  | cons frame outer => rfl

theorem context_references (closed : r.Closed live) (inside : ∀ frame ∈ stack, frame.Inside live) :
    ∀ name ∈ referencesOf (context r stack).children, live name := by
  cases stack with
  | nil => exact closed.entry
  | cons frame outer => exact (inside frame (List.mem_cons_self ..)).references

theorem context_rules (inside : ∀ frame ∈ stack, frame.Inside live) :
    ∀ name ∈ (context r stack).rules, live name := by
  cases stack with
  | nil => simp [context]
  | cons frame outer => exact (inside frame (List.mem_cons_self ..)).rules

theorem step_alike (alike : Alike live r r') (inside : ∀ frame ∈ stack, frame.Inside live) :
    step search r l pos stack = step search r' l pos stack := by
  have asked := candidates_alike alike (context r stack).site
    (context_references alike.closed inside)
  have chosen : choose search r.rules (context r stack) pos =
      choose search r'.rules (context r' stack) pos := by
    rw [← context_alike alike stack, choose, choose, asked]
  rw [step, step, chosen, context_alike alike stack]

/-- What is taken is tagged with such names, and what is open behind it refers to such names. -/
theorem take_inside (closed : r.Closed live) (inside : ∀ frame ∈ stack, frame.Inside live)
    {choice : Choice} {found : Found}
    (chosen : choose search r.rules (context r stack) pos = .ok (some (choice, found))) :
    (∀ t ∈ (choice.take l pos (context r stack) stack found).1, ∀ name ∈ t.rules, live name) ∧
      ∀ frame ∈ (choice.take l pos (context r stack) stack found).2, frame.Inside live := by
  cases choice with
  | close =>
    cases stack with
    | nil => simp [Choice.take]
    | cons frame outer =>
      obtain ⟨first, rest⟩ := List.forall_mem_cons.1 inside
      exact ⟨fun t member => captured_rules member ▸ first.rules, rest⟩
  | apply candidate =>
    have reached : candidate.Inside live :=
      candidates_inside closed (context_references closed inside) candidate
        (candidate_of_choose chosen).1
    have rules : ∀ name ∈ (context r stack).rules ++ candidate.names, live name :=
      List.forall_mem_append.2 ⟨context_rules inside, reached.names⟩
    obtain ⟨leaf, names⟩ := candidate
    cases leaf with
    | single rule => exact ⟨fun t member => captured_rules member ▸ rules, inside⟩
    | region site region children =>
      refine ⟨fun t member => captured_rules member ▸ rules, List.forall_mem_cons.2 ⟨?_, inside⟩⟩
      refine ⟨reached.references, rules, ?_⟩
      cases last : names.getLast? with
      | none => exact .inl (by simp)
      | some name => exact .inr (by simpa [last] using reached.names name (List.mem_of_getLast? last))

theorem step_inside (closed : r.Closed live) (inside : ∀ frame ∈ stack, frame.Inside live)
    {tokens : List Token} {outcome : Outcome}
    (stepped : step search r l pos stack = .ok (tokens, outcome)) :
    (∀ t ∈ tokens, ∀ name ∈ t.rules, live name) ∧
      ∀ pos' stack', outcome = .moved pos' stack' → ∀ frame ∈ stack', frame.Inside live := by
  have gap {start stop : Nat} : ∀ t ∈ l.clipped start stop (context r stack).scopes
      (context r stack).rules, ∀ name ∈ t.rules, live name :=
    fun t member => piece_rules member ▸ context_rules inside
  rcases step_cases stepped with ⟨-, rfl, rfl⟩ | ⟨choice, found, chosen, rfl, next⟩
  · exact ⟨gap, by simp⟩
  · have took := take_inside (l := l) closed inside chosen
    refine ⟨List.forall_mem_append.2 ⟨gap, took.1⟩, fun pos' stack' moved => ?_⟩
    rcases next with ⟨-, rfl⟩ | ⟨-, rfl⟩
    · simp at moved
    · simp only [Outcome.moved.injEq] at moved
      exact moved.2 ▸ took.2

end Step

section Runs

variable {live : String → Prop} {r r' : Repository} {search : Search} {l : Line}

theorem mirrors_alike (alike : Alike live r r') :
    Mirrors id id (fun stack => ∀ frame ∈ stack, frame.Inside live) r r' where
  step {search l pos stack} inside := by
    rw [List.map_id, ← step_alike alike inside]
    cases step search r l pos stack <;> simp [Except.map]
  held inside stepped := (step_inside alike.closed inside stepped).2 _ _ rfl

theorem scanFrom_inside (closed : r.Closed live) (room : Nat) {pos : Nat} {stack : List Frame}
    (inside : ∀ frame ∈ stack, frame.Inside live) {line : LineResult}
    (scanned : scanFrom search r l room pos stack = .ok line) :
    (∀ t ∈ line.tokens, ∀ name ∈ t.rules, live name) ∧ ∀ frame ∈ line.stack, frame.Inside live := by
  induction room generalizing pos stack line with
  | zero =>
    cases scanned
    exact ⟨by simp, inside⟩
  | succ room ih =>
    obtain ⟨tokens, outcome, stepped, next⟩ := scanFrom_cases scanned
    obtain ⟨marked, kept⟩ := step_inside closed inside stepped
    rcases next with ⟨-, rfl⟩ | ⟨-, rfl⟩ | ⟨pos', stack', rest, rfl, later, rfl⟩
    · exact ⟨marked, inside⟩
    · exact ⟨marked, inside⟩
    · obtain ⟨marked', inside'⟩ := ih (kept pos' stack' rfl) later
      exact ⟨List.forall_mem_append.2 ⟨marked, marked'⟩, inside'⟩

theorem scanLine_inside (closed : r.Closed live) {stack : List Frame}
    (inside : ∀ frame ∈ stack, frame.Inside live) {line : LineResult}
    (scanned : scanLine search r l stack = .ok line) :
    (∀ t ∈ line.tokens, ∀ name ∈ t.rules, live name) ∧ ∀ frame ∈ line.stack, frame.Inside live := by
  rw [scanLine] at scanned
  exact scanFrom_inside closed mostSteps inside scanned

theorem scanPlain_alike (search : List Char → Search) (alike : Alike live r r')
    (lines : List (List Char)) (number : Nat) {stack : List Frame} (inside : ∀ frame ∈ stack, frame.Inside live) :
    scanPlain search r number lines stack = scanPlain search r' number lines stack := by
  have same := (mirrors_alike alike).scanPlain_eq search id (fun _ => rfl) lines number inside
  rw [List.map_id] at same
  rw [same]
  cases scanPlain search r number lines stack <;> simp [Except.map]

theorem scanPlain_inside {search : List Char → Search} (closed : r.Closed live)
    (lines : List (List Char)) (number : Nat) {stack : List Frame} (inside : ∀ frame ∈ stack, frame.Inside live) {result : Result}
    (scanned : scanPlain search r number lines stack = .ok result) :
    (∀ t ∈ result.tokens, ∀ name ∈ t.rules, live name) ∧
      ∀ label ∈ result.openRegions, label = "<inline>" ∨ live label := by
  induction lines generalizing number stack result with
  | nil =>
    cases scanned
    refine ⟨by simp, fun label member => ?_⟩
    rw [List.mem_reverse, List.mem_map] at member
    obtain ⟨frame, there, rfl⟩ := member
    exact (inside frame there).label
  | cons content rest ih =>
    obtain ⟨line, later, first, next, rfl⟩ := scanPlain_cases scanned
    obtain ⟨marked, inside'⟩ := scanLine_inside closed inside first
    obtain ⟨marked', labels⟩ := ih (number + 1) inside' next
    exact ⟨List.forall_mem_append.2 ⟨marked, marked'⟩, labels⟩

end Runs

/-- A scan depends on the rules alone that can be reached from the entry, and reports no others. -/
theorem scan_reachable {b b' : Builder} {entry : List Pattern} {r r' : Repository}
    (built : b.build entry = .ok r) (built' : b'.build entry = .ok r')
    (root : r.metadata.scopeName = r'.metadata.scopeName)
    (agree : ∀ name ∈ r.names, name ∉ r.unreachable → r.get? name = r'.get? name)
    (engine : Regex.Engine) (source : String) :
    scanBy engine r source = scanBy engine r' source ∧
      ∀ result, scanBy engine r source = .ok result →
        (∀ t ∈ result.tokens, ∀ name ∈ t.rules, name ∈ r.names ∧ name ∉ r.unreachable) ∧
        ∀ label ∈ result.openRegions,
          label = "<inline>" ∨ (label ∈ r.names ∧ label ∉ r.unreachable) := by
  have closed := Repository.closed_of_build built
  have alike : Alike r.Live r r' :=
    { root, closed
      entry := by rw [(build_ok built).2, (build_ok built').2]
      rules := fun name live => agree name live.1 live.2 }
  rw [scanBy_eq_scanPlain, scanBy_eq_scanPlain]
  exact ⟨scanPlain_alike _ alike _ 0 (by simp),
    fun result scanned => scanPlain_inside closed _ 0 (by simp) scanned⟩

def bracketed (aside : Rule) : Builder where
  metadata := ⟨"Example", "source.example", []⟩
  rules := (Table.empty.insert "aside" aside).insert "list"
    (.region ⟨.ofString "\\[", .ofString "\\]", some "meta.list", none, .empty, .empty⟩
      [.reference "list"])

def bracketedRepository (aside : Rule) : Repository :=
  ⟨(bracketed aside).metadata, [.reference "list"], (bracketed aside).rules⟩

theorem bracketed_reachable (aside : Rule) : (bracketedRepository aside).reachable = ["list"] := by
  have references : referencesOf (bracketedRepository aside).entry = ["list"] := rfl
  rw [Repository.reachable, references, Repository.follow_new (by simp) rfl]
  show Repository.follow _ ["list"] ["list"] = ["list"]
  rw [Repository.follow_known (by simp), Repository.follow]

def bracketedTokens : List Token := [
  ⟨0, 0, 1, "[", ["source.example", "meta.list"], ["list"]⟩,
  ⟨0, 1, 2, "[", ["source.example", "meta.list", "meta.list"], ["list", "list"]⟩,
  ⟨0, 2, 3, "a", ["source.example", "meta.list", "meta.list"], ["list", "list"]⟩,
  ⟨0, 3, 4, "]", ["source.example", "meta.list", "meta.list"], ["list", "list"]⟩]

theorem scan_bracketed :
    scan (bracketedRepository .placeholder) "[[a]" = .ok ⟨bracketedTokens, ["list"], []⟩ := by
  have evaluated : (scanPlain (searchBy .standard) (bracketedRepository .placeholder) 0
      (Text.lines "[[a]".toList) []).toOption = some ⟨bracketedTokens, ["list"], []⟩ := by
    decide +kernel
  exact (scanBy_eq_scanPlain _ _ _).trans (toOption_eq_some.1 evaluated)

theorem bracketed_build (aside : Rule) (clean : (bracketed aside).defects [.reference "list"] = []) :
    (bracketed aside).build [.reference "list"] = .ok (bracketedRepository aside) := by
  rw [build_eq, clean]
  rfl

theorem scan_reachable_bracketed :
    scan (bracketedRepository (.anyOf [.reference "list"])) "[[a]" =
        .ok ⟨bracketedTokens, ["list"], []⟩ ∧
      "aside" ∉ (bracketedRepository .placeholder).reachable := by
  have alike := scan_reachable (bracketed_build .placeholder (by decide +kernel))
    (bracketed_build (.anyOf [.reference "list"]) (by decide +kernel)) rfl
    (fun name named reached => ?_) .standard "[[a]"
  · refine ⟨alike.1.symm.trans scan_bracketed, ?_⟩
    rw [bracketed_reachable]
    decide
  · have live := Repository.live_iff.1 ⟨named, reached⟩
    rw [bracketed_reachable, List.mem_singleton] at live
    subst live
    rfl

end ScopeGrammar.Scan
