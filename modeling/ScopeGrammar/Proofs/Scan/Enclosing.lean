import ScopeGrammar.Proofs.Scan.Leaf
import ScopeGrammar.Proofs.Scan.Reached

/-!
What justifies the regions that are open: each of them is found among the children of the region
around it, and has the scopes and the rules that the way to it gives. A token then has the scopes of
the regions around it, from the outermost on.
-/

set_option autoImplicit false

namespace ScopeGrammar.Scan

open Regex (Found)

/-- Choices and references lead from a pattern to a leaf, by way of the rules with the names. -/
inductive Chain (rules : Rules) : Site → Pattern → List String → Leaf → Prop where
  | single {site : Site} {rule : MatchRule} :
    Chain rules site (.inline (.single rule)) [] (.single rule)
  | region {site : Site} {region : Region} {children : List Pattern} :
    Chain rules site (.inline (.region region children)) [] (.region site region children)
  | choice {site : Site} {children : List Pattern} {i : Nat} {child : Pattern}
      {names : List String} {leaf : Leaf} :
    children[i]? = some child → Chain rules (site.child i) child names leaf →
    Chain rules site (.inline (.anyOf children)) names leaf
  | reference {site : Site} {name : String} {rule : Rule} {names : List String} {leaf : Leaf} :
    rules.get? name = some rule → Chain rules (.top (.rule name)) (.inline rule) names leaf →
    Chain rules site (.reference name) (name :: names) leaf

/-- A chain from one of the children of a site. -/
def ChildChain (rules : Rules) (site : Site) (children : List Pattern) (names : List String)
    (leaf : Leaf) : Prop :=
  ∃ i child, children[i]? = some child ∧ Chain rules (site.child i) child names leaf

section Candidates

variable {rules : Rules} {follow : List String → String → List Candidate}

def Chained (rules : Rules) (follow : List String → String → List Candidate) : Prop :=
  ∀ names name, ∀ c ∈ follow names name, ∀ site,
    ∃ more, c.names = names ++ more ∧ Chain rules site (.reference name) more c.leaf

mutual

theorem expandRule_chain (chained : Chained rules follow) (names : List String) (site : Site)
    (rule : Rule) :
    ∀ c ∈ expandRule follow names site rule,
      ∃ more, c.names = names ++ more ∧ Chain rules site (.inline rule) more c.leaf :=
  match rule with
  | .single rule => by
    intro c member
    rw [expandRule, List.mem_singleton] at member
    subst member
    exact ⟨[], (List.append_nil names).symm, .single⟩
  | .region region children => by
    intro c member
    rw [expandRule, List.mem_singleton] at member
    subst member
    exact ⟨[], (List.append_nil names).symm, .region⟩
  | .anyOf children => by
    intro c member
    rw [expandRule] at member
    obtain ⟨j, child, more, there, same, chain⟩ :=
      expandPatterns_chain chained names site 0 children c member
    rw [Nat.zero_add] at chain
    exact ⟨more, same, .choice there chain⟩

theorem expandPattern_chain (chained : Chained rules follow) (names : List String) (site : Site)
    (pattern : Pattern) :
    ∀ c ∈ expandPattern follow names site pattern,
      ∃ more, c.names = names ++ more ∧ Chain rules site pattern more c.leaf :=
  match pattern with
  | .reference name => by
    intro c member
    rw [expandPattern] at member
    exact chained names name c member site
  | .inline rule => by
    intro c member
    rw [expandPattern] at member
    exact expandRule_chain chained names site rule c member

theorem expandPatterns_chain (chained : Chained rules follow) (names : List String) (site : Site)
    (i : Nat) (children : List Pattern) :
    ∀ c ∈ expandPatterns follow names site i children,
      ∃ j child more, children[j]? = some child ∧ c.names = names ++ more ∧
        Chain rules (site.child (i + j)) child more c.leaf :=
  match children with
  | [] => by simp [expandPatterns]
  | pattern :: rest => by
    intro c member
    rw [expandPatterns, List.mem_append] at member
    rcases member with here | later
    · obtain ⟨more, same, chain⟩ := expandPattern_chain chained names (site.child i) pattern c here
      exact ⟨0, pattern, more, rfl, same, chain⟩
    · obtain ⟨j, child, more, there, same, chain⟩ :=
        expandPatterns_chain chained names site (i + 1) rest c later
      rw [Nat.add_assoc, Nat.add_comm 1 j] at chain
      exact ⟨j + 1, child, more, there, same, chain⟩

end

theorem followReference_chain (room : Nat) : Chained rules (followReference rules room) := by
  induction room with
  | zero => simp [Chained, followReference]
  | succ room ih =>
    intro names name c member site
    obtain ⟨-, rule, registered, inside⟩ := mem_followReference.1 member
    obtain ⟨more, same, chain⟩ := expandRule_chain ih _ _ rule c inside
    rw [List.append_assoc, List.singleton_append] at same
    exact ⟨name :: more, same, .reference registered chain⟩

theorem candidates_chain {site : Site} {children : List Pattern} {c : Candidate}
    (member : c ∈ candidates rules site children) :
    ChildChain rules site children c.names c.leaf := by
  obtain ⟨i, child, more, there, same, chain⟩ :=
    expandPatterns_chain (followReference_chain rules.size) [] site 0 children c member
  rw [List.nil_append] at same
  rw [Nat.zero_add] at chain
  exact ⟨i, child, there, same ▸ chain⟩

end Candidates

/-- An open region stands where the context lets it: a chain leads to it from the children there,
and its scopes, its rules and its label are those of the context and of the chain. -/
structure Frame.StandsIn (frame : Frame) (rules : Rules) (ctx : Context) : Prop where
  scopes : frame.scopes = ctx.scopes ++ frame.region.scope.toList
  contentScopes : frame.contentScopes = frame.scopes ++ frame.region.contentScope.toList
  chain : ∃ names, ChildChain rules ctx.site ctx.children names frame.leaf ∧
    frame.rules = ctx.rules ++ names ∧ frame.label = names.getLast?.getD "<inline>"

/-- Every open region is justified by the one around it, and the outermost one by the entry. -/
def Justified (r : Repository) : List Frame → Prop
  | [] => True
  | frame :: outer => frame.StandsIn r.rules (context r outer) ∧ Justified r outer

/-- The scopes between the delimiters of the innermost region: the root scope, and those of the
regions from the outermost on. -/
def enclosing (r : Repository) (stack : List Frame) : List String :=
  r.metadata.scopeName ::
    stack.reverse.flatMap fun frame => frame.region.scope.toList ++ frame.region.contentScope.toList

theorem enclosing_cons (r : Repository) (frame : Frame) (outer : List Frame) :
    enclosing r (frame :: outer) =
      enclosing r outer ++ frame.region.scope.toList ++ frame.region.contentScope.toList := by
  simp [enclosing]

theorem context_scopes {r : Repository} {stack : List Frame} (justified : Justified r stack) :
    (context r stack).scopes = enclosing r stack := by
  induction stack with
  | nil => rfl
  | cons frame outer ih =>
    obtain ⟨stands, below⟩ := justified
    rw [enclosing_cons, ← ih below, ← stands.scopes, ← stands.contentScopes]
    rfl

def Leaf.scope : Leaf → Option String
  | .single rule => rule.scope
  | .region _ delimiters _ => delimiters.scope

def Leaf.captures : Leaf → Captures
  | .single rule => rule.captures
  | .region _ delimiters _ => delimiters.openingCaptures

/-- The scopes of a token that a step makes, by what it is a piece of: text that no rule has been
applied to, the end of the innermost region, or the match of a rule or of the beginning of a
region. -/
inductive Scoped (search : Search) (r : Repository) (l : Line) (pos : Nat) (stack : List Frame)
    (t : Token) : Prop where
  | plain {stop : Nat} :
    t ∈ l.clipped pos stop (enclosing r stack) (context r stack).rules →
    t.scopes = enclosing r stack →
    Scoped search r l pos stack t
  | closing {frame : Frame} {outer : List Frame} {found : Found} {tag : Option String} :
    stack = frame :: outer →
    choose search r.rules (context r stack) pos = .ok (some (.close, found)) →
    t ∈ l.captured frame.region.closingCaptures false
      (enclosing r outer ++ frame.region.scope.toList) frame.rules found →
    (∀ name ∈ tag, name ∈ frame.region.closingCaptures.entries.map (·.2)) →
    t.scopes = enclosing r outer ++ frame.region.scope.toList ++ tag.toList →
    Scoped search r l pos stack t
  | applied {candidate : Candidate} {found : Found} {whole : Bool} {tag : Option String} :
    choose search r.rules (context r stack) pos = .ok (some (.apply candidate, found)) →
    t ∈ l.captured candidate.leaf.captures whole
      (enclosing r stack ++ candidate.leaf.scope.toList)
      ((context r stack).rules ++ candidate.names) found →
    (∀ name ∈ tag, name ∈ candidate.leaf.captures.entries.map (·.2)) →
    t.scopes = enclosing r stack ++ candidate.leaf.scope.toList ++ tag.toList →
    Scoped search r l pos stack t

section Step

variable {search : Search} {r : Repository} {l : Line} {pos : Nat} {stack : List Frame}

theorem take_justified (justified : Justified r stack) {choice : Choice} {found : Found}
    (chosen : choose search r.rules (context r stack) pos = .ok (some (choice, found))) :
    Justified r (choice.take l pos (context r stack) stack found).2 := by
  cases choice with
  | close =>
    cases stack with
    | nil => trivial
    | cons frame outer => exact justified.2
  | apply candidate =>
    have chain := candidates_chain (candidate_of_choose chosen).1
    obtain ⟨leaf, names⟩ := candidate
    cases leaf with
    | single rule => exact justified
    | region site region children => exact ⟨⟨rfl, rfl, names, chain, rfl, rfl⟩, justified⟩

theorem step_justified (justified : Justified r stack) {tokens : List Token} {pos' : Nat}
    {stack' : List Frame} (stepped : step search r l pos stack = .ok (tokens, .moved pos' stack')) :
    Justified r stack' := by
  obtain ⟨choice, found, chosen, -, -, rfl⟩ := step_moved stepped
  exact take_justified justified chosen

theorem tagging_apply (ctx : Context) (stack : List Frame) (candidate : Candidate) :
    ∃ whole, (Choice.apply candidate).tagging ctx stack =
      some ⟨candidate.leaf.captures, whole, ctx.scopes ++ candidate.leaf.scope.toList,
        ctx.rules ++ candidate.names⟩ := by
  obtain ⟨leaf, names⟩ := candidate
  cases leaf with
  | single rule => exact ⟨_, rfl⟩
  | region site region children => exact ⟨_, rfl⟩

theorem captured_tag {captures : Captures} {whole : Bool} {scopes rules : List String}
    {found : Found} {t : Token} (member : t ∈ l.captured captures whole scopes rules found) :
    ∃ tag : Option String, (∀ name ∈ tag, name ∈ captures.entries.map (·.2)) ∧
      t.scopes = scopes ++ tag.toList := by
  rcases captured_scopes member with same | ⟨tag, among, same⟩
  · exact ⟨none, by simp, by simpa using same⟩
  · exact ⟨some tag, by simpa using among, same⟩

theorem step_scoped (justified : Justified r stack) {tokens : List Token} {outcome : Outcome}
    (stepped : step search r l pos stack = .ok (tokens, outcome)) {t : Token}
    (member : t ∈ tokens) : Scoped search r l pos stack t := by
  have around := context_scopes justified
  rcases mem_step stepped member with ⟨stop, gap⟩ | ⟨choice, found, g, chosen, tags, matched⟩
  · rw [around] at gap
    exact .plain gap (clipped_scopes gap)
  · obtain ⟨tag, among, same⟩ := captured_tag matched
    cases choice with
    | close =>
      cases stack with
      | nil => simp [Choice.tagging] at tags
      | cons frame outer =>
        cases tags
        -- The end of a region is not between its delimiters, so it has the scopes around these.
        obtain ⟨stands, below⟩ := justified
        have scopes := stands.scopes
        rw [context_scopes below] at scopes
        exact .closing rfl chosen (scopes ▸ matched) among (scopes ▸ same)
    | apply candidate =>
      obtain ⟨whole, applied⟩ := tagging_apply (context r stack) stack candidate
      cases tags.symm.trans applied
      rw [around] at matched same
      exact .applied chosen matched among same

end Step

theorem reached_justified {search : List Char → Search} {r : Repository} {lines : List (List Char)}
    {number made pos : Nat} {stack : List Frame}
    (reached : Reached search r lines number made pos stack) : Justified r stack :=
  reached.invariant trivial fun justified stepped => step_justified justified stepped

theorem Made.scoped {search : List Char → Search} {r : Repository} {lines : List (List Char)}
    {l : Line} {pos : Nat} {stack : List Frame} {t : Token}
    (origin : Made search r lines l pos stack t) : Scoped (search l.text) r l pos stack t := by
  obtain ⟨made, reached⟩ := origin.reached
  obtain ⟨tokens, outcome, stepped, member⟩ := origin.step
  exact step_scoped (reached_justified reached) stepped member

/-- Wherever a scan gets to, every open region is justified by the one around it. Its tokens have
the root scope, then the scopes of the regions around them, and then no more than the scope of the
rule that matched and one tag. -/
theorem scan_justified (r : Repository) (source : String) :
    (∀ search number made pos stack,
      Reached search r (Text.lines source.toList) number made pos stack → Justified r stack) ∧
    ∀ engine result, scanBy engine r source = .ok result →
      (∀ t ∈ result.tokens, ∃ l pos stack,
        Made (searchBy engine) r (Text.lines source.toList) l pos stack t ∧
          Scoped (searchBy engine l.text) r l pos stack t) ∧
      ∃ number stack, (Text.lines source.toList).length ≤ number ∧
        Reached (searchBy engine) r (Text.lines source.toList) number 0 0 stack ∧
        result.openRegions = (stack.map (·.label)).reverse := by
  constructor
  · intro search number made pos stack reached
    exact reached_justified reached
  · intro engine result scanned
    obtain ⟨made, final⟩ := scan_reached scanned
    refine ⟨?_, final⟩
    intro t member
    obtain ⟨l, pos, stack, origin⟩ := made t member
    exact ⟨l, pos, stack, origin, origin.scoped⟩

def listing : Repository where
  metadata := ⟨"Listing", "source.listing", []⟩
  entry := [.reference "item"]
  rules := (Table.empty.insert "item" (.anyOf [.reference "list",
      .inline (.single ⟨.ofString "[a-z]+", some "variable.name", .empty⟩)])).insert "list"
    (.region ⟨.ofString "\\[", .ofString "\\]", some "meta.list", some "meta.items", .empty, .empty⟩
      [.reference "item"])

/-- Two lists are open behind the text, and its word is in both of them. -/
theorem scan_justified_listing :
    ∃ result, scan listing "[[a" = .ok result ∧
      (∃ number stack, Reached (searchBy .standard) listing (Text.lines "[[a".toList) number 0 0 stack ∧
        Justified listing stack ∧ stack.length = 2) ∧
      ∃ t ∈ result.tokens, t.text = "a" ∧
        t.scopes = ["source.listing", "meta.list", "meta.items", "meta.list", "meta.items",
          "variable.name"] ∧
        ∃ l pos stack, Scoped (searchBy .standard l.text) listing l pos stack t := by
  have evaluated : (scanPlain (searchBy .standard) listing 0 (Text.lines "[[a".toList) []).toOption.map
      (fun result => (result.openRegions.length, result.tokens.map fun t => (t.text, t.scopes))) =
        some (2, [("[", ["source.listing", "meta.list"]),
          ("[", ["source.listing", "meta.list", "meta.items", "meta.list"]),
          ("a", ["source.listing", "meta.list", "meta.items", "meta.list", "meta.items",
            "variable.name"])]) := by
    decide +kernel
  obtain ⟨justified, tokens⟩ := scan_justified listing "[[a"
  cases scanned : scanBy .standard listing "[[a" with
  | error defect =>
    rw [← scanBy_eq_scanPlain, scanned] at evaluated
    cases evaluated
  | ok result =>
    rw [← scanBy_eq_scanPlain, scanned] at evaluated
    simp only [Except.toOption, Option.map_some, Option.some.injEq, Prod.mk.injEq] at evaluated
    obtain ⟨count, texts⟩ := evaluated
    obtain ⟨each, number, stack, -, reached, labels⟩ := tokens .standard result scanned
    have word : ("a", ["source.listing", "meta.list", "meta.items", "meta.list", "meta.items",
        "variable.name"]) ∈ result.tokens.map fun t => (t.text, t.scopes) := by
      rw [texts]
      decide
    obtain ⟨t, member, same⟩ := List.mem_map.1 word
    obtain ⟨text, scopes⟩ := Prod.mk.inj same
    obtain ⟨l, pos, stack', -, origin⟩ := each t member
    have two : stack.length = 2 := by simpa [labels] using count
    exact ⟨result, scanned, ⟨number, stack, reached, justified _ _ _ _ _ reached, two⟩,
      t, member, text, scopes, l, pos, stack', origin⟩

end ScopeGrammar.Scan
