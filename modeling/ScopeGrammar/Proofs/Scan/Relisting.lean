import ScopeGrammar.Proofs.Scan.Known
import ScopeGrammar.Proofs.Scan.Mirror
import ScopeGrammar.Proofs.Scan.Reach
import ScopeGrammar.Proofs.Table

/-!
Repositories with patterns added at the end of their lists. A pattern that leads to nothing but what
the list leads to already is asked for again behind it and never taken, so that scanning with the
longer lists goes on as before.
-/

set_option autoImplicit false

namespace ScopeGrammar

section Definitions

variable (more : Site → List Pattern)

mutual

/-- The rule at a site, the children of every region in it followed by those to be added there. -/
def Rule.extend (site : Site) : Rule → Rule
  | .single rule => .single rule
  | .region region children => .region region (extendPatterns site 0 children ++ more site)
  | .anyOf children => .anyOf (extendPatterns site 0 children)

def Pattern.extend (site : Site) : Pattern → Pattern
  | .reference name => .reference name
  | .inline rule => .inline (rule.extend site)

def extendPatterns (site : Site) (i : Nat) : List Pattern → List Pattern
  | [] => []
  | pattern :: rest => pattern.extend (site.child i) :: extendPatterns site (i + 1) rest

end

/-- The list that belongs to a site, with the patterns to be added to it. -/
def extendList (site : Site) (patterns : List Pattern) : List Pattern :=
  extendPatterns more site 0 patterns ++ more site

def Repository.extend (r : Repository) : Repository where
  metadata := r.metadata
  entry := extendList more (.top .entry) r.entry
  rules := r.rules.map fun name rule => rule.extend more (.top (.rule name))

end Definitions

variable {more : Site → List Pattern} {r : Repository}

theorem Repository.get?_extend (name : String) :
    (r.extend more).rules.get? name =
      (r.rules.get? name).map fun rule => rule.extend more (.top (.rule name)) :=
  Table.get?_map _ r.rules name

theorem Repository.size_extend : (r.extend more).rules.size = r.rules.size := by
  simp [Table.size, Repository.extend, Table.map]

namespace Scan

open Regex (Found)

section Definitions

variable (more : Site → List Pattern)

def Leaf.extend : Leaf → Leaf
  | .single rule => .single rule
  | .region site delimiters children => .region site delimiters (extendList more site children)

def Candidate.extend (c : Candidate) : Candidate := ⟨c.leaf.extend more, c.names⟩

def Choice.extend : Choice → Choice
  | .close => .close
  | .apply c => .apply (c.extend more)

def Frame.extend (frame : Frame) : Frame :=
  { frame with children := extendList more frame.site frame.children }

def Context.extend (ctx : Context) : Context :=
  { ctx with children := extendList more ctx.site ctx.children }

end Definitions

def Leaf.list? : Leaf → Option (Site × List Pattern)
  | .single _ => none
  | .region site _ children => some (site, children)

/-- The lists of patterns that a scan tries: the entry patterns and the children of every region. -/
def lists (r : Repository) : List (Site × List Pattern) :=
  (.top .entry, r.entry) :: (leaves r).filterMap Leaf.list?

/-- Each candidate of the patterns to be added to a list has the pattern of one that the list has
already; so it is where it is one of these. -/
def Relists (r : Repository) (more : Site → List Pattern) : Prop :=
  ∀ list ∈ lists r, ∀ c ∈ candidates r.rules list.1 (more list.1),
    ∃ d ∈ candidates r.rules list.1 list.2, d.leaf.pattern = c.leaf.pattern

instance (r : Repository) (more : Site → List Pattern) : Decidable (Relists r more) :=
  inferInstanceAs (Decidable (∀ list ∈ lists r, ∀ c ∈ candidates r.rules list.1 (more list.1),
    ∃ d ∈ candidates r.rules list.1 list.2, d.leaf.pattern = c.leaf.pattern))

def Candidate.pattern (c : Candidate) : Fragment := c.leaf.pattern

@[simp] theorem Candidate.pattern_extend (c : Candidate) : (c.extend more).pattern = c.pattern := by
  obtain ⟨leaf, names⟩ := c
  cases leaf <;> rfl

section Expand

variable {follow follow' : List String → String → List Candidate} {names names' : List String}

theorem expandPatterns_append (site : Site) (i : Nat) (patterns added : List Pattern) :
    expandPatterns follow names site i (patterns ++ added) =
      expandPatterns follow names site i patterns ++
        expandPatterns follow names site (i + patterns.length) added := by
  induction patterns generalizing i with
  | nil => rfl
  | cons pattern rest ih =>
    rw [List.cons_append, expandPatterns, expandPatterns, ih, List.append_assoc, List.length_cons,
      Nat.add_right_comm, Nat.add_assoc i]

mutual

theorem expandRule_extend (site : Site) (rule : Rule)
    (extends' : ∀ name, follow' names name = (follow names name).map (Candidate.extend more)) :
    expandRule follow' names site (rule.extend more site) =
      (expandRule follow names site rule).map (Candidate.extend more) :=
  match rule with
  | .single _ => rfl
  | .region _ _ => rfl
  | .anyOf children => expandPatterns_extend site 0 children extends'

theorem expandPattern_extend (site : Site) (pattern : Pattern)
    (extends' : ∀ name, follow' names name = (follow names name).map (Candidate.extend more)) :
    expandPattern follow' names site (pattern.extend more site) =
      (expandPattern follow names site pattern).map (Candidate.extend more) :=
  match pattern with
  | .reference name => extends' name
  | .inline rule => expandRule_extend site rule extends'

theorem expandPatterns_extend (site : Site) (i : Nat) (patterns : List Pattern)
    (extends' : ∀ name, follow' names name = (follow names name).map (Candidate.extend more)) :
    expandPatterns follow' names site i (extendPatterns more site i patterns) =
      (expandPatterns follow names site i patterns).map (Candidate.extend more) :=
  match patterns with
  | [] => rfl
  | pattern :: rest => by
    rw [extendPatterns, expandPatterns, expandPatterns, List.map_append,
      expandPattern_extend (site.child i) pattern extends',
      expandPatterns_extend site (i + 1) rest extends']

end

mutual

theorem expandRule_patterns (site site' : Site) (rule : Rule)
    (alike : ∀ name, (follow' names name).map Candidate.pattern =
      (follow names name).map Candidate.pattern) :
    (expandRule follow' names site' rule).map Candidate.pattern =
      (expandRule follow names site rule).map Candidate.pattern :=
  match rule with
  | .single _ => rfl
  | .region _ _ => rfl
  | .anyOf children => expandPatterns_patterns site site' 0 0 children alike

theorem expandPattern_patterns (site site' : Site) (pattern : Pattern)
    (alike : ∀ name, (follow' names name).map Candidate.pattern =
      (follow names name).map Candidate.pattern) :
    (expandPattern follow' names site' pattern).map Candidate.pattern =
      (expandPattern follow names site pattern).map Candidate.pattern :=
  match pattern with
  | .reference name => alike name
  | .inline rule => expandRule_patterns site site' rule alike

theorem expandPatterns_patterns (site site' : Site) (i j : Nat) (patterns : List Pattern)
    (alike : ∀ name, (follow' names name).map Candidate.pattern =
      (follow names name).map Candidate.pattern) :
    (expandPatterns follow' names site' j patterns).map Candidate.pattern =
      (expandPatterns follow names site i patterns).map Candidate.pattern :=
  match patterns with
  | [] => rfl
  | pattern :: rest => by
    rw [expandPatterns, expandPatterns, List.map_append, List.map_append,
      expandPattern_patterns (site.child i) (site'.child j) pattern alike,
      expandPatterns_patterns site site' (i + 1) (j + 1) rest alike]

end

end Expand

section Steps

theorem followReference_extend (room : Nat) (names : List String) (name : String) :
    followReference (r.extend more).rules room names name =
      (followReference r.rules room names name).map (Candidate.extend more) := by
  induction room generalizing names name with
  | zero => rfl
  | succ room ih =>
    rw [followReference, followReference, Repository.get?_extend]
    split
    · rfl
    · cases r.rules.get? name with
      | none => rfl
      | some rule => exact expandRule_extend (.top (.rule name)) rule (ih (names ++ [name]))

theorem candidates_extend (r : Repository) (more : Site → List Pattern) (site : Site)
    (children : List Pattern) :
    ∃ added, candidates (r.extend more).rules site (extendList more site children) =
        (candidates r.rules site children).map (Candidate.extend more) ++ added ∧
      added.map Candidate.pattern = (candidates r.rules site (more site)).map Candidate.pattern := by
  have extends' (name : String) :
      followReference (r.extend more).rules r.rules.size [] name =
        (followReference r.rules r.rules.size [] name).map (Candidate.extend more) :=
    followReference_extend r.rules.size [] name
  refine ⟨expandPatterns (followReference (r.extend more).rules r.rules.size) [] site
    (0 + (extendPatterns more site 0 children).length) (more site), ?_, ?_⟩
  · rw [candidates, candidates, extendList, expandPatterns_append, Repository.size_extend,
      expandPatterns_extend site 0 children extends']
  · exact expandPatterns_patterns site site 0 _ (more site) fun name => by
      rw [extends', List.map_map]
      exact List.map_congr_left fun c _ => c.pattern_extend

theorem context_extend (stack : List Frame) :
    context (r.extend more) (stack.map (Frame.extend more)) = (context r stack).extend more := by
  cases stack <;> rfl

theorem offers_extend (r : Repository) (more : Site → List Pattern) (ctx : Context) :
    ∃ added, offers (r.extend more).rules (ctx.extend more) =
        (offers r.rules ctx).map (Offer.map (Choice.extend more)) ++ added ∧
      ∀ o ∈ added, ∃ c ∈ candidates r.rules ctx.site (more ctx.site), c.leaf.pattern = o.pattern := by
  obtain ⟨added, split, patterns⟩ := candidates_extend r more ctx.site ctx.children
  refine ⟨added.map fun c => ⟨.apply c, c.leaf.pattern⟩, ?_, fun o member => ?_⟩
  · rw [offers, offers, List.map_append, List.append_assoc]
    refine congr (congrArg _ ?_) ?_
    · cases closing : ctx.closing <;> simp [Context.extend, closing, Offer.map, Choice.extend]
    · rw [Context.extend, split, List.map_append]
      refine congrArg (· ++ _) ?_
      rw [List.map_map, List.map_map]
      refine List.map_congr_left fun c _ => ?_
      exact congrArg (Offer.mk _) c.pattern_extend
  · obtain ⟨c, among, rfl⟩ := List.mem_map.1 member
    have listed : c.pattern ∈ (candidates r.rules ctx.site (more ctx.site)).map Candidate.pattern :=
      patterns ▸ List.mem_map_of_mem among
    obtain ⟨d, there, same⟩ := List.mem_map.1 listed
    exact ⟨d, there, same⟩

variable {search : Search} {l : Line} {pos : Nat} {stack : List Frame}

/-- What is asked for once more has been asked for before it, and what it finds has been found. -/
theorem choose_extend (relists : Relists r more) (search : Search) (pos : Nat) {ctx : Context}
    (listed : (ctx.site, ctx.children) ∈ lists r) :
    choose search (r.extend more).rules (ctx.extend more) pos =
      (choose search r.rules ctx pos).map (Option.map (mapFind (Choice.extend more))) := by
  obtain ⟨added, split, again⟩ := offers_extend r more ctx
  have mapped : survey search pos none ((offers r.rules ctx).map (Offer.map (Choice.extend more))) =
      (survey search pos none (offers r.rules ctx)).map
        (Option.map (mapFind (Choice.extend more))) :=
    survey_map _ none _
  rw [choose_eq_survey, choose_eq_survey, split, survey_append]
  refine (congrArg (· >>= _) mapped).trans ?_
  cases surveyed : survey search pos none (offers r.rules ctx) with
  | error defect => rfl
  | ok best =>
    refine survey_idle fun o member => ?_
    obtain ⟨c, among, pattern⟩ := again o member
    obtain ⟨d, there, same⟩ := relists _ listed c among
    -- The list has asked for the pattern, so that its find starts no later than what that found.
    have offered : ⟨.apply d, d.leaf.pattern⟩ ∈ offers r.rules ctx :=
      List.mem_append_right _ (List.mem_map.2 ⟨d, there, rfl⟩)
    rw [← pattern, ← same]
    obtain ⟨answer, asked⟩ := survey_answered surveyed _ offered
    refine ⟨answer, asked, ?_⟩
    rintro found rfl
    obtain ⟨other, held, le⟩ := survey_least surveyed offered asked
    exact ⟨mapFind (Choice.extend more) other, by rw [held]; rfl, le⟩

theorem take_extend (choice : Choice) (ctx : Context) (stack : List Frame) (found : Found) :
    (choice.extend more).take l pos (ctx.extend more) (stack.map (Frame.extend more)) found =
      ((choice.take l pos ctx stack found).1,
        (choice.take l pos ctx stack found).2.map (Frame.extend more)) := by
  cases choice with
  | close => cases stack <;> rfl
  | apply c =>
    obtain ⟨leaf, names⟩ := c
    cases leaf <;> rfl

theorem stalls_extend (choice : Choice) (stack : List Frame) (found : Found) :
    (choice.extend more).stalls l pos (stack.map (Frame.extend more)) found =
      choice.stalls l pos stack found := by
  cases choice with
  | close => cases stack <;> simp [Choice.extend, Choice.stalls, Frame.extend]
  | apply c =>
    obtain ⟨leaf, names⟩ := c
    cases leaf with
    | single rule => rfl
    | region site region children =>
      simp only [Choice.extend, Candidate.extend, Leaf.extend, Choice.stalls, List.takeWhile_map,
        List.any_map, Function.comp_def]
      rfl

theorem context_listed (known : Known r stack) :
    ((context r stack).site, (context r stack).children) ∈ lists r := by
  cases stack with
  | nil => exact List.mem_cons_self ..
  | cons frame outer =>
    exact List.mem_cons_of_mem _ (List.mem_filterMap.2 ⟨_, known frame (List.mem_cons_self ..), rfl⟩)

theorem step_extend (relists : Relists r more) (known : Known r stack) :
    step search (r.extend more) l pos (stack.map (Frame.extend more)) =
      (step search r l pos stack).map fun done =>
        (done.1.map id, done.2.map (Frame.extend more)) := by
  have chosen := choose_extend relists search pos (context_listed known)
  rw [step, step, context_extend, chosen]
  cases choose search r.rules (context r stack) pos with
  | error defect => rfl
  | ok find =>
    cases find with
    | none => simp [Except.map, bind, Except.bind, pure, Except.pure, Context.extend, Outcome.map]
    | some find =>
      obtain ⟨choice, found⟩ := find
      simp only [Except.map, Option.map_some, mapFind, bind, Except.bind, take_extend, stalls_extend,
        List.map_id]
      split <;> rfl

theorem mirrors_extend (relists : Relists r more) :
    Mirrors (Frame.extend more) id (Known r) r (r.extend more) where
  step known := step_extend relists known
  held known stepped := step_known known stepped

end Steps

/-- Patterns that lead to nothing new change nothing at the end of the lists: every text is scanned as
before. For a step follows what is chosen, and that is the first of the offers whose match starts
earliest: the end of the region if it is offered, and then the candidates in their order. -/
theorem relisting_is_inert (relists : Relists r more) :
    (∀ engine source, scanBy engine (r.extend more) source = scanBy engine r source) ∧
      (∀ (search : Search) (r : Repository) (l : Line) (pos : Nat) (stack : List Frame) done,
        step search r l pos stack = .ok done ↔
          ∃ result, Selects search pos (offers r.rules (context r stack)) result ∧
            follow r l pos stack result = done) ∧
      ∀ (search : Search) (rules : Rules) (ctx : Context) (pos : Nat) result,
        choose search rules ctx pos = .ok result ↔ Selects search pos (offers rules ctx) result := by
  refine ⟨fun engine source => ?_, fun search r l pos stack done => ?_,
    fun search rules ctx pos result => choose_eq_ok⟩
  · have same := (mirrors_extend relists).scanPlain_eq (searchBy engine) id (fun _ => rfl)
      (Text.lines source.toList) 0 known_nil
    rw [scanBy_eq_scanPlain, scanBy_eq_scanPlain]
    refine Eq.trans same ?_
    cases scanPlain (searchBy engine) r 0 (Text.lines source.toList) [] with
    | error defect => rfl
    | ok result => simp [Except.map]
  · simp only [step_eq_follow, map_eq_ok, choose_eq_ok]

/-- Lists in brackets, named once more where they are named already. -/
def bracketsAgain (site : Site) : List Pattern :=
  if site = .top .entry then [.inline (.anyOf [.reference "list"])]
  else if site = .top (.rule "list") then [.reference "list"]
  else []

theorem relisting_is_inert_brackets :
    Relists (bracketedRepository .placeholder) bracketsAgain ∧
      scan ((bracketedRepository .placeholder).extend bracketsAgain) "[[a]" =
        .ok ⟨bracketedTokens, ["list"], []⟩ := by
  have relists : Relists (bracketedRepository .placeholder) bracketsAgain := by decide +kernel
  exact ⟨relists, ((relisting_is_inert relists).1 .standard "[[a]").trans scan_bracketed⟩

end Scan

end ScopeGrammar
