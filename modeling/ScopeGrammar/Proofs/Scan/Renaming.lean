import ScopeGrammar.Proofs.Repository.Renaming
import ScopeGrammar.Proofs.Scan.Reach

set_option autoImplicit false

namespace ScopeGrammar.Scan

open Regex (Found)

section Definitions

variable (σ : String → String)

def Leaf.rename : Leaf → Leaf
  | .single rule => .single rule
  | .region site delimiters children =>
    .region (site.rename σ) delimiters (renamePatterns σ children)

def Candidate.rename (c : Candidate) : Candidate := ⟨c.leaf.rename σ, c.names.map σ⟩

def Choice.rename : Choice → Choice
  | .close => .close
  | .apply c => .apply (c.rename σ)

def Frame.rename (frame : Frame) : Frame :=
  { frame with
    site := frame.site.rename σ
    children := renamePatterns σ frame.children
    label := σ frame.label
    rules := frame.rules.map σ }

def Context.rename (ctx : Context) : Context :=
  { ctx with
    site := ctx.site.rename σ
    children := renamePatterns σ ctx.children
    rules := ctx.rules.map σ }

def Token.rename (t : Token) : Token := { t with rules := t.rules.map σ }

/-- The result with the names of rules renamed; a region that is not named keeps its label. -/
def Result.rename (result : Result) : Result :=
  { result with
    tokens := result.tokens.map (Token.rename σ)
    openRegions := result.openRegions.map fun label => if label = "<inline>" then label else σ label }

end Definitions

variable {σ : String → String}

@[simp] theorem Leaf.pattern_rename (leaf : Leaf) : (leaf.rename σ).pattern = leaf.pattern := by
  cases leaf <;> rfl

section Expand

variable {follow follow' : List String → String → List Candidate} {names : List String}

mutual

theorem expandRule_rename (site : Site) (rule : Rule)
    (commutes : ∀ name, follow' (names.map σ) (σ name) = (follow names name).map (Candidate.rename σ)) :
    expandRule follow' (names.map σ) (site.rename σ) (rule.rename σ) =
      (expandRule follow names site rule).map (Candidate.rename σ) :=
  match rule with
  | .single _ => rfl
  | .region _ _ => rfl
  | .anyOf children => expandPatterns_rename site 0 children commutes

theorem expandPattern_rename (site : Site) (pattern : Pattern)
    (commutes : ∀ name, follow' (names.map σ) (σ name) = (follow names name).map (Candidate.rename σ)) :
    expandPattern follow' (names.map σ) (site.rename σ) (pattern.rename σ) =
      (expandPattern follow names site pattern).map (Candidate.rename σ) :=
  match pattern with
  | .reference name => commutes name
  | .inline rule => expandRule_rename site rule commutes

theorem expandPatterns_rename (site : Site) (i : Nat) (patterns : List Pattern)
    (commutes : ∀ name, follow' (names.map σ) (σ name) = (follow names name).map (Candidate.rename σ)) :
    expandPatterns follow' (names.map σ) (site.rename σ) i (renamePatterns σ patterns) =
      (expandPatterns follow names site i patterns).map (Candidate.rename σ) :=
  match patterns with
  | [] => rfl
  | pattern :: rest => by
    rw [renamePatterns, expandPatterns, expandPatterns, List.map_append, ← Site.rename_child,
      expandPattern_rename (site.child i) pattern commutes,
      expandPatterns_rename site (i + 1) rest commutes]

end

end Expand

/-- Two repositories, the second of them with the rules of the first under other names. -/
structure Renamed (σ : String → String) (r r' : Repository) : Prop where
  root : r'.metadata.scopeName = r.metadata.scopeName
  entry : r'.entry = renamePatterns σ r.entry
  rules : ∀ name, r'.rules.get? (σ name) = (r.rules.get? name).map (Rule.rename σ)
  size : r'.rules.size = r.rules.size
  injective : σ.Injective
  inline : σ "<inline>" = "<inline>"

section Steps

variable {r r' : Repository}

theorem followReference_rename (renamed : Renamed σ r r') (room : Nat) (names : List String)
    (name : String) :
    followReference r'.rules room (names.map σ) (σ name) =
      (followReference r.rules room names name).map (Candidate.rename σ) := by
  induction room generalizing names name with
  | zero => rfl
  | succ room ih =>
    have known : (names.map σ).contains (σ name) = names.contains name := by
      simp [List.mem_map_of_injective renamed.injective]
    rw [followReference, followReference, known, renamed.rules]
    split
    · rfl
    · cases r.rules.get? name with
      | none => rfl
      | some rule =>
        have through : names.map σ ++ [σ name] = (names ++ [name]).map σ := by simp
        rw [Option.map_some, through]
        exact expandRule_rename (.top (.rule name)) rule (ih (names ++ [name]))

theorem candidates_rename (renamed : Renamed σ r r') (site : Site) (children : List Pattern) :
    candidates r'.rules (site.rename σ) (renamePatterns σ children) =
      (candidates r.rules site children).map (Candidate.rename σ) := by
  rw [candidates, candidates, renamed.size]
  exact expandPatterns_rename site 0 children (followReference_rename renamed _ [])

theorem context_rename (renamed : Renamed σ r r') (stack : List Frame) :
    context r' (stack.map (Frame.rename σ)) = (context r stack).rename σ := by
  cases stack with
  | nil => simp [context, Context.rename, renamed.root, renamed.entry, Owner.rename]
  | cons frame outer => rfl

variable {search : Search} {l : Line} {pos : Nat}

theorem offers_rename (renamed : Renamed σ r r') (ctx : Context) :
    offers r'.rules (ctx.rename σ) = (offers r.rules ctx).map (Offer.map (Choice.rename σ)) := by
  have asked := candidates_rename renamed ctx.site ctx.children
  rw [offers, offers, List.map_append]
  refine congr (congrArg _ ?_) ?_
  · cases h : ctx.closing <;> simp [Context.rename, h, Offer.map, Choice.rename]
  · rw [Context.rename, asked]
    simp [Offer.map, Choice.rename, Candidate.rename]

theorem choose_rename (renamed : Renamed σ r r') (ctx : Context) :
    choose search r'.rules (ctx.rename σ) pos =
      (choose search r.rules ctx pos).map (Option.map (mapFind (Choice.rename σ))) := by
  rw [choose_eq_survey, choose_eq_survey, offers_rename renamed]
  exact survey_map (Choice.rename σ) none _

theorem piece_rename (start stop : Nat) (scopes rules : List String) :
    l.piece start stop scopes (rules.map σ) =
      (l.piece start stop scopes rules).map (Token.rename σ) := by
  unfold Line.piece
  split <;> rfl

theorem captured_rename (captures : Captures) (whole : Bool) (scopes rules : List String)
    (found : Found) :
    l.captured captures whole scopes (rules.map σ) found =
      (l.captured captures whole scopes rules found).map (Token.rename σ) := by
  simp only [Line.captured, List.map_flatMap]
  congr 1
  funext entry
  obtain ⟨span, index⟩ := entry
  cases span with
  | none => rfl
  | some span =>
    cases captures.get? index with
    | some tag => exact piece_rename _ _ _ _
    | none =>
      simp only
      split
      · exact piece_rename _ _ _ _
      · rfl

theorem take_rename (renamed : Renamed σ r r') (choice : Choice) (ctx : Context)
    (stack : List Frame) (found : Found) :
    (choice.rename σ).take l pos (ctx.rename σ) (stack.map (Frame.rename σ)) found =
      ((choice.take l pos ctx stack found).1.map (Token.rename σ),
        (choice.take l pos ctx stack found).2.map (Frame.rename σ)) := by
  cases choice with
  | close =>
    cases stack with
    | nil => rfl
    | cons frame outer => exact Prod.ext (captured_rename _ _ _ _ _) rfl
  | apply c =>
    obtain ⟨leaf, names⟩ := c
    have rules : (ctx.rename σ).rules ++ names.map σ = (ctx.rules ++ names).map σ := by
      simp [Context.rename]
    cases leaf with
    | single rule =>
      simp only [Choice.rename, Candidate.rename, Leaf.rename, Choice.take, rules, captured_rename]
      rfl
    | region site region children =>
      have label : (names.map σ).getLast?.getD "<inline>" = σ (names.getLast?.getD "<inline>") := by
        rw [List.getLast?_map]
        cases names.getLast? with
        | none => exact renamed.inline.symm
        | some name => rfl
      simp only [Choice.rename, Candidate.rename, Leaf.rename, Choice.take, rules, captured_rename,
        label]
      rfl

theorem stalls_rename (injective : σ.Injective) (choice : Choice) (stack : List Frame)
    (found : Found) :
    (choice.rename σ).stalls l pos (stack.map (Frame.rename σ)) found =
      choice.stalls l pos stack found := by
  cases choice with
  | close => cases stack <;> simp [Choice.rename, Choice.stalls, Frame.rename]
  | apply c =>
    obtain ⟨leaf, names⟩ := c
    cases leaf with
    | single rule => simp [Choice.rename, Candidate.rename, Leaf.rename, Choice.stalls]
    | region site region children =>
      have sites (frame : Frame) :
          decide ((frame.rename σ).site = site.rename σ) = decide (frame.site = site) :=
        decide_eq_decide.2 (Site.rename_injective injective).eq_iff
      simp only [Choice.rename, Candidate.rename, Leaf.rename, Choice.stalls, List.takeWhile_map,
        List.any_map, Function.comp_def, sites]
      rfl

theorem step_rename (renamed : Renamed σ r r') (stack : List Frame) :
    step search r' l pos (stack.map (Frame.rename σ)) =
      (step search r l pos stack).map fun done =>
        (done.1.map (Token.rename σ), done.2.map (Frame.rename σ)) := by
  have chosen : choose search r'.rules ((context r stack).rename σ) pos =
      (choose search r.rules (context r stack) pos).map (Option.map (mapFind (Choice.rename σ))) :=
    choose_rename renamed _
  rw [step, step, context_rename renamed, chosen]
  cases choose search r.rules (context r stack) pos with
  | error defect => rfl
  | ok find =>
    cases find with
    | none =>
      simp only [Except.map, Option.map_none, bind, Except.bind]
      exact congrArg Except.ok (Prod.ext (piece_rename _ _ _ _) rfl)
    | some find =>
      obtain ⟨choice, found⟩ := find
      simp only [Except.map, Option.map_some, mapFind, bind, Except.bind, take_rename renamed,
        stalls_rename renamed.injective]
      have gap : l.clipped pos found.whole.start ((context r stack).rename σ).scopes
          ((context r stack).rename σ).rules =
          (l.clipped pos found.whole.start (context r stack).scopes
            (context r stack).rules).map (Token.rename σ) := piece_rename _ _ _ _
      rw [gap, ← List.map_append]
      split <;> rfl

theorem mirrors_rename (renamed : Renamed σ r r') :
    Mirrors (Frame.rename σ) (Token.rename σ) (fun _ => True) r r' where
  step _ := step_rename renamed _
  held _ _ := trivial

theorem scanPlain_rename (search : List Char → Search) (renamed : Renamed σ r r')
    (lines : List (List Char)) (number : Nat)
    (stack : List Frame) :
    scanPlain search r' number lines (stack.map (Frame.rename σ)) =
      (scanPlain search r number lines stack).map (Result.rename σ) := by
  have labels (frame : Frame) :
      (frame.rename σ).label = if frame.label = "<inline>" then frame.label else σ frame.label := by
    split
    · rename_i unnamed
      exact (congrArg σ unnamed).trans (renamed.inline.trans unnamed.symm)
    · rfl
  exact (mirrors_rename renamed).scanPlain_eq search _ labels lines number trivial

end Steps

/-- The renaming, made to keep all names apart: what is not among the names goes where no rule can be
named, apart from the label of regions without a name. -/
def apart (names : List String) (ρ : String → String) (name : String) : String :=
  if name ∈ names then ρ name else if name = "<inline>" then name else " " ++ name

section Apart

variable {names : List String} {ρ : String → String} {name : String}

theorem apart_of_mem (member : name ∈ names) : apart names ρ name = ρ name := if_pos member

theorem apart_inline (unnamed : "<inline>" ∉ names) : apart names ρ "<inline>" = "<inline>" := by
  simp [apart, unnamed]

theorem not_isName_blank (name : String) : ¬ IsName (" " ++ name) := by
  rintro ⟨c, rest, text, start, -⟩
  rw [String.toList_append] at text
  obtain ⟨rfl, -⟩ : ' ' = c ∧ name.toList = rest := by simpa using text
  exact absurd start (by simp [IsNameStart])

theorem not_isName_inline : ¬ IsName "<inline>" := fun is =>
  absurd (isRuleName_iff.2 is) (by decide)

theorem apart_injective (valid : ∀ name ∈ names, IsName (ρ name))
    (different : ∀ a ∈ names, ∀ b ∈ names, ρ a = ρ b → a = b) : (apart names ρ).Injective := by
  have image {name : String} : IsName (apart names ρ name) ↔ name ∈ names := by
    by_cases member : name ∈ names
    · simp [apart_of_mem member, valid name member, member]
    · by_cases unnamed : name = "<inline>"
      · simp [apart, unnamed ▸ member, unnamed, not_isName_inline]
      · simp [apart, member, unnamed, not_isName_blank]
  intro a b same
  by_cases member : a ∈ names
  · have member' : b ∈ names := image.1 (same ▸ image.2 member)
    rw [apart_of_mem member, apart_of_mem member'] at same
    exact different a member b member' same
  · have member' : b ∉ names := fun there => member (image.1 (same ▸ image.2 there))
    simp only [apart, member, member', if_false] at same
    split at same <;> split at same
    · simp_all
    · rename_i unnamed _
      have texts := congrArg String.toList same
      simp [unnamed] at texts
    · rename_i unnamed
      have texts := congrArg String.toList same
      simp [unnamed] at texts
    · exact String.append_right_inj " " |>.1 same

end Apart

theorem Result.rename_congr {σ ρ : String → String} {names : List String} {result : Result}
    (agree : ∀ name ∈ names, σ name = ρ name)
    (marked : ∀ t ∈ result.tokens, ∀ name ∈ t.rules, name ∈ names)
    (labels : ∀ label ∈ result.openRegions, label = "<inline>" ∨ label ∈ names) :
    result.rename σ = result.rename ρ := by
  have tokens : result.tokens.map (Token.rename σ) = result.tokens.map (Token.rename ρ) :=
    List.map_congr_left fun t member => congrArg (fun rules => { t with rules })
      (List.map_congr_left fun name there => agree name (marked t member name there))
  have regions : (result.rename σ).openRegions = (result.rename ρ).openRegions :=
    List.map_congr_left fun label member => by
      rcases labels label member with rfl | named
      · rfl
      · rw [agree label named]
  simp only [Result.rename] at regions ⊢
  rw [tokens, regions]

/-- Rules with other names, different ones for different rules, are registered and built alike, and
all that is reported of them is what was reported with the names renamed. -/
theorem scan_rename {metadata : Metadata} {calls : List (String × Rule)} {entry : List Pattern}
    {r : Repository} {ρ : String → String}
    (built : ((Builder.new metadata).attempts calls).build entry = .ok r)
    (valid : ∀ name ∈ r.names, IsName (ρ name))
    (different : ∀ a ∈ r.names, ∀ b ∈ r.names, ρ a = ρ b → a = b) :
    (((Builder.new metadata).registerAll (r.rules.entries.map (renameEntry ρ))).2 = none ∧
      ((Builder.new metadata).registerAll (r.rules.entries.map (renameEntry ρ))).1.build
        (renamePatterns ρ entry) = .ok (r.rename ρ)) ∧
      (∀ engine source,
        scanBy engine (r.rename ρ) source = (scanBy engine r source).map (Result.rename ρ)) ∧
      (r.rename ρ).placeholders.Perm (r.placeholders.map ρ) ∧
      (r.rename ρ).unreachable.Perm (r.unreachable.map ρ) := by
  -- All names are kept apart, so that nothing has to be said of those that are not registered.
  let σ := apart r.names ρ
  have agree : ∀ name ∈ r.names, σ name = ρ name := fun name member => apart_of_mem member
  have injective : σ.Injective := apart_injective valid different
  have named : ∀ name ∈ r.names, IsName name := fun name member => by
    rw [(build_ok built).2] at member
    exact (Builder.mem_names_attempts member).1
  have same : r.rename ρ = r.rename σ := (Repository.rename_congr built agree).symm
  have renamed : Renamed σ r (r.rename σ) :=
    { root := rfl
      entry := rfl
      rules := Repository.get?_rename injective
      size := Repository.size_rename injective
      injective
      inline := apart_inline fun member => not_isName_inline (named _ member) }
  have made := Repository.build_rename built injective fun name member =>
    agree name member ▸ valid name member
  have metadata_eq : r.metadata = metadata := by
    rw [(build_ok built).2]
    exact Builder.metadata_attempts _ _
  have entry_eq : r.entry = entry := by rw [(build_ok built).2]
  have listed {names : List String} (among : names ⊆ r.names) : names.map σ = names.map ρ :=
    List.map_congr_left fun name member => agree name (among member)
  refine ⟨?_, fun engine source => ?_, ?_, ?_⟩
  · rw [← entry_eq, ← Repository.rules_rename_congr built agree,
      ← Repository.entry_rename_congr built agree, same, ← metadata_eq, entry_eq]
    exact made
  · rw [same, scanBy_eq_scanPlain, scanBy_eq_scanPlain]
    refine (scanPlain_rename (searchBy engine) renamed _ 0 []).trans ?_
    cases scanned : scanPlain (searchBy engine) r 0 (Text.lines source.toList) [] with
    | error defect => rfl
    | ok result =>
      obtain ⟨marked, labels⟩ := scanPlain_inside (Repository.closed_of_build built) _ 0 (by simp) scanned
      exact congrArg Except.ok (Result.rename_congr agree
        (fun t member name there => (marked t member name there).1)
        fun label member => (labels label member).imp_right And.left)
  · rw [same, ← listed fun name => Repository.mem_names_of_placeholders]
    exact Repository.placeholders_rename injective
  · have among : r.unreachable ⊆ r.names := fun name => List.mem_of_mem_filter
    rw [same, ← listed among]
    exact Repository.unreachable_rename injective

/-- Lists in bracketedCalls and a rule that is not described, with their names exchanged. -/
def bracketedCalls : List (String × Rule) :=
  [("list", .region ⟨.ofString "\\[", .ofString "\\]", some "meta.list", none, .empty, .empty⟩
      [.reference "list", .reference "aside"]), ("aside", .placeholder)]

def exchanged (name : String) : String := if name = "list" then "aside" else "list"

/-- What is reported of nested lists where they are called `aside`. -/
def exchangedResult : Result where
  tokens := [
    ⟨0, 0, 1, "[", ["source.example", "meta.list"], ["aside"]⟩,
    ⟨0, 1, 2, "[", ["source.example", "meta.list", "meta.list"], ["aside", "aside"]⟩,
    ⟨0, 2, 3, "a", ["source.example", "meta.list", "meta.list"], ["aside", "aside"]⟩,
    ⟨0, 3, 4, "]", ["source.example", "meta.list", "meta.list"], ["aside", "aside"]⟩]
  openRegions := ["aside"]
  stalledLines := []

theorem scan_rename_exchanged :
    ∃ r, ((Builder.new ⟨"Example", "source.example", []⟩).attempts bracketedCalls).build
        [.reference "list"] = .ok r ∧
      scan (r.rename exchanged) "[[a]" = .ok exchangedResult ∧
      (r.rename exchanged).placeholders.Perm ["list"] := by
  let b := (Builder.new ⟨"Example", "source.example", []⟩).attempts bracketedCalls
  have clean : b.defects [.reference "list"] = [] := by decide +kernel
  have built : b.build [.reference "list"] = .ok ⟨b.metadata, [.reference "list"], b.rules⟩ := by
    rw [build_eq, clean]
  have names : (⟨b.metadata, [.reference "list"], b.rules⟩ : Repository).names = ["aside", "list"] := by
    decide +kernel
  have evaluated : ((scanPlain (searchBy .standard) ⟨b.metadata, [.reference "list"], b.rules⟩ 0
      (Text.lines "[[a]".toList) []).map (Result.rename exchanged)).toOption =
        some exchangedResult := by
    decide +kernel
  refine ⟨_, built, ?_⟩
  have renamed := scan_rename (ρ := exchanged) built
    (by
      rw [names]
      intro name _
      unfold exchanged
      split <;> exact isRuleName_iff.1 (by decide))
    (by rw [names]; decide)
  refine ⟨(renamed.2.1 .standard "[[a]").trans ?_, renamed.2.2.1⟩
  rw [scanBy_eq_scanPlain]
  exact toOption_eq_some.1 evaluated

end ScopeGrammar.Scan
