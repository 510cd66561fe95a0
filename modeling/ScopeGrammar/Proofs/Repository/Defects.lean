import ScopeGrammar.Proofs.Repository.Parts

/-!
All that is wrong with a grammar as a list, whatever else is wrong with it: first the entry patterns
and what is inside them, depth first, then the registered rules in the order of their names.
Building stops at the head of the list and freezes what it was given where the list is empty.
-/

set_option autoImplicit false

namespace ScopeGrammar

def groupCount? (f : Fragment) : Option Nat := (Regex.read f.source).toOption.map (·.groups)

def scopeDefects (site : Site) (scope : Option String) : List Defect :=
  (scope.toList.filter fun scope => !isScope scope).map (.badScope site)

def patternDefects (site : Site) (field : Field) (f : Fragment) : List Defect :=
  if f.isEmpty then [.emptyPattern site field]
  else if (groupCount? f).isNone then [.badPattern site field]
  else []

theorem read_of_patternDefects {site : Site} {field : Field} {f : Fragment}
    (none : patternDefects site field f = []) :
    ∃ regex, Regex.read f.source = .ok regex ∧ groupCount? f = some regex.groups := by
  unfold patternDefects groupCount? at none
  unfold groupCount?
  cases read : Regex.read f.source with
  | ok regex => exact ⟨regex, rfl, rfl⟩
  | error problem =>
    rw [read] at none
    split at none
    · simp at none
    · simp [Except.toOption] at none

/-- What is wrong with one capture: it tags a group that there is not, or its scope is malformed.
Where the pattern cannot be read there is no number of groups to exceed. -/
def captureDefect (site : Site) (field : Field) (groups : Option Nat) (capture : Nat × String) :
    List Defect :=
  match groups with
  | some groups =>
    if groups < capture.1 then [.captureOutOfRange site field capture.1 groups]
    else scopeDefects site (some capture.2)
  | none => scopeDefects site (some capture.2)

def captureDefects (site : Site) (field : Field) (f : Fragment) (captures : Captures) :
    List Defect :=
  captures.entries.flatMap (captureDefect site field (groupCount? f))

/-- What is wrong with a part, apart from what is wrong inside it. -/
def Part.defects (known : String → Bool) (part : Part) : List Defect :=
  match part.pattern with
  | .reference name => if known name then [] else [.unresolved part.site name]
  | .inline (.single rule) =>
    patternDefects part.site .whole rule.pattern ++
      captureDefects part.site .whole rule.pattern rule.captures ++
      scopeDefects part.site rule.scope
  | .inline (.region region _) =>
    patternDefects part.site .opening region.opening ++
      patternDefects part.site .closing region.closing ++
      captureDefects part.site .opening region.opening region.openingCaptures ++
      captureDefects part.site .closing region.closing region.closingCaptures ++
      scopeDefects part.site region.scope ++ scopeDefects part.site region.contentScope
  | .inline (.anyOf _) => []

/-- All that is wrong, in order. -/
def Builder.defects (b : Builder) (entry : List Pattern) : List Defect :=
  (if entry.isEmpty then [.emptyEntry] else []) ++
    scopeDefects (.top .metadata) (some b.metadata.scopeName) ++
    (parts entry b.rules).flatMap fun part => part.defects b.contains

def report : List Defect → Except Defect Unit
  | [] => .ok ()
  | defect :: _ => .error defect

theorem report_append (s t : List Defect) : report (s ++ t) = (do report s; report t) := by
  cases s <;> rfl

theorem checkScope_eq (site : Site) (scope : Option String) :
    checkScope site scope = report (scopeDefects site scope) := by
  cases scope with
  | none => rfl
  | some scope => cases good : isScope scope <;> simp [checkScope, scopeDefects, report, good]

theorem checkPattern_cases (site : Site) (field : Field) (f : Fragment) :
    (∃ groups, checkPattern site field f = .ok groups ∧ groupCount? f = some groups ∧
      patternDefects site field f = []) ∨
    ∃ defect, checkPattern site field f = .error defect ∧ patternDefects site field f = [defect] := by
  unfold checkPattern patternDefects groupCount?
  split
  · exact .inr ⟨_, rfl, rfl⟩
  · cases Regex.read f.source with
    | ok regex => exact .inl ⟨_, rfl, rfl, rfl⟩
    | error problem => exact .inr ⟨_, rfl, rfl⟩

theorem checkCaptures_eq (site : Site) (field : Field) {f : Fragment} {groups : Nat}
    (read : groupCount? f = some groups) (captures : Captures) :
    checkCaptures site field groups captures.entries =
      report (captureDefects site field f captures) := by
  unfold captureDefects
  rw [read]
  induction captures.entries with
  | nil => rfl
  | cons entry rest ih =>
    obtain ⟨index, scope⟩ := entry
    simp only [checkCaptures, List.flatMap_cons, report_append, captureDefect]
    by_cases above : groups < index
    · simp only [above, if_true]
      rfl
    · simp only [above, if_false, ih, checkScope_eq]

mutual

theorem Rule.check_eq (known : String → Bool) (site : Site) (rule : Rule) :
    rule.check known site =
      report ((patternParts site (.inline rule)).flatMap fun part => part.defects known) :=
  match rule with
  | .single rule => by
    simp only [Rule.check, patternParts, insideParts, List.flatMap_cons, List.flatMap_nil,
      List.append_nil, Part.defects, report_append]
    rcases checkPattern_cases site .whole rule.pattern with ⟨groups, ok, read, none⟩ | ⟨defect, bad, one⟩
    · rw [ok, none, ← checkCaptures_eq site .whole read, ← checkScope_eq]
      rfl
    · rw [bad, one]
      rfl
  | .region region children => by
    rw [Rule.check, patternParts, insideParts, List.flatMap_cons, report_append,
      ← checkPatterns_eq known site 0 children]
    simp only [Part.defects, report_append, ← checkScope_eq]
    rcases checkPattern_cases site .opening region.opening with
      ⟨groups, ok, read, none⟩ | ⟨defect, bad, one⟩
    · rcases checkPattern_cases site .closing region.closing with
        ⟨groups', ok', read', none'⟩ | ⟨defect, bad, one⟩
      · rw [ok, none, ok', none', ← checkCaptures_eq site .opening read,
          ← checkCaptures_eq site .closing read']
        simp only [report, bind_assoc]
        rfl
      · rw [ok, none, bad, one]
        rfl
    · rw [bad, one]
      rfl
  | .anyOf children => by
    simp only [Rule.check, patternParts, insideParts, List.flatMap_cons, Part.defects,
      List.nil_append]
    exact checkPatterns_eq known site 0 children

theorem Pattern.check_eq (known : String → Bool) (site : Site) (pattern : Pattern) :
    pattern.check known site =
      report ((patternParts site pattern).flatMap fun part => part.defects known) :=
  match pattern with
  | .reference name => by
    cases registered : known name <;>
      simp [Pattern.check, patternParts, Part.defects, registered, report]
  | .inline rule => by
    rw [Pattern.check]
    exact Rule.check_eq known site rule

theorem checkPatterns_eq (known : String → Bool) (site : Site) (i : Nat)
    (patterns : List Pattern) :
    checkPatterns known site i patterns =
      report ((childParts site i patterns).flatMap fun part => part.defects known) :=
  match patterns with
  | [] => rfl
  | pattern :: rest => by
    rw [checkPatterns, childParts, List.flatMap_append, report_append,
      Pattern.check_eq known (site.child i) pattern, checkPatterns_eq known site (i + 1) rest]

end

theorem checkRules_eq (known : String → Bool) (rules : List (String × Rule)) :
    checkRules known rules =
      report ((rules.flatMap fun rule => patternParts (.top (.rule rule.1)) (.inline rule.2)).flatMap
        fun part => part.defects known) := by
  induction rules with
  | nil => rfl
  | cons rule rest ih =>
    rw [checkRules, List.flatMap_cons, List.flatMap_append, report_append, Rule.check_eq, ih]

theorem build_eq (b : Builder) (entry : List Pattern) :
    b.build entry =
      match b.defects entry with
      | [] => .ok ⟨b.metadata, entry, b.rules⟩
      | defect :: _ => .error defect := by
  have built : b.build entry =
      (do report (b.defects entry); return ⟨b.metadata, entry, b.rules⟩) := by
    unfold Builder.build Builder.defects parts
    cases empty : entry.isEmpty with
    | true => rfl
    | false =>
      simp only [checkScope_eq, checkPatterns_eq, checkRules_eq, List.flatMap_append,
        report_append, Bool.false_eq_true, if_false, List.nil_append, bind_assoc]
  rw [built]
  cases b.defects entry <;> rfl

def Defect.site? : Defect → Option Site
  | .unresolved site _ | .captureOutOfRange site _ _ _ | .emptyPattern site _
  | .badPattern site _ | .badScope site _ => some site
  | .repeatedRule _ | .badRuleName _ | .emptyEntry => none

theorem site?_scopeDefects {site : Site} {scope : Option String} {defect : Defect}
    (member : defect ∈ scopeDefects site scope) : defect.site? = some site := by
  obtain ⟨scope, -, rfl⟩ := List.mem_map.1 member
  rfl

theorem site?_patternDefects {site : Site} {field : Field} {f : Fragment} {defect : Defect}
    (member : defect ∈ patternDefects site field f) : defect.site? = some site := by
  unfold patternDefects at member
  split at member
  · rw [List.mem_singleton.1 member]
    rfl
  · split at member
    · rw [List.mem_singleton.1 member]
      rfl
    · simp at member

theorem site?_captureDefects {site : Site} {field : Field} {f : Fragment} {captures : Captures}
    {defect : Defect} (member : defect ∈ captureDefects site field f captures) :
    defect.site? = some site := by
  obtain ⟨capture, -, here⟩ := List.mem_flatMap.1 member
  unfold captureDefect at here
  split at here
  · split at here
    · rw [List.mem_singleton.1 here]
      rfl
    · exact site?_scopeDefects here
  · exact site?_scopeDefects here

theorem site?_of_mem_defects {known : String → Bool} {part : Part} {defect : Defect}
    (member : defect ∈ part.defects known) : defect.site? = some part.site := by
  unfold Part.defects at member
  split at member
  · split at member
    · simp at member
    · rw [List.mem_singleton.1 member]
      rfl
  · simp only [List.mem_append] at member
    rcases member with (pattern | captures) | scope
    · exact site?_patternDefects pattern
    · exact site?_captureDefects captures
    · exact site?_scopeDefects scope
  · simp only [List.mem_append] at member
    rcases member with ((((opening | closing) | captures) | captures) | scope) | scope
    · exact site?_patternDefects opening
    · exact site?_patternDefects closing
    · exact site?_captureDefects captures
    · exact site?_captureDefects captures
    · exact site?_scopeDefects scope
    · exact site?_scopeDefects scope
  · simp at member

theorem text_prefix_message {defect : Defect} {site : Site} (there : defect.site? = some site) :
    site.text.toList <+: defect.message.toList := by
  unfold Defect.message
  cases defect with
  | unresolved | captureOutOfRange | emptyPattern | badPattern | badScope =>
    simp only [Defect.site?, Option.some.injEq] at there
    subst there
    simp only [String.toList_append, List.append_assoc]
    exact List.prefix_append _ _
  | repeatedRule | badRuleName | emptyEntry => simp [Defect.site?] at there

/-- Building fails with the first of all defects and freezes what has none. A defect that is not of
the grammar as a whole is of what stands at its site, and its message begins with the way there. -/
theorem build_first_defect (b : Builder) (entry : List Pattern) :
    (b.build entry =
      match b.defects entry with
      | [] => .ok ⟨b.metadata, entry, b.rules⟩
      | defect :: _ => .error defect) ∧
    ∀ defect ∈ b.defects entry, defect = .emptyEntry ∨ ∃ site, defect.site? = some site ∧
      (site = .top .metadata ∨
        ∃ pattern, patternAt? entry b.rules site = some pattern ∧
          defect ∈ Part.defects b.contains ⟨site, pattern⟩) ∧
      site.text.toList <+: defect.message.toList ∧
      site.text =
        " > ".intercalate
          (site.owner.text :: site.path.map fun i => "patterns[" ++ toString i ++ "]") := by
  refine ⟨build_eq b entry, fun defect member => ?_⟩
  simp only [Builder.defects, List.mem_append] at member
  rcases member with (empty | metadata) | inside
  · split at empty
    · exact .inl (List.mem_singleton.1 empty)
    · simp at empty
  · have there := site?_scopeDefects metadata
    exact .inr ⟨.top .metadata, there, .inl rfl, text_prefix_message there,
      Site.text_eq_intercalate _⟩
  · obtain ⟨part, among, here⟩ := List.mem_flatMap.1 inside
    have there := site?_of_mem_defects here
    exact .inr ⟨part.site, there, .inr ⟨part.pattern, patternAt?_of_mem_parts among, here⟩,
      text_prefix_message there, Site.text_eq_intercalate _⟩

def flawed : List Pattern :=
  [.inline (.region ⟨.ofString "a", .ofString "b", none, some "x..y", .empty, .empty⟩
    [.inline (.anyOf [.reference "gone"])])]

theorem build_first_defect_flawed :
    (Builder.new ⟨"Example", "source.example", []⟩).build flawed =
        .error (.badScope ⟨.entry, [0]⟩ "x..y") ∧
      (Defect.unresolved ⟨.entry, [0, 0, 0]⟩ "gone").message.toList.take 50 =
        "patterns > patterns[0] > patterns[0] > patterns[0]".toList := by
  have listed : (Builder.new ⟨"Example", "source.example", []⟩).defects flawed =
      [.badScope ⟨.entry, [0]⟩ "x..y", .unresolved ⟨.entry, [0, 0, 0]⟩ "gone"] := by
    decide +kernel
  obtain ⟨built, sites⟩ := build_first_defect (.new ⟨"Example", "source.example", []⟩) flawed
  rw [listed] at built sites
  refine ⟨built, ?_⟩
  rcases sites (.unresolved ⟨.entry, [0, 0, 0]⟩ "gone") (by simp) with
    empty | ⟨site, there, -, front, text⟩
  · simp at empty
  · cases there
    rw [text] at front
    exact (List.prefix_iff_eq_take.1 front).symm

end ScopeGrammar
