import ScopeGrammar.Proofs.Regex.Sight
import ScopeGrammar.Proofs.WebAssembly.Backtracking
import ScopeGrammar.Proofs.WebAssembly.Openings
import ScopeGrammar.Proofs.WebAssembly.Sealing

set_option autoImplicit false

namespace ScopeGrammar.WebAssembly

open Scan Fragment
open Regex (Node Found Repeats not_sees)

/-- A place for the fields of a module, outside all regions or in a module, and the names that lead
from there to what can be a field. -/
inductive FieldPlace : List Frame → List String → Prop where
  | outside : FieldPlace [] [root, moduleField]
  | inside {frame : Frame} {outer : List Frame} :
    frame.site = .top (.rule "module") → FieldPlace (frame :: outer) [moduleField]

/-- At a place of a text there are a parenthesis, blanks, and a keyword with no identifier character
behind it. -/
structure OpensField (text : List Char) (p : Nat) (gap : List Char) (k : Keyword)
    (rest : List Char) : Prop where
  there : text.drop p = '(' :: (gap ++ (k.text.toList ++ rest))
  blank : ∀ c ∈ gap, c ∈ blankChars
  ends : ∀ c ∈ rest.head?, isIdChar c = false

section Lists

/-- Whether the pattern is one of a comment, an annotation, a module or its name, or the end of a
module. -/
def isAside (f : Fragment) : Bool :=
  f = blockCommentStart.capture || f = annotationOpening || f = clauseOpening (anyOf [.module]) ||
    hasTree f (·.shows blankChars ['('] true)

def fieldOutline (via : List String) (field : Keyword × String) :
    (Option Site × Fragment) × List String :=
  ((some (.top (.rule field.2)), clauseOpening (anyOf [field.1])), via ++ [field.2])

/-- Whether the candidates are some to be passed over, and then the fields in their order. -/
def listsFields (via : List String) (cs : List Candidate) : Bool :=
  (cs.take 7).all (isAside ·.leaf.pattern) &&
    ((cs.drop 7).take moduleFields.length).map (fun c => (outline c.leaf, c.names)) =
      moduleFields.map (fieldOutline via)

/-- Whether the rule of a field begins with the keyword and tags it. -/
def isField (k : Keyword) : Rule → Bool
  | .region region _ =>
    region.opening = clauseOpening (anyOf [k]) && region.openingCaptures.get? 0 = none &&
      region.openingCaptures.get? 1 = some roundBrace && (region.openingCaptures.get? 2).isSome
  | _ => false

/-- The fields of a module are listed outside all regions and in a module, and are registered. -/
theorem fields_listed :
    listsFields [root, moduleField] (candidates table (.top .entry) entry) = true ∧
      ((table.get? "module").any (isRegion fun region children =>
        region.closing = rightParenthesis &&
          listsFields [moduleField] (candidates table (.top (.rule "module")) children))) = true ∧
      (moduleFields.all fun field => (table.get? field.2).any (isField field.1)) = true := by
  decide +kernel

structure FieldRegion (k : Keyword) (r : String) (region : Region) (children : List Pattern)
    (tag : String) : Prop where
  registered : grammar.rules.get? r = some (.region region children)
  opening : region.opening = clauseOpening (anyOf [k])
  untagged : region.openingCaptures.get? 0 = none
  brace : region.openingCaptures.get? 1 = some roundBrace
  keyword : region.openingCaptures.get? 2 = some tag

theorem exists_fieldRegion {k : Keyword} {r : String} (listed : (k, r) ∈ moduleFields) :
    ∃ region children tag, FieldRegion k r region children tag := by
  have passed := List.all_eq_true.1 fields_listed.2.2 _ listed
  obtain ⟨rule, registered, is⟩ := (Option.any_eq_true _ _).1 passed
  cases rule with
  | region region children =>
    simp only [isField, Bool.and_eq_true, decide_eq_true_eq, Option.isSome_iff_exists] at is
    obtain ⟨⟨⟨opening, untagged⟩, brace⟩, tag, keyword⟩ := is
    exact ⟨region, children, tag, registered, opening, untagged, brace, keyword⟩
  | single | anyOf => simp [isField] at is

theorem FieldRegion.mem_leaves {k : Keyword} {r : String} {region : Region}
    {children : List Pattern} {tag : String} (is : FieldRegion k r region children tag) :
    .region (.top (.rule r)) region children ∈ leaves grammar :=
  patternLeaves_subset is.registered (by simp)

theorem fields_clauses : ∀ field ∈ moduleFields, [field.1] ∈ clauses := by decide

theorem field_listed {via : List String} {cs : List Candidate} (lists : listsFields via cs = true)
    {k : Keyword} {r : String} (listed : (k, r) ∈ moduleFields) :
    ∃ front c back, cs = front ++ c :: back ∧
      outline c.leaf = (some (.top (.rule r)), clauseOpening (anyOf [k])) ∧
      c.names = via ++ [r] ∧
      ∀ c ∈ front, isAside c.leaf.pattern = true ∨
        ∃ other : Keyword, other ≠ k ∧ [other] ∈ clauses ∧
          c.leaf.pattern = clauseOpening (anyOf [other]) := by
  simp only [listsFields, Bool.and_eq_true, List.all_eq_true, decide_eq_true_eq] at lists
  obtain ⟨aside, fields⟩ := lists
  obtain ⟨before, after, split⟩ := List.append_of_mem listed
  have once : (moduleFields.map (·.1)).Nodup := by decide
  rw [split, List.map_append, List.map_cons, List.nodup_append] at once
  rw [split, List.map_append, List.map_cons, List.map_eq_append_iff] at fields
  obtain ⟨first, rest, cut, first', rest'⟩ := fields
  obtain ⟨c, last, rfl, is, -⟩ := List.map_eq_cons_iff.1 rest'
  obtain ⟨outlined, names⟩ := Prod.mk.inj is
  refine ⟨cs.take 7 ++ first, c, last ++ (cs.drop 7).drop (before ++ (k, r) :: after).length, ?_,
    outlined, names, fun other member => ?_⟩
  · rw [List.append_assoc, ← List.cons_append, ← List.append_assoc first, ← cut,
      List.take_append_drop, List.take_append_drop]
  · rcases List.mem_append.1 member with early | field
    · exact .inl (aside other early)
    · have image := List.mem_map_of_mem (f := fun c => (outline c.leaf, c.names)) field
      rw [first'] at image
      obtain ⟨entry, among, same⟩ := List.mem_map.1 image
      have among' : entry ∈ moduleFields := split ▸ List.mem_append_left _ among
      refine .inr ⟨entry.1, fun equal => ?_, fields_clauses entry among', ?_⟩
      · exact once.2.2 _ (List.mem_map_of_mem among) k (by simp) equal
      · rw [← outline_pattern, ← (Prod.mk.inj same).1]

end Lists

section Texts

variable {text gap rest : List Char} {p : Nat} {k : Keyword}

theorem keyword_begins (k : Keyword) :
    ∃ c cs, k.text.toList = c :: cs ∧ isIdChar c = true ∧ c ≠ '@' := by
  cases k <;> exact ⟨_, _, rfl, by decide, by decide⟩

theorem keyword_idChars (k : Keyword) : k.text.toList.all isIdChar = true := by
  cases k <;> decide

theorem keyword_injective {k k' : Keyword} (same : k.text.toList = k'.text.toList) : k = k' := by
  have equal := String.toList_injective same
  cases k <;> cases k' <;> first | rfl | exact absurd equal (by decide)

theorem not_isIdChar_of_blank {c : Char} (blank : c ∈ blankChars) :
    isIdChar c = false ∧ c ≠ '(' ∧ c ≠ ';' ∧ c ≠ '@' := by
  simp only [blankChars, List.mem_cons, List.not_mem_nil, or_false] at blank
  rcases blank with rfl | rfl <;> decide

namespace OpensField

theorem here (opens : OpensField text p gap k rest) : text[p]? = some '(' :=
  (head_of_drop opens.there).1

theorem next (opens : OpensField text p gap k rest) :
    ∃ c, text[p + 1]? = some c ∧ c ≠ ';' ∧ c ≠ '@' := by
  have behind := (head_of_drop opens.there).2
  cases gap with
  | nil =>
    obtain ⟨c, cs, same, isId, other⟩ := keyword_begins k
    rw [same] at behind
    refine ⟨c, (head_of_drop behind).1, ?_, other⟩
    rintro rfl
    exact absurd isId (by decide)
  | cons c gap =>
    have blank := not_isIdChar_of_blank (opens.blank c (by simp))
    exact ⟨c, (head_of_drop behind).1, blank.2.2⟩

theorem unique (opens : OpensField text p gap k rest) {gap' word : List Char}
    {keywords : List Keyword} (repeats : Repeats Gap gap')
    (clause : OpensClause text (letters keywords) p gap' word) :
    gap' = gap ∧ word = k.text.toList := by
  obtain ⟨rest', there⟩ := clause.there
  obtain ⟨notNil, idChars⟩ := letters_idChars clause.listed
  obtain ⟨c, cs, same, isId, -⟩ := keyword_begins k
  have behind : gap' ++ (word ++ rest') = gap ++ (k.text.toList ++ rest) :=
    (List.cons.inj (there.symm.trans opens.there)).2
  have blank := opens.blank
  have aligned : gap' = gap ∧ word ++ rest' = k.text.toList ++ rest := by
    clear there clause opens
    induction repeats generalizing gap with
    | nil =>
      cases gap with
      | nil => exact ⟨rfl, behind⟩
      | cons b gap =>
        obtain ⟨d, ds, rfl⟩ := List.exists_cons_of_ne_nil notNil
        obtain ⟨rfl, -⟩ := List.cons.inj behind
        have other := (not_isIdChar_of_blank (blank d (by simp))).1
        rw [idChars d (by simp)] at other
        cases other
    | @next front more stands _ ih =>
      cases stands with
      | @blank b is =>
        cases gap with
        | nil =>
          rw [same] at behind
          obtain ⟨rfl, -⟩ := List.cons.inj behind
          rcases is with rfl | rfl <;> exact absurd isId (by decide)
        | cons b' gap =>
          obtain ⟨rfl, tail⟩ := List.cons.inj behind
          obtain ⟨rfl, later⟩ := ih tail fun c member => blank c (List.mem_cons_of_mem _ member)
          exact ⟨rfl, later⟩
      | stretch =>
        cases gap with
        | nil =>
          rw [same] at behind
          obtain ⟨rfl, -⟩ := List.cons.inj behind
          exact absurd isId (by decide)
        | cons b gap =>
          obtain ⟨rfl, -⟩ := List.cons.inj behind
          exact absurd rfl (not_isIdChar_of_blank (blank _ (by simp))).2.1
  obtain ⟨rfl, later⟩ := aligned
  refine ⟨rfl, word_unique (List.all_eq_true.2 idChars) (keyword_idChars k) later ?_ opens.ends⟩
  have after := Regex.drop_behind (head_of_drop there).2
  have last := Regex.drop_behind after
  intro d head
  refine clause.whole.behind d ?_
  rw [← List.head?_drop, last]
  exact head

theorem opensClause (opens : OpensField text p gap k rest) :
    OpensClause text (letters [k]) p gap k.text.toList := by
  have behind := Regex.drop_behind (head_of_drop opens.there).2
  have last := Regex.drop_behind behind
  refine ⟨⟨rest, opens.there⟩, List.mem_singleton.2 rfl, ⟨?_, fun c here => ?_⟩⟩
  · intro i before c here
    obtain rfl : i = p + gap.length := by omega
    rw [← List.getElem?_drop, opens.there, ← List.cons_append,
      List.getElem?_append_left (by simp)] at here
    rcases List.mem_cons.1 (List.mem_of_getElem? here) with rfl | inside
    · decide
    · exact (not_isIdChar_of_blank (opens.blank c inside)).1
  · rw [← List.head?_drop, last] at here
    exact opens.ends c here

theorem repeats (opens : OpensField text p gap k rest) : Repeats Gap gap := by
  have blank := opens.blank
  clear opens
  induction gap with
  | nil => exact .nil
  | cons c gap ih =>
    obtain ⟨first, later⟩ := List.forall_mem_cons.1 blank
    show Repeats Gap ([c] ++ gap)
    exact .next (.blank (by simpa [blankChars] using first)) (ih later)

theorem aside_silent (opens : OpensField text p gap k rest) (field : k ≠ .module) {f : Fragment}
    (aside : isAside f = true) {tree : Node} (read : lineTree? f = some tree) :
    tree.ways text 0 p [] = [] := by
  have inside := Nat.le_of_lt (List.getElem?_eq_some_iff.1 opens.here).1
  obtain ⟨c, next, notComment, notSign⟩ := opens.next
  refine List.eq_nil_iff_forall_not_mem.2 fun w way => ?_
  simp only [isAside, Bool.or_eq_true, decide_eq_true_eq] at aside
  rcases aside with ((rfl | rfl) | rfl) | shown
  · cases read.symm.trans tree_blockCommentStart
    have mark := (mem_ways_group_pair way).2.1
    rw [next] at mark
    exact notComment (Option.some.inj mark)
  · cases read.symm.trans tree_annotationOpening
    have sign := sign_of_annotationOpening way
    rw [next] at sign
    exact notSign (Option.some.inj sign)
  · cases read.symm.trans (tree_of_clauses (show [Keyword.module] ∈ clauses by decide))
    obtain ⟨gap', word, repeats, clause, -⟩ := (mem_ways_clause_iff inside).1 way
    have same := (opens.unique repeats clause).2
    rw [List.mem_singleton.1 clause.listed] at same
    exact field (keyword_injective same).symm
  · obtain ⟨other, read', shows⟩ := exists_tree shown
    cases read.symm.trans read'
    refine not_sees (Nat.le_refl p) (fun i ge le d here => ?_) (fun d here => ?_)
      (Node.sees_of_way tree shows inside way)
    · obtain rfl : i = p := by omega
      rw [opens.here] at here
      exact (Option.some.inj here) ▸ List.mem_singleton_self _
    · rw [opens.here] at here
      obtain rfl := Option.some.inj here
      decide

theorem other_silent (opens : OpensField text p gap k rest) {other : Keyword} (differ : other ≠ k)
    (listed : [other] ∈ clauses) {tree : Node}
    (read : lineTree? (clauseOpening (anyOf [other])) = some tree) : tree.ways text 0 p [] = [] := by
  have inside := Nat.le_of_lt (List.getElem?_eq_some_iff.1 opens.here).1
  refine List.eq_nil_iff_forall_not_mem.2 fun w way => ?_
  cases read.symm.trans (tree_of_clauses listed)
  obtain ⟨gap', word, repeats, clause, -⟩ := (mem_ways_clause_iff inside).1 way
  have same := (opens.unique repeats clause).2
  rw [List.mem_singleton.1 clause.listed] at same
  exact differ (keyword_injective same)

end OpensField

end Texts

section Steps

variable {l : Line} {stack : List Frame} {via : List String} {k : Keyword} {r : String} {c : Nat}
  {gap rest : List Char}

theorem FieldPlace.lists (place : FieldPlace stack via) (known : Known grammar stack) :
    listsFields via
        (candidates table (context grammar stack).site (context grammar stack).children) = true ∧
      ∀ closing ∈ (context grammar stack).closing, isAside closing = true := by
  cases place with
  | outside => exact ⟨fields_listed.1, by simp [context]⟩
  | @inside frame outer stands =>
    have here := known frame (by simp)
    rw [Frame.leaf, stands] at here
    have is := checked_of_registered fields_listed.2.1 here
    simp only [Bool.and_eq_true, decide_eq_true_eq] at is
    refine ⟨by simpa only [context, stands] using is.2, fun closing same => ?_⟩
    simp only [context, is.1, Option.mem_def, Option.some.injEq] at same
    exact same ▸ by decide +kernel

theorem field_not_module (listed : (k, r) ∈ moduleFields) : k ≠ .module := by
  have all : ∀ field ∈ moduleFields, field.1 ≠ .module := by decide
  exact all _ listed

/-- What is taken where a field begins is the rule of the field. -/
theorem field_chosen (known : Known grammar stack) (place : FieldPlace stack via)
    (listed : (k, r) ∈ moduleFields) (opens : OpensField l.text c gap k rest) :
    ∃ region children tag found, FieldRegion k r region children tag ∧
      choose (searchIn l.text) grammar.rules (context grammar stack) c =
        .ok (some (.apply ⟨.region (.top (.rule r)) region children, via ++ [r]⟩, found)) ∧
      found.whole = ⟨c, c + 1 + gap.length + k.text.toList.length⟩ ∧
      found.groups = [some ⟨c, c + 1⟩,
        some ⟨c + 1 + gap.length, c + 1 + gap.length + k.text.toList.length⟩] := by
  obtain ⟨region, children, tag, is⟩ := exists_fieldRegion listed
  obtain ⟨lists, closing⟩ := place.lists known
  obtain ⟨front, ⟨leaf, names⟩, back, split, outlined, named, before⟩ := field_listed lists listed
  have inside := Nat.le_of_lt (List.getElem?_eq_some_iff.1 opens.here).1
  -- A region is known by its site, so that the candidate is the region of the registered rule.
  obtain rfl : leaf = .region (.top (.rule r)) region children := by
    have member := context_candidate known ⟨leaf, names⟩ (by
      rw [show candidates grammar.rules _ _ = _ from split]
      simp)
    cases leaf with
    | single rule => simp [outline] at outlined
    | region site region' children' =>
      obtain rfl : site = .top (.rule r) := Option.some.inj (Prod.mk.inj outlined).1
      obtain ⟨rfl, rfl⟩ := region_unique member is.mem_leaves
      rfl
  have split' : offers grammar.rules (context grammar stack) =
      ((context grammar stack).closing.toList.map (fun closing => Offer.mk .close closing) ++
        front.map fun c => Offer.mk (.apply c) c.leaf.pattern) ++
      Offer.mk (.apply ⟨.region (.top (.rule r)) region children, names⟩) region.opening ::
        back.map fun c => Offer.mk (.apply c) c.leaf.pattern := by
    rw [offers, show candidates grammar.rules _ _ = _ from split]
    simp [Leaf.pattern]
  have clause : [k] ∈ clauses := fields_clauses _ listed
  have read := tree_of_clauses clause
  rw [← is.opening] at read
  have way := (mem_ways_clause_iff inside).2
    ⟨gap, k.text.toList, opens.repeats, opens.opensClause, rfl⟩
  obtain ⟨found, chosen, answered, start⟩ := choose_first (choose_answers known l.text c) split' read
    (Nat.le_refl c) inside (List.ne_nil_of_mem way) (fun _ _ _ _ i ge lt => by omega) (by
      intro o member tree read
      rcases List.mem_append.1 member with close | apply
      · obtain ⟨pattern, there, rfl⟩ := List.mem_map.1 close
        exact opens.aside_silent (field_not_module listed) (closing _ (Option.mem_toList.1 there)) read
      · obtain ⟨other, there, rfl⟩ := List.mem_map.1 apply
        rcases before other there with aside | ⟨word, differ, listed', same⟩
        · exact opens.aside_silent (field_not_module listed) aside read
        · exact opens.other_silent differ listed' (same ▸ read))
  obtain ⟨gap', word, repeats, clause', groups, stop⟩ := clause_found read inside answered
  rw [start] at clause' groups stop
  obtain ⟨rfl, rfl⟩ := opens.unique repeats clause'
  refine ⟨region, children, tag, found, is, named ▸ chosen, ?_, stop ▸ groups⟩
  rw [← stop]
  exact congrArg (Regex.Span.mk · found.whole.stop) start

theorem captured_pair {captures : Captures} {scopes rules : List String} {found : Found}
    {first second : Regex.Span} {a b : String} (untagged : captures.get? 0 = none)
    (tag : captures.get? 1 = some a) (tag' : captures.get? 2 = some b)
    (groups : found.groups = [some first, some second]) :
    l.captured captures false scopes rules found =
      l.piece first.start first.stop (scopes ++ [a]) rules ++
        l.piece second.start second.stop (scopes ++ [b]) rules := by
  have more : captures.isEmpty = false := by
    refine Bool.eq_false_iff.2 fun empty => ?_
    rw [Table.get?, List.isEmpty_iff.1 empty] at tag
    cases tag
  simp [Line.captured, groups, untagged, tag, tag', more]

def fieldTokens (l : Line) (c : Nat) (gap : List Char) (k : Keyword) (tag : String)
    (scopes rules : List String) : List Token :=
  l.piece c (c + 1) (scopes ++ [roundBrace]) rules ++
    l.piece (c + 1 + gap.length) (c + 1 + gap.length + k.text.toList.length) (scopes ++ [tag]) rules

theorem step_opens_field (known : Known grammar stack) (place : FieldPlace stack via)
    (listed : (k, r) ∈ moduleFields) (opens : OpensField l.text c gap k rest) :
    ∃ region children tag, FieldRegion k r region children tag ∧
      ∀ frame, frame = (context grammar stack).enter l c (.top (.rule r)) region children
          (via ++ [r]) →
        step (searchIn l.text) grammar l c stack =
          .ok (fieldTokens l c gap k tag frame.scopes frame.rules,
            .moved (c + 1 + gap.length + k.text.toList.length) (frame :: stack)) := by
  obtain ⟨region, children, tag, found, is, chosen, whole, groups⟩ :=
    field_chosen known place listed opens
  refine ⟨region, children, tag, is, ?_⟩
  rintro frame rfl
  have stop : c < found.whole.stop := by
    rw [whole]
    simp only
    omega
  have start : found.whole.start = c := by rw [whole]
  rw [step_enters chosen (not_stalls stop), start, clipped_self, List.nil_append,
    captured_pair is.untagged is.brace is.keyword groups, Nat.max_eq_right (Nat.le_of_lt stop), whole]
  rfl

theorem place_of_drop {gap word rest : List Char} (there : l.text.drop c = '(' :: (gap ++ (word ++ rest))) :
    byteSize (l.text.take (c + 1 + gap.length)) = byteSize (l.text.take c) + 1 + byteSize gap := by
  have front : l.text.take (c + 1 + gap.length) = l.text.take c ++ ('(' :: gap) := by
    rw [Nat.add_assoc, List.take_add, there, ← List.cons_append, List.take_left' (by simp; omega)]
  rw [front, byteSize_append, Nat.add_assoc]
  rfl

/-- Every state of a scan is of regions of the grammar. In such a state, where nothing is open or a
module is innermost, a parenthesis and a field's keyword behind any blanks, with no identifier
character behind it, open the region of the field, unless a search in the line is given up: the step
has a token for the parenthesis and one for the keyword, with the scope of the second group. -/
theorem field_keywords :
    (∀ engine lines number made pos stack,
      Reached (searchBy engine) grammar lines number made pos stack → Known grammar stack) ∧
    ∀ k r, (k, r) ∈ moduleFields →
      ∃ region children tag, grammar.rules.get? r = some (.region region children) ∧
        region.openingCaptures.get? 2 = some tag ∧
        ∀ (l : Line) (c : Nat) (stack : List Frame) (via : List String), Known grammar stack →
          FieldPlace stack via → ∀ gap rest : List Char,
          l.content.drop c = '(' :: (gap ++ (k.text.toList ++ rest)) →
          (∀ b ∈ gap, b = ' ' ∨ b = '\t') → (∀ x ∈ rest.head?, isIdChar x = false) →
          ∃ frame : Frame, frame.leaf = .region (.top (.rule r)) region children ∧
            frame.label = r ∧ frame.rules = (context grammar stack).rules ++ via ++ [r] ∧
            frame.scopes = (context grammar stack).scopes ++ region.scope.toList ∧
            ∃ start, start = byteSize (l.content.take c) ∧ ∀ engine,
              UnlessGivenUp engine grammar [l.content]
                (step (searchBy engine l.text) grammar l c stack)
                (.ok ([⟨l.number, start, start + 1, "(", frame.scopes ++ [roundBrace], frame.rules⟩,
                    ⟨l.number, start + 1 + byteSize gap,
                      start + 1 + byteSize gap + byteSize k.text.toList, k.text,
                      frame.scopes ++ [tag], frame.rules⟩],
                  .moved (c + 1 + gap.length + k.text.toList.length) (frame :: stack))) := by
  refine ⟨fun _ _ _ _ _ _ reached => reached.known, fun k r listed => ?_⟩
  obtain ⟨region, children, tag, is⟩ := exists_fieldRegion listed
  refine ⟨region, children, tag, is.registered, is.keyword, ?_⟩
  intro l c stack via known place gap rest there blank ends
  have split : l.content.drop c = ('(' :: (gap ++ k.text.toList)) ++ rest := by simpa using there
  obtain ⟨within, behind⟩ := drop_text split (by simp)
  have inside : c ≤ l.content.length := by omega
  have opens : OpensField l.text c gap k (rest ++ ['\n']) := by
    refine ⟨by simpa using behind, fun b member => by simpa [blankChars] using blank b member,
      fun x head => ?_⟩
    cases rest with
    | nil =>
      obtain rfl : '\n' = x := Option.some.inj head
      decide
    | cons y rest => exact ends x head
  obtain ⟨region', children', tag', is', stepped⟩ := step_opens_field known place listed opens
  obtain ⟨rfl, rfl⟩ : region = region' ∧ children = children' := by
    simpa using is.registered.symm.trans is'.registered
  cases is.keyword.symm.trans is'.keyword
  obtain ⟨letter, letters, word, -, -⟩ := keyword_begins k
  have behind := Regex.drop_behind (head_of_drop opens.there).2
  refine ⟨(context grammar stack).enter l c (.top (.rule r)) region children (via ++ [r]), rfl,
    by simp [Context.enter], (List.append_assoc ..).symm, rfl, _, rfl, fun engine => ?_⟩
  have expected := step_unlessGivenUp engine known l c
  rwa [stepped _ rfl, fieldTokens, piece_single opens.here,
    piece_of_drop behind (by simp [word]), place_of_drop opens.there,
    show l.text.take c = l.content.take c from List.take_append_of_le_length inside,
    String.ofList_toList] at expected

def inModule : Line := ⟨0, "(module( \tfunc\"x".toList⟩

theorem field_keywords_in_module :
    ∃ frame, Reached searchIn grammar [inModule.content] 0 1 7 [frame] ∧
      FieldPlace [frame] [moduleField] ∧
      inModule.content.drop 7 = '(' :: ([' ', '\t'] ++ (Keyword.func.text.toList ++ "\"x".toList)) ∧
      ∃ inner : Frame, inner.label = "moduleFieldFunc" ∧ ∃ tokens,
        step (searchIn inModule.text) grammar inModule 7 [frame] =
          .ok (tokens, .moved 14 [inner, frame]) ∧ tokens.map (·.text) = ["(", "func"] := by
  obtain ⟨frame, next, stands⟩ := eq_singleton_of_map (f := (·.site))
    (b := Site.top (.rule "module")) (show (next? (searchIn inModule.text) grammar inModule 0 []).map
      _ = some (7, _) by decide +kernel)
  have reached := reached_of_next? rfl next
  have place : FieldPlace [frame] [moduleField] := .inside stands
  have there : inModule.content.drop 7 =
      '(' :: ([' ', '\t'] ++ (Keyword.func.text.toList ++ "\"x".toList)) := by decide
  obtain ⟨known, fields⟩ := field_keywords
  obtain ⟨region, children, tag, -, -, opens⟩ := fields .func "moduleFieldFunc" (by decide)
  obtain ⟨inner, -, label, -, -, start, -, stepped⟩ := opens inModule 7 [frame] [moduleField]
    (known .patient _ _ _ _ _ reached) place _ _ there (by simp) fun x head => by
      obtain rfl := Option.some.inj head
      decide
  exact ⟨frame, reached, place, there, inner, label, _,
    unlessGivenUp_patient.1 (stepped .patient), rfl⟩

def lengthyField : Line := ⟨0, "(func (".toList ++ (emptyComments 20 ++ ['x', ')'])⟩

/-- The search for a module behind the second parenthesis is given up, so that the step fails. -/
theorem field_keyword_given_up :
    (.func, "moduleFieldFunc") ∈ moduleFields ∧ FieldPlace [] [root, moduleField] ∧
      (∃ rest, lengthyField.content.drop 0 = '(' :: ([] ++ (Keyword.func.text.toList ++ rest)) ∧
        ∀ x ∈ rest.head?, isIdChar x = false) ∧
      step (searchBy .standard lengthyField.text) grammar lengthyField 0 [] =
        .error (.badPattern (.top .search) .whole) ∧
      scan grammar (String.ofList lengthyField.content) =
        .error (.badPattern (.top .search) .whole) := by
  have there : lengthyField.text =
      "(func ".toList ++ '(' :: (emptyComments 20 ++ ['x', ')', '\n']) := rfl
  have feed : '\n' ∉ lengthyField.content := by decide +kernel
  have absent : 'm' ∉ lengthyField.text := by decide +kernel
  have idle : ∀ i < "(func ".toList.length, lengthyField.text[i]? = some '(' →
      ∀ x ∈ lengthyField.text[i + 1]?, x ∉ [' ', '\t', '('] := by
    intro i early here x next
    have first : ∀ i < 6, lengthyField.text[i]? = some '(' → i = 0 := by decide +kernel
    obtain rfl := first i early here
    obtain rfl := Option.some.inj next
    decide
  have failed := outside_givenUp there absent (by decide) (by simp) idle (Nat.zero_le _)
    (show 1000000 < Nat.pow 2 20 by decide)
  have ends : ∀ x ∈ (" (".toList ++ (emptyComments 20 ++ ['x', ')'])).head?,
      isIdChar x = false := by
    intro x head
    obtain rfl := Option.some.inj head
    decide
  exact ⟨by decide, .outside, ⟨_, rfl, ends⟩, failed.1,
    scanBy_of_scanFrom_error feed (by decide) (failed.2 9999)⟩

end Steps

end ScopeGrammar.WebAssembly
