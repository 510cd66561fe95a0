import ScopeGrammar.Proofs.Scan.Carrying
import ScopeGrammar.Proofs.WebAssembly.Openings
import ScopeGrammar.Proofs.WebAssembly.Strings

/-!
Blanks and block comments between lexemes. The scan goes through the comments, which nest, and stands
where only blanks are left, with the regions that were open before. What it makes of them has tags of
comments alone.
-/

set_option autoImplicit false

namespace ScopeGrammar.WebAssembly

open Scan
open Regex (Found Node)

section Scopes

def commentTags : List String :=
  ["meta.comment.block.wasm comment.block.wasm", "punctuation.definition.comment.wasm"]

/-- Some scopes, and behind them tags of block comments. -/
def Commented (scopes more : List String) : Prop :=
  ∃ tags, (∀ tag ∈ tags, tag ∈ commentTags) ∧ more = scopes ++ tags

variable {scopes more most : List String}

theorem commented_self (scopes : List String) : Commented scopes scopes :=
  ⟨[], by simp, (List.append_nil _).symm⟩

theorem commented_snoc {tag : String} (among : tag ∈ commentTags) :
    Commented scopes (scopes ++ [tag]) := ⟨[tag], by simpa using among, rfl⟩

theorem Commented.trans (first : Commented scopes more) (rest : Commented more most) :
    Commented scopes most := by
  obtain ⟨tags, listed, rfl⟩ := first
  obtain ⟨tags', listed', rfl⟩ := rest
  exact ⟨tags ++ tags', fun tag member => (List.mem_append.1 member).elim (listed tag) (listed' tag),
    List.append_assoc ..⟩

end Scopes

section Comments

def tagsComment (region : Region) : Bool :=
  commentTags.head? = region.scope && region.contentScope.isNone &&
    (region.openingCaptures.entries ++ region.closingCaptures.entries).all fun entry =>
      commentTags.contains entry.2

theorem comment_registered :
    ((table.get? Area.blockComment.name).any (isRegion fun region _ => tagsComment region)) = true := by
  decide +kernel

/-- No pattern that is asked for has a way from the place. -/
def Idles (l : Line) (stack : List Frame) (i : Nat) : Prop :=
  ∀ o ∈ offers grammar.rules (context grammar stack), ∀ tree, lineTree? o.pattern = some tree →
    tree.ways l.text 0 i [] = []

theorem idles_succ {l : Line} {stack : List Frame} {p b : Nat}
    (idle : ∀ i, p ≤ i → i < b → Idles l stack i) (here : Idles l stack b) :
    ∀ i, p ≤ i → i < b + 1 → Idles l stack i := by
  intro i ge lt
  rcases Nat.lt_or_eq_of_le (Nat.le_of_lt_succ lt) with before | rfl
  · exact idle i ge before
  · exact here

/-- Where a block comment begins, it is the first of all that is asked for. -/
def AsksComment (l : Line) (stack : List Frame) (i : Nat) : Prop :=
  ∃ first c last, offers grammar.rules (context grammar stack) =
      first ++ Offer.mk (.apply c) c.leaf.pattern :: last ∧
    outline c.leaf = (Ask.area .blockComment).outline ∧
    ∀ o ∈ first, ∀ tree, lineTree? o.pattern = some tree → tree.ways l.text 0 i [] = []

variable {l : Line} {stack outer : List Frame} {frame : Frame} {p b : Nat}

theorem captured_commented {captures : Captures} {found : Found} {t : Token}
    {scopes rules : List String} (among : ∀ entry ∈ captures.entries, entry.2 ∈ commentTags)
    (member : t ∈ l.captured captures false scopes rules found) : Commented scopes t.scopes := by
  rcases captured_scopes member with same | ⟨tag, listed, same⟩
  · exact same ▸ commented_self scopes
  · obtain ⟨entry, held, rfl⟩ := List.mem_map.1 listed
    exact same ▸ commented_snoc (among entry held)

theorem tags_of_comment {region : Region} {children : List Pattern}
    (known : .region Area.blockComment.site region children ∈ leaves grammar) (scopes : List String) :
    Commented scopes (within scopes region.scope) ∧ region.contentScope = none ∧
      (∀ entry ∈ region.openingCaptures.entries, entry.2 ∈ commentTags) ∧
      ∀ entry ∈ region.closingCaptures.entries, entry.2 ∈ commentTags := by
  have tagged := checked_of_registered comment_registered known
  simp only [tagsComment, Bool.and_eq_true, decide_eq_true_eq, Option.isNone_iff_eq_none,
    List.all_eq_true, List.contains_iff_mem, List.mem_append] at tagged
  obtain ⟨⟨scope, content⟩, captures⟩ := tagged
  refine ⟨?_, content, fun entry member => captures entry (.inl member),
    fun entry member => captures entry (.inr member)⟩
  rw [← scope]
  exact commented_snoc (by decide)

theorem step_opens_comment (known : Known grammar stack) (asks : AsksComment l stack b) (ge : p ≤ b)
    (idle : ∀ i, p ≤ i → i < b → Idles l stack i) (here : l.text[b]? = some '(')
    (next : l.text[b + 1]? = some ';') :
    ∃ tokens frame, step (searchIn l.text) grammar l p stack =
        .ok (tokens, .moved (b + 2) (frame :: stack)) ∧
      frame.site = Area.blockComment.site ∧
      Commented (context grammar stack).scopes frame.scopes ∧ frame.contentScopes = frame.scopes ∧
      ∀ t ∈ tokens, Commented (context grammar stack).scopes t.scopes := by
  obtain ⟨first, c, last, split, outlined, silent⟩ := asks
  have inside := (List.getElem?_eq_some_iff.1 here).1
  obtain ⟨region, children, names, found, member, chosen, answered, start⟩ := region_first known split
    outlined tree_blockCommentStart ge (Nat.le_of_lt inside) (ways_group_pair_ne_nil here next)
    (fun o offered tree read i ge lt => idle i ge lt o offered tree read) silent
  obtain ⟨-, w, way, stop⟩ := found_way tree_blockCommentStart (by omega) answered
  have two := (mem_ways_group_pair way).2.2
  obtain ⟨scope, content, opening, -⟩ := tags_of_comment member (context grammar stack).scopes
  have stepped := step_enters (l := l) chosen (not_stalls (by omega))
  rw [show max p found.whole.stop = b + 2 by omega] at stepped
  refine ⟨_, _, stepped, rfl, scope, by simp [Context.enter, within, content], fun t there => ?_⟩
  rcases List.mem_append.1 there with gap | mark
  · exact clipped_scopes gap ▸ commented_self _
  · exact scope.trans (captured_commented opening mark)

theorem offers_comment (known : Known grammar (frame :: outer))
    (site : frame.site = Area.blockComment.site) :
    ∃ c, offers grammar.rules (context grammar (frame :: outer)) =
        [Offer.mk .close blockCommentEnd.capture, Offer.mk (.apply c) c.leaf.pattern] ∧
      outline c.leaf = (Ask.area .blockComment).outline := by
  have is := described (known frame (by simp)) site
  obtain ⟨c, one, outlined⟩ := List.map_eq_singleton_iff.1 is.candidates
  have all : candidates grammar.rules frame.site frame.children = [c] := one
  exact ⟨c, by simp [offers, context, all, is.closing, Area.closing], outlined⟩

theorem idles_in_comment (known : Known grammar (frame :: outer))
    (site : frame.site = Area.blockComment.site)
    (noOpening : ¬ (l.text[b]? = some '(' ∧ l.text[b + 1]? = some ';'))
    (noClosing : ¬ (l.text[b]? = some ';' ∧ l.text[b + 1]? = some ')')) :
    Idles l (frame :: outer) b := by
  obtain ⟨c, all, outlined⟩ := offers_comment known site
  intro o offered tree read
  refine List.eq_nil_iff_forall_not_mem.2 fun w way => ?_
  rw [all] at offered
  simp only [List.mem_cons, List.not_mem_nil, or_false] at offered
  rcases offered with rfl | rfl
  · cases read.symm.trans tree_blockCommentEnd
    have mark := mem_ways_group_pair way
    exact noClosing ⟨mark.1, mark.2.1⟩
  · rw [pattern_of_outline outlined] at read
    cases read.symm.trans tree_blockCommentStart
    have mark := mem_ways_group_pair way
    exact noOpening ⟨mark.1, mark.2.1⟩

theorem asksComment_in_comment (known : Known grammar (frame :: outer))
    (site : frame.site = Area.blockComment.site) (here : l.text[b]? = some '(') :
    AsksComment l (frame :: outer) b := by
  obtain ⟨c, all, outlined⟩ := offers_comment known site
  refine ⟨[Offer.mk .close blockCommentEnd.capture], c, [], all, outlined, fun o member tree read => ?_⟩
  obtain rfl := List.mem_singleton.1 member
  cases read.symm.trans tree_blockCommentEnd
  refine List.eq_nil_iff_forall_not_mem.2 fun w way => ?_
  have mark := (mem_ways_group_pair way).1
  rw [here] at mark
  exact absurd (Option.some.inj mark) (by decide)

theorem step_closes_comment (known : Known grammar (frame :: outer))
    (site : frame.site = Area.blockComment.site) (content : frame.contentScopes = frame.scopes)
    (ge : p ≤ b) (idle : ∀ i, p ≤ i → i < b → Idles l (frame :: outer) i)
    (here : l.text[b]? = some ';') (next : l.text[b + 1]? = some ')') :
    ∃ tokens, step (searchIn l.text) grammar l p (frame :: outer) =
        .ok (tokens, .moved (b + 2) outer) ∧
      ∀ t ∈ tokens, Commented frame.scopes t.scopes := by
  obtain ⟨c, all, -⟩ := offers_comment known site
  have inside := (List.getElem?_eq_some_iff.1 here).1
  obtain ⟨found, chosen, answered, start⟩ := choose_first (choose_answers known l.text p)
    (show _ = [] ++ _ from all) tree_blockCommentEnd ge (Nat.le_of_lt inside)
    (ways_group_pair_ne_nil here next)
    (fun o offered tree read i ge lt => idle i ge lt o offered tree read) (by simp)
  obtain ⟨-, w, way, stop⟩ := found_way tree_blockCommentEnd (by omega) answered
  have two := (mem_ways_group_pair way).2.2
  have leaf := known frame (by simp)
  rw [Frame.leaf, site] at leaf
  have stepped := step_leaves (l := l) chosen (not_stalls (by omega))
  rw [show max p found.whole.stop = b + 2 by omega] at stepped
  refine ⟨_, stepped, fun t there => ?_⟩
  rcases List.mem_append.1 there with gap | mark
  · exact content ▸ clipped_scopes gap ▸ commented_self _
  · exact captured_commented (tags_of_comment leaf []).2.2.2 mark

end Comments

section Runs

variable {l : Line} {base stack : List Frame} {start p b : Nat}

/-- A place in separators that begin at the given one, outside of comments: the beginning, or a place
behind a blank or a comment. -/
def Loose (l : Line) (start i : Nat) : Prop :=
  i = start ∨ ∃ j c, j + 1 = i ∧ l.text[j]? = some c ∧ c ∈ [' ', '\t', ')']

/-- Separators from a place on are passed over: nothing begins at their blanks, and their comments are
taken as such. -/
structure Rests (l : Line) (base : List Frame) (start : Nat) : Prop where
  known : Known grammar base
  idles : ∀ i c, Loose l start i → l.text[i]? = some c → c ∈ blankChars → Idles l base i
  asksComment : ∀ i, Loose l start i → l.text[i]? = some '(' → l.text[i + 1]? = some ';' →
    AsksComment l base i

/-- Some block comments that are open over other regions. -/
inductive Remarks (base : List Frame) : Nat → List Frame → Prop where
  | none : Remarks base 0 base
  | more {frame : Frame} {depth : Nat} {stack : List Frame} :
    frame.site = Area.blockComment.site → frame.contentScopes = frame.scopes →
    Commented (context grammar base).scopes frame.scopes → Remarks base depth stack →
    Remarks base (depth + 1) (frame :: stack)

theorem Remarks.scopes {depth : Nat} (remarks : Remarks base depth stack) :
    Commented (context grammar base).scopes (context grammar stack).scopes := by
  cases remarks with
  | none => exact commented_self _
  | more _ content scopes _ =>
    rw [← content] at scopes
    exact scopes

/-- The scan goes from one place to another, with a step for each character at most, and with what it
makes tagged as comments are. -/
structure Passes (l : Line) (base : List Frame) (p q : Nat) (stack stack' : List Frame) : Prop where
  passes : ∃ steps tokens, Carries (searchIn l.text) grammar l steps p stack tokens q stack' ∧
    p + steps ≤ q ∧
    ∀ t ∈ tokens, t.Between l p q ∧ Commented (context grammar base).scopes t.scopes

theorem passes_none (p : Nat) (stack : List Frame) : Passes l base p p stack stack :=
  ⟨0, [], carries_none p stack, Nat.le_refl p, by simp⟩

theorem Passes.behind {q q' : Nat} {stack' stack'' : List Frame} {tokens : List Token}
    (known : Known grammar stack) (inside : p ≤ l.text.length)
    (stepped : step (searchIn l.text) grammar l p stack = .ok (tokens, .moved q stack')) (lt : p < q)
    (scopes : ∀ t ∈ tokens, Commented (context grammar base).scopes t.scopes)
    (later : Passes l base q q' stack' stack'') : Passes l base p q' stack stack'' := by
  obtain ⟨steps, more, carries, few, made⟩ := later
  have between := step_between (offers_groupsRead known) inside stepped
  refine ⟨1 + steps, tokens ++ more, (carries_step stepped).trans carries, by omega, fun t member => ?_⟩
  rcases List.mem_append.1 member with first | rest
  · exact ⟨(between t first).mono (Nat.le_refl p) (by omega), scopes t first⟩
  · exact ⟨(made t rest).1.mono (Nat.le_of_lt lt) (Nat.le_refl q'), (made t rest).2⟩

/-- Where the scan stands behind separators: only blanks are left of them, and the regions are those
before them. -/
structure Behind (l : Line) (base : List Frame) (start p q : Nat) (stack : List Frame) : Prop where
  passes : ∃ p', p ≤ p' ∧ p' ≤ q ∧ Passes l base p p' stack base ∧
    ∀ i, p' ≤ i → i < q → Idles l base i
  loose : Loose l start q

theorem Behind.step {q e : Nat} {stack' : List Frame} {tokens : List Token}
    (known : Known grammar stack) (inside : p ≤ l.text.length)
    (stepped : Scan.step (searchIn l.text) grammar l p stack = .ok (tokens, .moved q stack'))
    (lt : p < q) (scopes : ∀ t ∈ tokens, Commented (context grammar base).scopes t.scopes)
    (later : Behind l base start q e stack') : Behind l base start p e stack := by
  obtain ⟨⟨p', ge, le, passes, idle⟩, loose⟩ := later
  exact ⟨⟨p', by omega, le, passes.behind known inside stepped lt scopes, idle⟩, loose⟩

theorem behind_separators (rests : Rests l base start) {depth : Nat} {cs tail : List Char}
    (skipped : isSkipped depth cs = true) (remarks : Remarks base depth stack)
    (known : Known grammar stack) (ge : p ≤ b) (there : l.text.drop b = cs ++ tail)
    (idle : ∀ i, p ≤ i → i < b → Idles l stack i) (loose : depth = 0 → Loose l start b) :
    Behind l base start p (b + cs.length) stack := by
  fun_induction isSkipped depth cs generalizing stack p b with
  | case1 depth cs ih =>
    obtain ⟨here, there'⟩ := head_of_drop there
    obtain ⟨next, there''⟩ := head_of_drop there'
    have inside := (List.getElem?_eq_some_iff.1 here).1
    have asks : AsksComment l stack b := by
      cases remarks with
      | none => exact rests.asksComment b (loose rfl) here next
      | more site _ _ _ => exact asksComment_in_comment known site here
    obtain ⟨tokens, frame, stepped, site, scopes, content, made⟩ :=
      step_opens_comment known asks ge idle here next
    have later := ih skipped (.more site content (remarks.scopes.trans scopes) remarks)
      (step_known known stepped) (Nat.le_refl (b + 2)) there'' (fun i _ _ => by omega) (by simp)
    rw [show b + ('(' :: ';' :: cs).length = b + 2 + cs.length by simp; omega]
    exact later.step known (by omega) stepped (by omega) fun t member =>
      remarks.scopes.trans (made t member)
  | case2 depth cs ih =>
    obtain ⟨here, there'⟩ := head_of_drop there
    obtain ⟨next, there''⟩ := head_of_drop there'
    have inside := (List.getElem?_eq_some_iff.1 here).1
    cases remarks with
    | @more frame depth stack site content scopes remarks =>
      obtain ⟨tokens, stepped, made⟩ := step_closes_comment known site content ge idle here next
      have later := ih skipped remarks (step_known known stepped) (Nat.le_refl (b + 2)) there''
        (fun i _ _ => by omega) fun _ => .inr ⟨b + 1, ')', rfl, next, by decide⟩
      rw [show b + (';' :: ')' :: cs).length = b + 2 + cs.length by simp; omega]
      exact later.step known (by omega) stepped (by omega) fun t member =>
        scopes.trans (made t member)
  | case3 depth c cs noOpening noClosing ih =>
    obtain ⟨here, there'⟩ := head_of_drop there
    -- The comment is open, so that there is a character behind this one.
    obtain ⟨d, cs, rfl⟩ : ∃ d ds, cs = d :: ds := by
      cases cs with
      | nil => simp [isSkipped] at skipped
      | cons d ds => exact ⟨d, ds, rfl⟩
    obtain ⟨next, -⟩ := head_of_drop there'
    have none : Idles l stack b := by
      cases remarks with
      | more site _ _ _ =>
        refine idles_in_comment known site (fun marks => ?_) fun marks => ?_
        all_goals
          obtain rfl := Option.some.inj (here.symm.trans marks.1)
          obtain rfl := Option.some.inj (next.symm.trans marks.2)
        · exact noOpening cs rfl rfl
        · exact noClosing cs rfl rfl
    have later := ih skipped remarks known (Nat.le_succ_of_le ge) there'
      (idles_succ idle none) (by simp)
    rwa [show b + (c :: d :: cs).length = b + 1 + (d :: cs).length by simp; omega]
  | case4 c cs noOpening ih =>
    obtain ⟨here, there'⟩ := head_of_drop there
    simp only [Bool.and_eq_true, Bool.or_eq_true, decide_eq_true_eq] at skipped
    have blank : c ∈ blankChars := by simpa [blankChars] using skipped.1
    cases remarks with
    | none =>
      have none := rests.idles b c (loose rfl) here blank
      have later := ih skipped.2 .none known (Nat.le_succ_of_le ge) there'
        (idles_succ idle none) fun _ => .inr ⟨b, c, rfl, here, by rcases skipped.1 with rfl | rfl <;> decide⟩
      rwa [show b + (c :: cs).length = b + 1 + cs.length by simp; omega]
  | case5 depth =>
    obtain rfl : depth = 0 := of_decide_eq_true skipped
    cases remarks with
    | none => exact ⟨⟨p, Nat.le_refl p, ge, passes_none p base, idle⟩, loose rfl⟩

end Runs

end ScopeGrammar.WebAssembly
