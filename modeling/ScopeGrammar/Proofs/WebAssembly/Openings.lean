import ScopeGrammar.Proofs.Regex.Flat
import ScopeGrammar.Proofs.Regex.Matches
import ScopeGrammar.Proofs.WebAssembly.Keywords

/-!
Where a clause begins: at a parenthesis with a keyword behind it, and blanks and block comments
between the two. The pattern of a clause knows the marks of comments and not which of them belong
together: it passes over all that stands between any mark that opens a comment and any that closes
one.
-/

set_option autoImplicit false

namespace ScopeGrammar.WebAssembly

open Scan Fragment
open Regex (Node CharSet Way Saved Found Repeats drop_behind le_of_drop)

/-- Whether the text is blanks and complete block comments, which nest, where so many comments are
open before it. -/
def isSkipped : (depth : Nat) → List Char → Bool
  | depth, '(' :: ';' :: cs => isSkipped (depth + 1) cs
  | depth + 1, ';' :: ')' :: cs => isSkipped depth cs
  | depth + 1, _ :: cs => isSkipped (depth + 1) cs
  | 0, c :: cs => (c = ' ' || c = '\t') && isSkipped 0 cs
  | depth, [] => depth = 0

/-- A part of what the pattern of a clause passes over: a blank, or all from a mark that opens a
comment to a mark that closes one. -/
inductive Gap : List Char → Prop where
  | blank {c : Char} : c = ' ' ∨ c = '\t' → Gap [c]
  | stretch {body : List Char} : '\n' ∉ body → Gap ('(' :: ';' :: (body ++ [';', ')']))

/-- All that stands between a mark that opens a comment and one that closes one, the two included, is
blanks and complete comments. -/
def Tidy (cs : List Char) : Prop :=
  ∀ body, '(' :: ';' :: (body ++ [';', ')']) <:+: cs →
    isSkipped 0 ('(' :: ';' :: (body ++ [';', ')'])) = true

/-- At a place of a text there are a parenthesis, the gap, and one of the words as a whole word. -/
structure OpensClause (text : List Char) (words : List (List Char)) (i : Nat)
    (gap letters : List Char) : Prop where
  there : ∃ rest, text.drop i = '(' :: (gap ++ (letters ++ rest))
  listed : letters ∈ words
  whole : Edged text (i + 1 + gap.length) (i + 1 + gap.length + letters.length)

section Comments

theorem closing_of_isSkipped {depth : Nat} {cs : List Char}
    (skipped : isSkipped (depth + 1) cs = true) :
    ∃ body rest, cs = body ++ ';' :: ')' :: rest ∧ isSkipped 0 rest = true := by
  generalize open' : depth + 1 = n at skipped
  fun_induction isSkipped n cs generalizing depth with
  | case1 n cs ih =>
    obtain ⟨body, rest, rfl, later⟩ := ih rfl skipped
    exact ⟨'(' :: ';' :: body, rest, rfl, later⟩
  | case2 n cs ih =>
    cases n with
    | zero => exact ⟨[], cs, rfl, skipped⟩
    | succ n =>
      obtain ⟨body, rest, rfl, later⟩ := ih rfl skipped
      exact ⟨';' :: ')' :: body, rest, rfl, later⟩
  | case3 n c cs _ _ ih =>
    obtain ⟨body, rest, rfl, later⟩ := ih rfl skipped
    exact ⟨c :: body, rest, rfl, later⟩
  | case4 => simp at open'
  | case5 n => simp [← open'] at skipped

theorem repeats_of_isSkipped {cs : List Char} (skipped : isSkipped 0 cs = true)
    (inLine : '\n' ∉ cs) : Repeats Gap cs := by
  induction size : cs.length using Nat.strongRecOn generalizing cs with
  | ind n ih =>
    subst size
    unfold isSkipped at skipped
    split at skipped
    · rename_i cs
      obtain ⟨body, rest, rfl, later⟩ := closing_of_isSkipped skipped
      have split : '(' :: ';' :: (body ++ ';' :: ')' :: rest) =
          ('(' :: ';' :: (body ++ [';', ')'])) ++ rest := by simp
      rw [split] at inLine ⊢
      rw [List.mem_append, not_or] at inLine
      refine .next (.stretch fun member => inLine.1 (by simp [member])) (ih _ ?_ later inLine.2 rfl)
      simp only [List.length_append, List.length_cons]
      omega
    · simp_all
    · simp_all
    · rename_i c rest _ _
      simp only [Bool.and_eq_true, Bool.or_eq_true, decide_eq_true_eq] at skipped
      rw [List.mem_cons, not_or] at inLine
      show Repeats Gap ([c] ++ rest)
      exact .next (.blank skipped.1) (ih _ (by simp) skipped.2 inLine.2 rfl)
    · exact .nil

theorem isSkipped_append {depth : Nat} {cs rest : List Char} (skipped : isSkipped depth cs = true)
    (later : isSkipped 0 rest = true) : isSkipped depth (cs ++ rest) = true := by
  fun_induction isSkipped depth cs with
  | case1 depth cs ih =>
    rw [List.cons_append, List.cons_append, isSkipped]
    exact ih skipped
  | case2 depth cs ih =>
    rw [List.cons_append, List.cons_append, isSkipped]
    exact ih skipped
  | case3 depth c cs noOpening noClosing ih =>
    -- A comment that is open is not complete, so that two characters decide what comes next.
    obtain ⟨d, cs, rfl⟩ : ∃ d ds, cs = d :: ds := by
      cases cs with
      | nil => simp [isSkipped] at skipped
      | cons d ds => exact ⟨d, ds, rfl⟩
    rw [List.cons_append, List.cons_append, isSkipped]
    · exact ih skipped
    · rintro e rfl same
      simp_all
    · rintro e rfl same
      simp_all
  | case4 c cs noOpening ih =>
    simp only [Bool.and_eq_true, Bool.or_eq_true, decide_eq_true_eq] at skipped
    have more := ih skipped.2
    rcases skipped.1 with rfl | rfl <;> simpa [isSkipped] using more
  | case5 depth =>
    obtain rfl : depth = 0 := of_decide_eq_true skipped
    exact later

theorem isSkipped_of_repeats {cs : List Char} (repeats : Repeats Gap cs) (tidy : Tidy cs) :
    isSkipped 0 cs = true := by
  induction repeats with
  | nil => rfl
  | @next front rest gap _ ih =>
    refine isSkipped_append ?_ (ih fun body inside => tidy body (inside.trans (List.suffix_append _ _).isInfix))
    cases gap with
    | blank is => rcases is with rfl | rfl <;> rfl
    | stretch => exact tidy _ (List.prefix_append _ _).isInfix

end Comments

section Patterns

theorem word_eq_row (letters : List Char) : word letters = .row letters := by
  induction letters with
  | nil => rfl
  | cons c letters ih =>
    cases letters with
    | nil => rfl
    | cons d letters =>
      rw [word, ih, Node.row_cons c (by simp)]
      simp

theorem denotes_word (letters : List Char) : (word letters).Denotes (· = letters) :=
  word_eq_row letters ▸ Node.denotes_row letters

theorem denotes_branches (words : List (List Char)) :
    (Node.branches (words.map word)).Denotes (· ∈ words) := by
  induction words with
  | nil => exact Node.denotes_never.congr fun cs => by simp
  | cons letters words ih =>
    exact ((denotes_word letters).alt ih).congr fun cs => by rw [List.mem_cons]

theorem denotes_words (words : List (List Char)) :
    (Node.alternatives (words.map word)).Denotes (· ∈ words) := by
  match words with
  | [] => exact denotes_branches []
  | [letters] => exact (denotes_word letters).congr fun cs => by rw [List.mem_singleton]
  | letters :: other :: words => exact denotes_branches (letters :: other :: words)

theorem denotes_blankOrComment : blankOrComment.Denotes Gap := by
  have inside := Node.denotes_chars (.compl (.single '\n')) false
  have ends := (Node.denotes_single ';').seq (Node.denotes_single ')')
  have comment := (Node.denotes_single '(').seq ((Node.denotes_single ';').seq (inside.seq ends))
  have blank := Node.denotes_set (.union (.single ' ') (.single '\t'))
  refine (blank.alt (comment.alt Node.denotes_never)).congr fun cs => ?_
  have inLine (body : List Char) :
      (∀ c ∈ body, (CharSet.compl (.single '\n')).mem c = true) ↔ '\n' ∉ body := by
    simp only [CharSet.mem_compl, CharSet.mem_single, Bool.not_eq_true', decide_eq_false_iff_not]
    exact ⟨fun all member => all _ member rfl, fun none c member same => none (same ▸ member)⟩
  constructor
  · rintro (⟨c, rfl, is⟩ | ⟨_, _, rfl, rfl, _, _, rfl, rfl, body, _, rfl, all, _, _, rfl, rfl, rfl⟩ | no)
    · exact .blank (by simpa using is)
    · exact .stretch ((inLine body).1 all)
    · exact no.elim
  · intro gap
    cases gap with
    | blank is => exact .inl ⟨_, rfl, by simpa using is⟩
    | @stretch body none =>
      exact .inr (.inl ⟨['('], _, rfl, rfl, [';'], _, rfl, rfl, body, _, rfl, (inLine body).2 none,
        [';'], [')'], rfl, rfl, rfl⟩)

variable {text : List Char} {p opened : Nat} {s : Saved} {w : Way}

theorem mem_ways_wholeWord_iff {body : Node} :
    w ∈ (wholeWordTree body).ways text opened p s ↔
      w ∈ body.ways text opened p s ∧ Edged text p w.1 := by
  refine ⟨mem_ways_wholeWord, fun ⟨inside, edged⟩ => ?_⟩
  have none {c? : Option Char} (other : ∀ c ∈ c?, isIdChar c = false) : c?.any ids.mem = false := by
    cases c? with
    | none => rfl
    | some c => rw [Option.any_some, mem_ids, other c rfl]
  have before : (Node.notBehind (.set ids)).ways text opened p s = [(p, s)] := by
    change (if (1 ≤ p && !((Node.set ids).ways text opened (p - 1) s).isEmpty) = true then []
      else [(p, s)]) = [(p, s)]
    cases p with
    | zero => simp
    | succ i => simp [Node.ways, none (edged.before i rfl)]
  have behind (opened : Nat) : (Node.notAhead (.set ids)).ways text opened w.1 w.2 = [w] := by
    simp [Node.ways, none edged.behind]
  refine List.mem_flatMap.2 ⟨(p, s), before ▸ List.mem_singleton_self _, ?_⟩
  exact List.mem_flatMap.2 ⟨w, inside, behind _ ▸ List.mem_singleton_self _⟩

/-- The ways through the beginning of a clause, with its groups: the parenthesis and the word. -/
theorem mem_ways_clause_iff {words : List (List Char)} (inside : p ≤ text.length) :
    w ∈ (clauseTree (.alternatives (words.map word))).ways text 0 p [] ↔
      ∃ gap letters, Repeats Gap gap ∧ OpensClause text words p gap letters ∧
        w = (p + 1 + gap.length + letters.length,
          [(2, ⟨p + 1 + gap.length, p + 1 + gap.length + letters.length⟩), (1, ⟨p, p + 1⟩)]) := by
  have between := denotes_blankOrComment.star true
  have isWord := denotes_words words
  constructor
  · intro member
    obtain ⟨u, first, member⟩ := List.mem_flatMap.1 member
    obtain ⟨v, parenthesis, rfl⟩ := List.mem_map.1 first
    obtain ⟨_, rest, there, rfl, rfl⟩ := (Node.denotes_single '(' text _ p _ v inside).1 parenthesis
    have inside' := le_of_drop inside there
    obtain ⟨u, passed, member⟩ := List.mem_flatMap.1 member
    obtain ⟨gap, rest', there', repeats, rfl⟩ := (between text _ _ _ u inside').1 passed
    have inside'' := le_of_drop inside' there'
    obtain ⟨v, whole, rfl⟩ := List.mem_map.1 member
    obtain ⟨spelled, edged⟩ := mem_ways_wholeWord whole
    obtain ⟨letters, rest'', there'', listed, rfl⟩ := (isWord text _ _ _ v inside'').1 spelled
    refine ⟨gap, letters, repeats, ⟨⟨rest'', ?_⟩, listed, edged⟩, rfl⟩
    rw [there, ← drop_behind there, there', ← drop_behind there', there'']
    rfl
  · rintro ⟨gap, letters, repeats, ⟨⟨rest, there⟩, listed, whole⟩, rfl⟩
    obtain ⟨here, there'⟩ := head_of_drop there
    have inside' : p + 1 ≤ text.length := (List.getElem?_eq_some_iff.1 here).1
    have inside'' := le_of_drop inside' there'
    have there'' := drop_behind there'
    refine List.mem_flatMap.2 ⟨(p + 1, [(1, ⟨p, p + 1⟩)]), ?_, List.mem_flatMap.2
      ⟨(p + 1 + gap.length, [(1, ⟨p, p + 1⟩)]), ?_, List.mem_map.2
        ⟨(p + 1 + gap.length + letters.length, [(1, ⟨p, p + 1⟩)]), ?_, rfl⟩⟩⟩
    · exact List.mem_map.2 ⟨(p + 1, []), (Node.denotes_single '(' text _ p _ _ inside).2
        ⟨['('], _, there, rfl, rfl⟩, rfl⟩
    · exact (between text _ _ _ _ inside').2 ⟨gap, _, there', repeats, rfl⟩
    · exact mem_ways_wholeWord_iff.2
        ⟨(isWord text _ _ _ _ inside'').2 ⟨letters, rest, there'', listed, rfl⟩, whole⟩

end Patterns

section Searches

def isKnownOpening : Leaf → Bool
  | .single _ => true
  | .region _ region _ => region.opening.source.take 4 ≠ "(\\()".toList || isClause region

theorem leaves_knownOpening : (leaves grammar).all isKnownOpening = true := by decide +kernel

/-- The fragment has a match in the text that starts at the place. -/
def MatchesAt (f : Fragment) (text : List Char) (i : Nat) : Prop :=
  ∃ found, searchIn text f i = .ok (some found) ∧ found.whole.start = i

theorem matchesAt_iff {f : Fragment} {tree : Node} (read : lineTree? f = some tree)
    {text : List Char} {i : Nat} (inside : i ≤ text.length) :
    MatchesAt f text i ↔ tree.ways text 0 i [] ≠ [] := by
  constructor
  · rintro ⟨found, answered, rfl⟩
    obtain ⟨-, w, way, -⟩ := found_way read inside answered
    exact List.ne_nil_of_mem way
  · intro way
    obtain ⟨found, answered, before⟩ := searchIn_of_way read (Nat.le_refl i) inside way
    exact ⟨found, answered, Nat.le_antisymm before (way_of_searchIn read inside answered).1⟩

theorem groups_clauseTree (words : List (List Char)) :
    (clauseTree (.alternatives (words.map word))).groups = 2 := by
  have none : (Node.alternatives (words.map word)).groups = 0 := by
    rw [← Node.length_captured, Node.captured_alternatives, List.length_eq_zero_iff,
      List.flatMap_eq_nil_iff]
    intro a member
    obtain ⟨letters, -, rfl⟩ := List.mem_map.1 member
    rw [← List.length_eq_zero_iff, Node.length_captured, word_eq_row, Node.groups_row]
  simp [clauseTree, wholeWordTree, blankOrComment, pair, Node.groups, none]

variable {f : Fragment} {words : List (List Char)} {text : List Char}
  (read : lineTree? f = some (clauseTree (.alternatives (words.map word))))

include read

theorem clause_matchesAt {i : Nat} (inside : i ≤ text.length) :
    MatchesAt f text i ↔
      ∃ gap letters, Repeats Gap gap ∧ OpensClause text words i gap letters := by
  rw [matchesAt_iff read inside]
  constructor
  · intro ways
    obtain ⟨w, way⟩ := List.exists_mem_of_ne_nil _ ways
    obtain ⟨gap, letters, repeats, opens, -⟩ := (mem_ways_clause_iff inside).1 way
    exact ⟨gap, letters, repeats, opens⟩
  · rintro ⟨gap, letters, repeats, opens⟩
    exact List.ne_nil_of_mem ((mem_ways_clause_iff inside).2 ⟨gap, letters, repeats, opens, rfl⟩)

theorem clause_found {pos : Nat} {found : Found} (inside : pos ≤ text.length)
    (answered : searchIn text f pos = .ok (some found)) :
    ∃ gap letters, Repeats Gap gap ∧ OpensClause text words found.whole.start gap letters ∧
      found.groups = [some ⟨found.whole.start, found.whole.start + 1⟩,
        some ⟨found.whole.start + 1 + gap.length, found.whole.stop⟩] ∧
      found.whole.stop = found.whole.start + 1 + gap.length + letters.length := by
  obtain ⟨-, le, ⟨w, first, stop, groups⟩, -⟩ := way_of_searchIn read inside answered
  obtain ⟨gap, letters, repeats, opens, rfl⟩ :=
    (mem_ways_clause_iff le).1 (List.mem_of_mem_head? first)
  refine ⟨gap, letters, repeats, opens, ?_, stop.symm⟩
  rw [groups, groups_clauseTree, ← stop]
  rfl

end Searches

section Clauses

def letters (keywords : List Keyword) : List (List Char) := keywords.map (·.text.toList)

theorem tree_of_clauses {keywords : List Keyword} (listed : keywords ∈ clauses) :
    lineTree? (clauseOpening (anyOf keywords)) =
      some (clauseTree (.alternatives ((letters keywords).map word))) :=
  of_decide_eq_true (List.all_eq_true.1 trees_clauses keywords listed)

theorem clauses_of_known {site : Site} {region : Region} {children : List Pattern} {opened : Fragment}
    (member : Leaf.region site region children ∈ leaves grammar)
    (opening : region.opening = clauseOpening opened) :
    ∃ keywords ∈ clauses, region.opening = clauseOpening (anyOf keywords) := by
  have known := List.all_eq_true.1 leaves_knownOpening _ member
  have source : region.opening.source.take 4 = "(\\()".toList := by
    rw [opening, clauseOpening, source_sequence_cons]
    rfl
  simp only [isKnownOpening, source, ne_eq, not_true_eq_false, decide_false, Bool.false_or] at known
  obtain ⟨keywords, listed, same⟩ := List.any_eq_true.1 known
  exact ⟨keywords, listed, of_decide_eq_true same⟩

theorem letters_idChars {keywords : List Keyword} {word : List Char} (among : word ∈ letters keywords) :
    word ≠ [] ∧ ∀ c ∈ word, isIdChar c = true := by
  obtain ⟨k, -, rfl⟩ := List.mem_map.1 among
  have listed : k.text ∈ Keyword.all.map (·.text) ++ valueTypes :=
    List.mem_append_left _ (List.mem_map.2 ⟨k, k.mem_all, rfl⟩)
  have checked := List.all_eq_true.1 words_idChars _ listed
  simpa only [Bool.and_eq_true, decide_eq_true_eq, List.all_eq_true] using checked

theorem OpensClause.inLine {l : Line} {keywords : List Keyword} {i : Nat} {gap word : List Char}
    (opens : OpensClause l.text (letters keywords) i gap word) (inLine : '\n' ∉ l.content) :
    '\n' ∉ gap := by
  intro member
  obtain ⟨rest, there⟩ := opens.there
  obtain ⟨c, word', rfl⟩ := List.exists_cons_of_ne_nil (letters_idChars opens.listed).1
  obtain ⟨n, inside, same⟩ := List.mem_iff_getElem.1 member
  have feed : l.text[i + (n + 1)]? = some '\n' := by
    rw [← List.getElem?_drop, there, List.getElem?_cons_succ, List.getElem?_append_left inside,
      List.getElem?_eq_getElem inside, same]
  have behind : i + (gap.length + 1) < l.text.length := by
    refine (List.getElem?_eq_some_iff (a := c)).1 ?_ |>.1
    rw [← List.getElem?_drop, there, List.getElem?_cons_succ, List.getElem?_append_right (Nat.le_refl _)]
    simp
  have before : i + (n + 1) < l.content.length := by
    rw [length_text] at behind
    omega
  rw [Line.text, List.getElem?_append_left before] at feed
  exact inLine (List.mem_of_getElem? feed)

theorem edge_of_all {o : Option Char} (other : (o.all fun c => !isIdChar c) = true) :
    ∀ c ∈ o, isIdChar c = false := by
  simpa [Option.all_eq_true] using other

/-- A region of the grammar that begins as clauses do is one of a clause's keywords. Its beginning has
a match at a place of a line exactly if a parenthesis stands there, behind it what the pattern passes
over, and then a keyword as a whole word; its groups are the parenthesis and the keyword. Blanks and
complete comments are passed over; nothing else is where all that the pattern may pass over in front
of a keyword is tidy. -/
theorem clause_openings {site : Site} {region : Region} {children : List Pattern} {opened : Fragment}
    (member : Leaf.region site region children ∈ leaves grammar)
    (opening : region.opening = clauseOpening opened) (l : Line) (inLine : '\n' ∉ l.content) :
    ∃ keywords ∈ clauses, region.opening = clauseOpening (anyOf keywords) ∧
      (∀ i ≤ l.text.length, MatchesAt region.opening l.text i ↔
        ∃ gap word, Repeats Gap gap ∧ OpensClause l.text (letters keywords) i gap word) ∧
      (∀ pos ≤ l.text.length, ∀ found,
        searchIn l.text region.opening pos = .ok (some found) →
        ∃ gap word, Repeats Gap gap ∧ (Tidy gap → isSkipped 0 gap = true) ∧
          OpensClause l.text (letters keywords) found.whole.start gap word ∧
          found.groups = [some ⟨found.whole.start, found.whole.start + 1⟩,
            some ⟨found.whole.start + 1 + gap.length, found.whole.stop⟩] ∧
          found.whole.stop = found.whole.start + 1 + gap.length + word.length) ∧
      (∀ i ≤ l.text.length, ∀ gap word, isSkipped 0 gap = true →
        OpensClause l.text (letters keywords) i gap word → MatchesAt region.opening l.text i) ∧
      ∀ i ≤ l.text.length,
        (∀ gap word, Repeats Gap gap → OpensClause l.text (letters keywords) i gap word → Tidy gap) →
        (MatchesAt region.opening l.text i ↔
          ∃ gap word, isSkipped 0 gap = true ∧ OpensClause l.text (letters keywords) i gap word) := by
  obtain ⟨keywords, listed, same⟩ := clauses_of_known member opening
  have read := tree_of_clauses listed
  rw [← same] at read
  have skips {i : Nat} (inside : i ≤ l.text.length) {gap word : List Char}
      (skipped : isSkipped 0 gap = true) (opens : OpensClause l.text (letters keywords) i gap word) :
      MatchesAt region.opening l.text i :=
    (clause_matchesAt read inside).2
      ⟨gap, word, repeats_of_isSkipped skipped (opens.inLine inLine), opens⟩
  refine ⟨keywords, listed, same, fun i inside => clause_matchesAt read inside,
    fun pos inside found answered => ?_, fun i inside gap word => skips inside, ?_⟩
  · obtain ⟨gap, word, repeats, rest⟩ := clause_found read inside answered
    exact ⟨gap, word, repeats, isSkipped_of_repeats repeats, rest⟩
  · intro i inside tidy
    constructor
    · intro begins
      obtain ⟨gap, word, repeats, opens⟩ := (clause_matchesAt read inside).1 begins
      exact ⟨gap, word, isSkipped_of_repeats repeats (tidy gap word repeats opens), opens⟩
    · rintro ⟨gap, word, skipped, opens⟩
      exact skips inside skipped opens

def commented : Line := ⟨0, "((;a(;b;);)func)".toList⟩

theorem clause_openings_commented :
    ∃ site region children, Leaf.region site region children ∈ leaves grammar ∧
      region.opening = clauseOpening (anyOf [.func]) ∧ '\n' ∉ commented.content ∧
      ∃ keywords ∈ clauses,
        OpensClause commented.text (letters keywords) 0 "(;a(;b;);)".toList "func".toList ∧
        MatchesAt region.opening commented.text 0 ∧
        ∃ found, searchIn commented.text region.opening 0 = .ok (some found) ∧
          ∃ gap word, Repeats Gap gap ∧
            OpensClause commented.text (letters keywords) found.whole.start gap word := by
  have some : ((leaves grammar).any fun leaf =>
      match leaf with
      | .single _ => false
      | .region _ region _ => region.opening = clauseOpening (anyOf [.func])) = true := by
    decide +kernel
  obtain ⟨leaf, member, same⟩ := List.any_eq_true.1 some
  cases leaf with
  | single rule => simp at same
  | region site region children =>
    have opening := of_decide_eq_true same
    have inLine : '\n' ∉ commented.content := by decide
    have skipped : isSkipped 0 "(;a(;b;);)".toList = true := by decide
    obtain ⟨keywords, listed, same, -, groups, skips, -⟩ :=
      clause_openings member opening commented inLine
    have among : Keyword.func ∈ keywords := by
      have only : ∀ keywords ∈ clauses,
          clauseOpening (anyOf [.func]) = clauseOpening (anyOf keywords) → Keyword.func ∈ keywords := by
        decide +kernel
      exact only keywords listed (opening.symm.trans same)
    have opens : OpensClause commented.text (letters keywords) 0 "(;a(;b;);)".toList
        "func".toList := by
      refine ⟨⟨")\n".toList, by decide⟩, List.mem_map.2 ⟨.func, among, rfl⟩, fun i before => ?_,
        edge_of_all (by decide)⟩
      obtain rfl : i = 10 := Nat.succ.inj before
      exact edge_of_all (by decide)
    have begins := skips 0 (Nat.zero_le _) _ _ skipped opens
    have ⟨found, answered, _⟩ := begins
    obtain ⟨gap, word, repeats, -, opens', -⟩ := groups 0 (Nat.zero_le _) found answered
    exact ⟨site, region, children, member, opening, inLine, keywords, listed, opens, begins, found,
      answered, gap, word, repeats, opens'⟩

def overrun : Line := ⟨0, "((; a ;) x ;) func)".toList⟩

/-- The beginning of a clause passes over a word behind the end of a comment, to a later mark that
ends one. -/
theorem clause_opening_passes_word :
    [Keyword.func] ∈ clauses ∧ '\n' ∉ overrun.content ∧
      MatchesAt (clauseOpening (anyOf [.func])) overrun.text 0 ∧
      ¬ ∃ gap word, isSkipped 0 gap = true ∧
        OpensClause overrun.text (letters [.func]) 0 gap word := by
  have listed : [Keyword.func] ∈ clauses := by decide
  have stretch : Gap "(; a ;) x ;)".toList := @Gap.stretch " a ;) x ".toList (by decide)
  have repeats : Repeats Gap "(; a ;) x ;) ".toList :=
    .next stretch (.next (Gap.blank (c := ' ') (.inl rfl)) .nil)
  have opens : OpensClause overrun.text (letters [.func]) 0 "(; a ;) x ;) ".toList "func".toList := by
    refine ⟨⟨")\n".toList, by decide⟩, by decide, ⟨fun i before => ?_, edge_of_all (by decide)⟩⟩
    obtain rfl : i = 13 := Nat.succ.inj before
    exact edge_of_all (by decide)
  refine ⟨listed, by decide, ?_, ?_⟩
  · exact (clause_matchesAt (tree_of_clauses listed) (Nat.zero_le _)).2 ⟨_, _, repeats, opens⟩
  · rintro ⟨gap, word, skipped, ⟨rest, there⟩, among, -⟩
    obtain rfl := List.mem_singleton.1 among
    have behind : overrun.text.drop 1 = gap ++ (Keyword.func.text.toList ++ rest) :=
      (head_of_drop there).2
    have short : gap.length < 20 := by
      have size := congrArg List.length behind
      rw [List.length_append, show (overrun.text.drop 1).length = 19 by decide] at size
      omega
    have none : ∀ n < 20, isSkipped 0 ((overrun.text.drop 1).take n) = true →
        ¬ Keyword.func.text.toList <+: (overrun.text.drop 1).drop n := by decide
    refine none gap.length short ?_ ⟨rest, ?_⟩
    · rw [behind, List.take_left]
      exact skipped
    · rw [behind, List.drop_left]

end Clauses

end ScopeGrammar.WebAssembly
