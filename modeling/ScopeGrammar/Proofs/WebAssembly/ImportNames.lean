import ScopeGrammar.Proofs.Text.Lines
import ScopeGrammar.Proofs.WebAssembly.Fields
import ScopeGrammar.Proofs.WebAssembly.ImportPlaces

/-!
The two names of an import. The name of the module is told from the name of what is imported by the
region around it, which begins right behind the keyword and ends with the first string, whatever
blanks and block comments stand around the strings and whatever is in them. It does not begin where a
block comment does: then the name of the module is read like the other one.
-/

set_option autoImplicit false

namespace ScopeGrammar.WebAssembly

open Scan Fragment
open Regex (Found Node)

namespace ImportPlace

section Import

variable {l : Line} {frame : Frame} {outer : List Frame} {j p : Nat} {w tail : List Char}

theorem head_of_isSkipped (skipped : isSkipped 0 w = true) {c : Char} (head : c ∈ w.head?) :
    c ∈ blankChars ∨ c = '(' := by
  cases w with
  | nil => cases head
  | cons d w =>
    obtain rfl : d = c := Option.some.inj head
    by_cases opening : d = '('
    · exact .inr opening
    · rw [isSkipped] at skipped
      · simp only [Bool.and_eq_true, Bool.or_eq_true, decide_eq_true_eq] at skipped
        exact .inl (by simpa [blankChars] using skipped.1)
      · exact fun _ same => absurd same opening

theorem ways_importNameOpening_ne_nil {text : List Char} (edged : Edged text j (j + 6))
    (repeats : Regex.Repeats Gap w)
    (there : text.drop j = "import".toList ++ (w ++ '"' :: tail)) :
    (Node.seq (.behind (wholeWordTree (word "import".toList))) (.ahead (.seq
      (.many 0 none true blankOrComment) (.set (.single '"'))))).ways text 0 (j + 6) [] ≠ [] := by
  have inside : j + 6 ≤ text.length := by
    have size := congrArg List.length there
    simp only [List.length_drop, List.length_append] at size
    have six : "import".toList.length = 6 := rfl
    omega
  have behind : text.drop (j + 6) = w ++ '"' :: tail := Regex.drop_behind there
  have spelled : (j + 6, []) ∈ (wholeWordTree (word "import".toList)).ways text 0 j [] :=
    mem_ways_wholeWord_iff.2 ⟨(denotes_word _ text 0 j [] _ (by omega)).2 ⟨_, _, there, rfl, rfl⟩,
      edged⟩
  obtain ⟨u, first⟩ : ∃ u, u ∈ (Node.behind (wholeWordTree (word "import".toList))).ways text 0
      (j + 6) [] := by
    have width : (wholeWordTree (word "import".toList)).width = some 6 := rfl
    obtain ⟨v, rest, same⟩ := List.exists_cons_of_ne_nil (List.ne_nil_of_mem spelled)
    refine ⟨(j + 6, v.2), ?_⟩
    simp only [Node.ways, width, Nat.le_add_left, if_true, Nat.add_sub_cancel, same]
    simp
  refine ways_seq_ne_nil first ?_
  rw [show u.1 = j + 6 from Node.ways_of_not_repeatable rfl first]
  generalize 0 + _ = opened
  have passed := (denotes_blankOrComment.star true text opened (j + 6) u.2 _ inside).2
    ⟨w, _, behind, repeats, rfl⟩
  have ahead := ways_seq_ne_nil (b := .set (.single '"')) passed
    (by simp [ways_single, (head_of_drop (Regex.drop_behind behind)).1])
  rw [Node.ways]
  simpa using ahead

theorem plain_enter {n : ImportPlace} {ctx : Context} {site : Site} {region : Region}
    {children : List Pattern} {names : List String}
    (stands : n.Stands (ctx.enter l p site region children names)) (plain : Plain ctx.scopes) :
    Plain (ctx.enter l p site region children names).contentScopes := by
  intro name among
  have tags := stands.plain name among
  refine unmarked_append (unmarked_append (plain name among) fun tag member => tags tag ?_)
    fun tag member => tags tag ?_
  all_goals simp [Frame.leaf, Leaf.tags, Context.enter, Option.mem_toList.1 member]

theorem front_apart : ∀ f ∈ field.closing :: (field.front.take 3).map (·.2),
    f ∉ [importNameClosing, importNameOpening] ∧
      ∀ entry ∈ heads, entry.1 = f → entry.2 ∉ [' ', '\t', '"'] := by
  decide +kernel

theorem step_enters_around (stands : field.Stands frame) (known : Known grammar (frame :: outer))
    (plain : Plain frame.contentScopes) (earlier : frame.pos ≠ j + 6)
    (edged : Edged l.text j (j + 6)) (skipped : isSkipped 0 w = true) (inLine : '\n' ∉ w)
    (head : w.head? ≠ some '(') (there : l.text.drop j = "import".toList ++ (w ++ '"' :: tail)) :
    ∃ frame', step (searchIn l.text) grammar l (j + 6) (frame :: outer) =
        .ok ([], .moved (j + 6) (frame' :: frame :: outer)) ∧
      frame'.site = importName ∧ frame'.pos = j + 6 ∧ Plain frame'.contentScopes := by
  have behind : l.text.drop (j + 6) = w ++ '"' :: tail := Regex.drop_behind there
  have letter : l.text[j + 5]? = some 't' := by
    rw [← List.getElem?_drop, there]
    rfl
  obtain ⟨d, here, opens⟩ : ∃ d, l.text[j + 6]? = some d ∧ d ∈ [' ', '\t', '"'] := by
    cases w with
    | nil => exact ⟨'"', (head_of_drop behind).1, by decide⟩
    | cons d w =>
      refine ⟨d, (head_of_drop behind).1, ?_⟩
      rcases head_of_isSkipped skipped (c := d) rfl with blank | rfl
      · simp only [blankChars, List.mem_cons, List.not_mem_nil, or_false] at blank ⊢
        exact blank.imp id .inl
      · exact absurd rfl head
  have inside := (List.getElem?_eq_some_iff.1 here).1
  obtain ⟨first, c, last, split, outlined, patterns⟩ := stands.split outer
    (show field.outlines = field.front.take 3 ++ (some importName, importNameOpening) :: _ from rfl)
  obtain ⟨region, children, names, found, -, chosen, answered, start⟩ := region_first known split
    outlined tree_importNameOpening (Nat.le_refl _) (Nat.le_of_lt inside)
    (ways_importNameOpening_ne_nil edged (repeats_of_isSkipped skipped inLine) there)
    (fun o offered tree read i ge lt => by omega) (by
      intro o member tree read
      have offered : o ∈ offers grammar.rules (context grammar (frame :: outer)) := by
        simp [split, member]
      have listed : o.pattern ∈ first.map (·.pattern) := List.mem_map_of_mem member
      rw [patterns] at listed
      obtain ⟨other, apart⟩ := front_apart _ listed
      exact silent_of_head (stands.patterns_offered offered) read letter (by decide) here
        (fun among => apart _ among rfl opens) fun _ => other)
  obtain ⟨-, v, way, stop⟩ := found_way tree_importNameOpening (Nat.le_of_lt inside) answered
  have still : found.whole.stop = j + 6 := by
    rw [← stop, (mem_ways_importNameOpening way).1, start]
  have stepped := step_enters (l := l) chosen (by simp [Choice.stalls, earlier])
  rw [still, Nat.max_self] at stepped
  rw [tokens_of_still (offers_groupsRead known) (Nat.le_of_lt inside) stepped] at stepped
  have stands' : around.Stands ((context grammar (frame :: outer)).enter l (j + 6) importName region
    children names) := stands_of_known (step_known known stepped _ (by simp)) rfl
  exact ⟨_, stepped, rfl, rfl, plain_enter stands' plain⟩

theorem step_leaves_around {e : Nat} (stands : around.Stands frame)
    (known : Known grammar (frame :: outer)) (quote : l.text[e]? = some '"')
    (earlier : frame.pos ≠ e + 1) :
    step (searchIn l.text) grammar l (e + 1) (frame :: outer) = .ok ([], .moved (e + 1) outer) := by
  have inside := (List.getElem?_eq_some_iff.1 quote).1
  obtain ⟨tokens, stepped⟩ := step_leaves_importName known stands.closing quote earlier
  rwa [tokens_of_still (offers_groupsRead known) inside stepped] at stepped

theorem quote_before {text s rest : List Char} (is : IsString s) (there : text.drop p = s ++ rest) :
    ∃ i, p < i ∧ i + 1 = p + s.length ∧ text[i]? = some '"' := by
  obtain ⟨body, -, rfl⟩ := is
  have quoted : text.drop p = ('"' :: body) ++ '"' :: rest := by simpa using there
  refine ⟨p + ('"' :: body).length, ?_, ?_, (head_of_drop (Regex.drop_behind quoted)).1⟩
  · simp
  · simp [Nat.add_assoc]

def firstPlace (w : List Char) : ImportPlace := if w.head? = some '(' then .field else .around

theorem carries_first {s : List Char} (stands : field.Stands frame)
    (known : Known grammar (frame :: outer)) (plain : Plain frame.contentScopes)
    (earlier : frame.pos ≠ j + 6) (edged : Edged l.text j (j + 6)) (inLine : '\n' ∉ l.content)
    (skipped : isSkipped 0 w = true) (string : IsString s)
    (there : l.content.drop j = "import".toList ++ (w ++ (s ++ tail))) :
    ∃ steps gap tokens, Carries (searchIn l.text) grammar l steps (j + 6) (frame :: outer)
        (gap ++ tokens) (j + 6 + w.length + s.length) (frame :: outer) ∧
      steps ≤ w.length + s.length + 2 ∧
      (∀ t ∈ gap, t.Between l (j + 6) (j + 6 + w.length) ∧ Plain t.scopes) ∧
      ∀ t ∈ tokens, t.Between l (j + 6 + w.length) (j + 6 + w.length + s.length) ∧
        (firstPlace w).Named t.scopes := by
  have behind : l.content.drop (j + 6) = w ++ (s ++ tail) := Regex.drop_behind there
  obtain ⟨-, text⟩ := drop_text there (by simp)
  have letter : l.text[j + 5]? = some 't' := by
    rw [← List.getElem?_drop, text]
    rfl
  by_cases head : w.head? = some '('
  · rw [firstPlace, if_pos head]
    obtain ⟨steps, gap, tokens, carries, few, tagged⟩ := carries_separated stands known plain letter
      (by decide) (fun _ => ⟨rfl, head⟩) inLine skipped string behind
    exact ⟨steps, gap, tokens, carries, by omega, tagged⟩
  · rw [firstPlace, if_neg head]
    have behind' : l.text.drop (j + 6) = w ++ (s ++ (tail ++ ['\n'])) := by
      have rest := Regex.drop_behind text
      simpa using rest
    obtain ⟨i, inside, last, quote⟩ := quote_before string (Regex.drop_behind behind')
    have free : '\n' ∉ w := fun member =>
      inLine (List.mem_of_mem_drop (i := j + 6) (behind ▸ List.mem_append_left _ member))
    obtain ⟨rest, quoted⟩ : ∃ rest, l.text.drop j = "import".toList ++ (w ++ '"' :: rest) := by
      obtain ⟨body, -, rfl⟩ := string
      exact ⟨body ++ '"' :: (tail ++ ['\n']), by simpa using text⟩
    obtain ⟨inner, entered, site, pos, plain'⟩ :=
      step_enters_around stands known plain earlier edged skipped free head quoted
    have known' := step_known known entered
    have stands' : around.Stands inner := stands_of_known (known' inner (by simp)) site
    obtain ⟨steps, gap, tokens, carries, few, tagged⟩ := carries_separated stands' known' plain' letter
      (by decide) (fun same => absurd same (by decide)) inLine skipped string behind
    have left := step_leaves_around stands' known' quote (by omega)
    rw [last] at left
    refine ⟨1 + (steps + 1), gap, tokens, ?_, by omega, tagged⟩
    simpa using (carries_step entered).trans (carries.trans (carries_step left))

theorem step_leaves_field (stands : field.Stands frame) (known : Known grammar (frame :: outer))
    (here : l.text[p]? = some ')') :
    ∃ tokens, step (searchIn l.text) grammar l p (frame :: outer) =
        .ok (tokens, .moved (p + 1) outer) ∧ ∀ t ∈ tokens, t.Between l p (p + 1) := by
  have inside := (List.getElem?_eq_some_iff.1 here).1
  obtain ⟨rest, split⟩ : ∃ rest, offers grammar.rules (context grammar (frame :: outer)) =
      [] ++ Offer.mk .close rightParenthesis :: rest :=
    ⟨_, by simp only [offers, context, stands.closing, Option.toList_some]; rfl⟩
  obtain ⟨found, chosen, answered, start⟩ := choose_first (choose_answers known l.text p) split
    tree_rightParenthesis (Nat.le_refl p) (Nat.le_of_lt inside) (by simp [ways_single, here])
    (fun o offered tree read i ge lt => by omega) (by simp)
  have stop := (found_single tree_rightParenthesis (Nat.le_of_lt inside) answered).2
  have stepped := step_leaves (l := l) chosen (not_stalls (by omega))
  rw [show max p found.whole.stop = p + 1 by omega] at stepped
  exact ⟨_, stepped, step_between (offers_groupsRead known) (Nat.le_of_lt inside) stepped⟩

theorem root_plain : Plain (context grammar []).scopes := by
  have all : ∀ name ∈ nameScopes, ∀ scope ∈ (context grammar []).scopes,
    lacksName name scope = true := by decide
  exact all

theorem step_opens_import {rest : List Char} (opens : OpensField l.text 0 [] .imports rest) :
    ∃ tokens frame, step (searchIn l.text) grammar l 0 [] = .ok (tokens, .moved 7 [frame]) ∧
      field.Stands frame ∧ Known grammar [frame] ∧ Plain frame.contentScopes ∧ frame.pos = 0 ∧
      ∀ t ∈ tokens, t.Between l 0 7 := by
  obtain ⟨region, children, tag, -, opened⟩ := step_opens_field (r := "moduleFieldImport") known_nil
    .outside (by decide) opens
  have stepped := opened _ rfl
  have known := step_known known_nil stepped
  have stands : field.Stands _ := stands_of_known (known _ (List.mem_singleton_self _)) rfl
  exact ⟨_, _, stepped, stands, known, plain_enter stands root_plain, rfl,
    step_between (offers_groupsRead known_nil) (Nat.zero_le _) stepped⟩

end Import

end ImportPlace

open ImportPlace

/-- A line that is an import: two strings with separators before them. -/
structure ImportLine (content w s w' s' : List Char) : Prop where
  text : content = "(import".toList ++ (w ++ (s ++ (w' ++ (s' ++ [')']))))
  first : isSkipped 0 w = true ∧ IsString s
  second : isSkipped 0 w' = true ∧ IsString s'
  inLine : '\n' ∉ w ∧ '\n' ∉ w'

section Lines

variable {l : Line} {content w s w' s' : List Char}

def importParts (w s w' s' : List Char) : List Stretch :=
  [⟨"(import".toList, fun _ => True⟩, ⟨w, Plain⟩, ⟨s, (firstPlace w).Named⟩, ⟨w', Plain⟩,
    ⟨s', ImportPlace.field.Named⟩, ⟨[')'], fun _ => True⟩]

namespace ImportLine

theorem feed (is : ImportLine content w s w' s') : '\n' ∉ content := by
  rw [is.text]
  simp [is.inLine.1, is.inLine.2, is.first.2.inLine, is.second.2.inLine]

theorem opens (is : ImportLine l.content w s w' s') :
    OpensField l.text 0 [] .imports (w ++ (s ++ (w' ++ (s' ++ [')', '\n'])))) := by
  refine ⟨?_, by simp, fun c head => ?_⟩
  · simp [Line.text, is.text, Keyword.text]
  · obtain ⟨body, -, rfl⟩ := is.first.2
    cases w with
    | nil =>
      obtain rfl : '"' = c := Option.some.inj head
      decide
    | cons d w =>
      rcases head_of_isSkipped is.first.1 (c := c) head with blank | rfl
      · exact (not_isIdChar_of_blank blank).1
      · decide

theorem carries (is : ImportLine l.content w s w' s') :
    ∃ steps tokens, Carries (searchIn l.text) grammar l steps 0 [] tokens l.content.length [] ∧
      steps ≤ l.content.length + 3 ∧ Covers l 0 (importParts w s w' s') tokens := by
  have inLine := is.feed
  have size : l.content.length = 7 + w.length + s.length + w'.length + s'.length + 1 := by
    rw [is.text]
    simp
    omega
  have length := length_text l
  obtain ⟨keyword, frame, opened, stands, known, plain, pos, between⟩ := step_opens_import is.opens
  have there : l.content.drop 1 = "import".toList ++ (w ++ (s ++ (w' ++ (s' ++ [')'])))) := by
    rw [is.text]
    rfl
  obtain ⟨steps, gap, name, carries, few, tagged, named⟩ := carries_first stands known plain
    (by omega) is.opens.opensClause.whole inLine is.first.1 is.first.2 there
  have behind : l.text.drop 7 = w ++ (s ++ (w' ++ (s' ++ [')', '\n']))) := by
    have text := (drop_text there (by simp)).2
    simpa using Regex.drop_behind text
  obtain ⟨i, -, last, quote⟩ := quote_before is.first.2 (Regex.drop_behind behind)
  have close : l.text[7 + w.length + s.length + w'.length + s'.length]? = some ')' :=
    (head_of_drop (Regex.drop_behind (Regex.drop_behind (Regex.drop_behind
      (Regex.drop_behind behind))))).1
  have there' : l.content.drop (i + 1) = w' ++ (s' ++ [')']) := by
    rw [last]
    exact Regex.drop_behind (Regex.drop_behind (Regex.drop_behind there))
  obtain ⟨steps', gap', name', carries', few', tagged', named'⟩ := carries_separated stands known plain
    quote (by decide) (fun same => absurd same (by decide)) inLine is.second.1 is.second.2 there'
  rw [last] at carries' tagged' named'
  obtain ⟨parenthesis, left, between'⟩ := step_leaves_field stands known close
  rw [← size] at left
  refine ⟨1 + (steps + (steps' + 1)), keyword ++ (gap ++ name ++ (gap' ++ name' ++ parenthesis)),
    (carries_step opened).trans (carries.trans (carries'.trans (carries_step left))), by omega, ?_⟩
  have covers : Covers l 0 (importParts w s w' s')
      (keyword ++ (gap ++ (name ++ (gap' ++ (name' ++ (parenthesis ++ [])))))) := by
    refine .cons ?_ (fun t member => ⟨between t member, trivial⟩) (.cons ?_ tagged (.cons ?_ named
      (.cons ?_ tagged' (.cons ?_ named' (.cons ?_ (fun t member => ⟨between' t member, trivial⟩)
      .nil)))))
    all_goals simp; omega
  simpa using covers

theorem scanned (is : ImportLine content w s w' s') (short : byteSize content < lineBound) :
    ∃ tokens, scanPlain searchIn grammar 0 [content] [] = .ok ⟨tokens, [], []⟩ ∧
      Covers ⟨0, content⟩ 0 (importParts w s w' s') tokens := by
  let l : Line := ⟨0, content⟩
  obtain ⟨steps, tokens, carries, few, covers⟩ := ImportLine.carries (l := l) is
  have length : content.length < lineBound := Nat.lt_of_le_of_lt (length_le_byteSize content) short
  have enough : steps < mostSteps := by
    have bound : lineBound + 3 ≤ mostSteps := by decide
    have same : l.content.length = content.length := rfl
    omega
  have line := carries.finish (nothing_at_end known_nil .outside) enough
  rw [clipped_self, List.append_nil] at line
  refine ⟨tokens, ?_, covers⟩
  have later : scanPlain searchIn grammar 1 [] [] = .ok ⟨[], [], []⟩ := rfl
  have all := scanPlain_cons line rfl later
  rwa [List.append_nil] at all

theorem text_parts (is : ImportLine l.content w s w' s') :
    l.text = ((importParts w s w' s').map (·.text)).flatten ++ ['\n'] := by
  simp [Line.text, is.text, importParts]

end ImportLine

theorem has_scope {n : ImportPlace} {t : Token} (named : n.Named t.scopes) :
    t.hasScope n.scope = true ∧ t.hasScope n.other = false := by
  refine ⟨hasScope_of_mem ?_ named.1, hasScope_eq_false named.2⟩
  cases n <;> decide

theorem has_neither {t : Token} (plain : Plain t.scopes) :
    t.hasScope moduleScope = false ∧ t.hasScope aliasScope = false :=
  ⟨hasScope_eq_false (plain _ (by decide)), hasScope_eq_false (plain _ (by decide))⟩

/-- A line of an import with any two strings for names, and any blanks and block comments before each,
is scanned to its end and closed, unless a search in it is given up. What is in the second name has
the scope of an alias alone, and what is in the separators has that of neither name. What is in the
first name has the scope of a module alone, unless a block comment follows the keyword at once: then
it has that of an alias alone. -/
theorem import_names (source : String) (w s w' s' : List Char)
    (is : ImportLine source.toList w s w' s') (short : byteSize source.toList < lineBound) :
    ∃ r result, repository = .ok r ∧
      (∀ engine, UnlessGivenUp engine r [source.toList] (scanBy engine r source) (.ok result)) ∧
      result.isClosed = true ∧
      ∀ t ∈ result.tokens,
        (t.Inside "(import".toList w ∨ t.Inside ("(import".toList ++ w ++ s) w' →
          t.hasScope moduleScope = false ∧ t.hasScope aliasScope = false) ∧
        (t.Inside ("(import".toList ++ w) s →
          if w.head? = some '(' then t.hasScope moduleScope = false ∧ t.hasScope aliasScope = true
          else t.hasScope moduleScope = true ∧ t.hasScope aliasScope = false) ∧
        (t.Inside ("(import".toList ++ w ++ s ++ w') s' →
          t.hasScope moduleScope = false ∧ t.hasScope aliasScope = true) := by
  obtain ⟨tokens, scanned, covers⟩ := is.scanned short
  have one : Text.lines source.toList = [source.toList] := by
    rw [Text.lines_of_not_mem is.feed, if_neg]
    simp [is.text]
  refine ⟨grammar, ⟨tokens, [], []⟩, repository_eq, ?_, rfl, fun t member => ?_⟩
  · have plain : scanPlain searchIn grammar 0 (Text.lines source.toList) [] =
        .ok ⟨tokens, [], []⟩ := by rw [one]; exact scanned
    have all := scanBy_of_scanPlain plain
    rwa [one] at all
  · have scopes {i : Nat} {part : Stretch} (among : (importParts w s w' s')[i]? = some part)
        (inside : t.Inside (((importParts w s w' s').take i).map (·.text)).flatten part.text) :
        part.scopes t.scopes :=
      covers.scopes (ImportLine.text_parts (l := ⟨0, source.toList⟩) is) i among member inside
    refine ⟨fun inside => has_neither ?_, fun inside => ?_, fun inside => ?_⟩
    · rcases inside with first | second
      · exact scopes (i := 1) rfl (by simpa [importParts] using first)
      · exact scopes (i := 3) rfl (by simpa [importParts] using second)
    · have named := has_scope (scopes (i := 2) rfl (by simpa [importParts] using inside))
      by_cases head : w.head? = some '('
      · rw [firstPlace, if_pos head] at named
        rw [if_pos head]
        exact named.symm
      · rw [firstPlace, if_neg head] at named
        rw [if_neg head]
        exact named
    · exact (has_scope (scopes (i := 4) rfl (by simpa [importParts] using inside))).symm

theorem exists_scan (source : String) (check : Result → Bool)
    (evaluated : (scanPlain (searchBy .standard) grammar 0
      (Text.lines source.toList) []).toOption.any check = true) :
    ∃ result, scan grammar source = .ok result ∧ check result = true := by
  rw [← scanBy_eq_scanPlain] at evaluated
  obtain ⟨result, held, checked⟩ := (Option.any_eq_true _ _).1 evaluated
  exact ⟨result, toOption_eq_some.1 held, checked⟩

def quotedImport : String := "(import (;\";)\"m)\\\"\" \"n\")"

theorem import_names_quoted :
    ∃ w s w' s' : List Char, ImportLine quotedImport.toList w s w' s' ∧
      byteSize quotedImport.toList < lineBound ∧
      ∃ result, scan grammar quotedImport = .ok result ∧ result.isClosed = true ∧
        ∃ t ∈ result.tokens, t.text = "m)" ∧ t.Inside ("(import".toList ++ w) s ∧
          t.hasScope moduleScope = true ∧ t.hasScope aliasScope = false := by
  let w : List Char := [' ', '(', ';', '"', ';', ')']
  let s : List Char := ['"', 'm', ')', '\\', '"', '"']
  have first : IsString s := by
    refine ⟨['m', ')', '\\', '"'], ?_, rfl⟩
    exact .plain (by decide) (.plain (by decide) (.escape (.letter (by decide)) .nil))
  have second : IsString ['"', 'n', '"'] := ⟨['n'], .plain (by decide) .nil, rfl⟩
  have is : ImportLine quotedImport.toList w s [' '] ['"', 'n', '"'] :=
    ⟨by decide, ⟨by decide, first⟩, ⟨by decide, second⟩, by decide⟩
  have short : byteSize quotedImport.toList < lineBound := by decide
  obtain ⟨r, result, built, scanned, closed, tagged⟩ := import_names _ _ _ _ _ is short
  cases repository_eq.symm.trans built
  obtain ⟨same, scanned', some⟩ := exists_scan quotedImport
    (·.tokens.any fun t => t.text = "m)" && t.Inside ("(import".toList ++ w) s) (by decide +kernel)
  cases (scanned .standard).ok scanned'
  obtain ⟨t, member, there⟩ := List.any_eq_true.1 some
  simp only [Bool.and_eq_true, decide_eq_true_eq] at there
  exact ⟨w, s, _, _, is, short, result, scanned', closed, t, member, there.1, there.2,
    (tagged t member).2.1 there.2⟩

def commentedImport : String := "(import(;c;)\"m\" \"n\")"

/-- Behind the comment the name of the module is taken for the other name. -/
theorem import_name_after_comment :
    ∃ w s w' s' : List Char, ImportLine commentedImport.toList w s w' s' ∧
      byteSize commentedImport.toList < lineBound ∧
      ∃ result, scan grammar commentedImport = .ok result ∧
        ∃ t ∈ result.tokens, t.text = "m" ∧ t.Inside ("(import".toList ++ w) s ∧
          t.hasScope moduleScope = false := by
  let w : List Char := ['(', ';', 'c', ';', ')']
  let s : List Char := ['"', 'm', '"']
  have string (c : Char) (plain : c ∉ stringSpecials) : IsString ['"', c, '"'] :=
    ⟨[c], .plain plain .nil, rfl⟩
  have is : ImportLine commentedImport.toList w s [' '] ['"', 'n', '"'] :=
    ⟨by decide, ⟨by decide, string 'm' (by decide)⟩, ⟨by decide, string 'n' (by decide)⟩, by decide⟩
  obtain ⟨result, scanned, some⟩ := exists_scan commentedImport
    (·.tokens.any fun t => t.text = "m" && t.Inside ("(import".toList ++ w) s &&
      !t.hasScope moduleScope) (by decide +kernel)
  obtain ⟨t, member, there⟩ := List.any_eq_true.1 some
  simp only [Bool.and_eq_true, decide_eq_true_eq, Bool.not_eq_true'] at there
  exact ⟨w, s, _, _, is, by decide, result, scanned, t, member, there.1.1, there.1.2, there.2⟩

end Lines

end ScopeGrammar.WebAssembly
