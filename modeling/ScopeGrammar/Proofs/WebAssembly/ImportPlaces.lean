import ScopeGrammar.Proofs.WebAssembly.LineComments
import ScopeGrammar.Proofs.WebAssembly.LiteralTokens
import ScopeGrammar.Proofs.WebAssembly.Separators

set_option autoImplicit false

namespace ScopeGrammar.WebAssembly

open Scan Fragment
open Regex (Found Node Span)

def moduleScope : String := "entity.name.type.module.wasm"

def aliasScope : String := "variable.other.readwrite.alias.wasm"

def nameScopes : List String := [moduleScope, aliasScope]

/-- A place for a name: in the field of the import, or in the region around the name of the module. -/
inductive ImportPlace where
  | field
  | around
  deriving DecidableEq

namespace ImportPlace

def all : List ImportPlace := [field, around]

theorem mem_all (n : ImportPlace) : n ∈ all := by cases n <;> decide

def site : ImportPlace → Site
  | .field => .top (.rule "moduleFieldImport")
  | .around => importName

def closing : ImportPlace → Fragment
  | .field => rightParenthesis
  | .around => importNameClosing

def next : ImportPlace → List (Option Site × Fragment)
  | .field => [(some importName, importNameOpening)]
  | .around => []

def literal : ImportPlace → Site
  | .field => .top (.rule "exportName")
  | .around => importName.child 1

def last : ImportPlace → List (Option Site × Fragment)
  | .field => [(Ask.area .form).outline]
  | .around => []

def scope : ImportPlace → String
  | .field => aliasScope
  | .around => moduleScope

def other : ImportPlace → String
  | .field => moduleScope
  | .around => aliasScope

def front (n : ImportPlace) : List (Option Site × Fragment) :=
  (Ask.area .lineComment).outline :: (Ask.area .blockComment).outline ::
    (Ask.area .annotated).outline :: n.next

def outlines (n : ImportPlace) : List (Option Site × Fragment) :=
  n.front ++ (some n.literal, quote) :: n.last

/-- Whether the leaf, if it is the region of the place or of a name there, is as described. -/
def isDescribed (n : ImportPlace) : Leaf → Bool
  | .single _ => true
  | .region site region children =>
    (site ≠ n.site || (region.closing = n.closing &&
      (candidates table site children).map (outline ·.leaf) = n.outlines &&
      (Leaf.region site region children).tags.all fun tag => nameScopes.all (lacksName · tag))) &&
    (site ≠ n.literal || (region.scope = some n.scope &&
      (Leaf.region site region children).tags.all (lacksName n.other)))

theorem leaves_described : (all.all fun n => (leaves grammar).all n.isDescribed) = true := by
  decide +kernel

/-- What is known of the region of a place. -/
structure Stands (n : ImportPlace) (frame : Frame) : Prop where
  closing : frame.region.closing = n.closing
  outlines : (candidates table frame.site frame.children).map (outline ·.leaf) = n.outlines
  plain : ∀ name ∈ nameScopes, Unmarked name frame.leaf.tags

theorem stands_of_known {n : ImportPlace} {frame : Frame} (known : frame.leaf ∈ leaves grammar)
    (site : frame.site = n.site) : n.Stands frame := by
  have described := List.all_eq_true.1 (List.all_eq_true.1 leaves_described n n.mem_all) _ known
  simp only [Frame.leaf, isDescribed, site, ne_eq, not_true_eq_false, decide_false, Bool.false_or,
    Bool.and_eq_true, decide_eq_true_eq, List.all_eq_true] at described
  obtain ⟨⟨⟨closing, outlines⟩, plain⟩, -⟩ := described
  exact ⟨closing, site ▸ outlines, fun name among tag member =>
    plain tag (by rwa [Frame.leaf, site] at member) name among⟩

theorem tags_of_literal {n : ImportPlace} {region : Region} {children : List Pattern}
    (known : .region n.literal region children ∈ leaves grammar) :
    region.scope = some n.scope ∧ Unmarked n.other (Leaf.region n.literal region children).tags := by
  have described := List.all_eq_true.1 (List.all_eq_true.1 leaves_described n n.mem_all) _ known
  simp only [isDescribed, ne_eq, not_true_eq_false, decide_false, Bool.false_or, Bool.and_eq_true,
    decide_eq_true_eq, List.all_eq_true] at described
  exact described.2

def heads : List (Fragment × Char) :=
  [(rightParenthesis, ')'), (importNameClosing, ')'), (lineCommentOpening, ';'),
    (blockCommentStart.capture, '('), (annotationOpening, '('), (quote, '"'), (leftParenthesis, '(')]

def before : ImportPlace → Char
  | .field => 't'
  | .around => '"'

def patterns (n : ImportPlace) : List Fragment := n.closing :: n.outlines.map (·.2)

section Silence

variable {n : ImportPlace} {l : Line} {i : Nat} {f : Fragment} {c : Char}

theorem sign_of_lineComment {text : List Char} {opened : Nat} {s : Regex.Saved} {w : Regex.Way}
    (member : w ∈ (Node.seq indent (.group (.group (pair ';' ';')))).ways text opened (i + 1) s)
    (here : text[i]? = some c) (inLine : c ≠ '\n') : text[i + 1]? = some ';' := by
  obtain ⟨v, first, rest⟩ := List.mem_flatMap.1 member
  rcases mem_ways_optional first with same | ⟨u, inside, -⟩
  · obtain ⟨u, inner, -⟩ := mem_ways_group rest
    exact same ▸ (mem_ways_group_pair inner).1
  · obtain ⟨x, inner, -⟩ := mem_ways_group inside
    obtain ⟨y, anchor, -⟩ := List.mem_flatMap.1 inner
    obtain ⟨lt, rfl⟩ := List.getElem?_eq_some_iff.1 here
    have front : text.take (i + 1) = text.take i ++ [text[i]] := by simp
    have holds := (Node.mem_ways_anchor.1 anchor).1
    rw [Regex.Anchor.holds, Regex.Cursor.place, front, List.reverse_append] at holds
    simp [inLine] at holds

def plainPatterns : List Fragment :=
  [rightParenthesis, lineCommentOpening, blockCommentStart.capture, annotationOpening, quote,
    leftParenthesis]

theorem patterns_listed : ∀ n ∈ all, ∀ f ∈ n.patterns,
    (f = importNameClosing ∧ n = .around) ∨ (f = importNameOpening ∧ n = .field) ∨
      f ∈ plainPatterns := by
  decide +kernel

theorem head_of_way (member : f ∈ n.patterns) {tree : Node} (read : lineTree? f = some tree)
    (before : l.text[i]? = some c) (inLine : c ≠ '\n') (inside : i + 1 ≤ l.text.length)
    {w : Regex.Way} (way : w ∈ tree.ways l.text 0 (i + 1) []) :
    (∃ d, l.text[i + 1]? = some d ∧ (f, d) ∈ heads) ∨
      c = n.before ∧ f ∈ [importNameClosing, importNameOpening] := by
  have found {d : Char} (here : l.text[i + 1]? = some d) (among : (f, d) ∈ heads) :
      (∃ d, l.text[i + 1]? = some d ∧ (f, d) ∈ heads) ∨
        c = n.before ∧ f ∈ [importNameClosing, importNameOpening] := .inl ⟨d, here, among⟩
  have behind {d : Char} (last : ∃ j, j + 1 = i + 1 ∧ l.text[j]? = some d) : c = d := by
    obtain ⟨j, same, here⟩ := last
    obtain rfl : j = i := by omega
    exact Option.some.inj (before.symm.trans here)
  rcases patterns_listed n n.mem_all f member with ⟨rfl, rfl⟩ | ⟨rfl, rfl⟩ | plain
  · cases read.symm.trans tree_importNameClosing
    rcases (mem_ways_importNameClosing way).2 with quote | close
    · exact .inr ⟨behind quote, by simp⟩
    · exact found close (by simp [heads])
  · cases read.symm.trans tree_importNameOpening
    exact .inr ⟨behind (mem_ways_importNameOpening way).2, by simp⟩
  · simp only [plainPatterns, List.mem_cons, List.not_mem_nil, or_false] at plain
    rcases plain with rfl | rfl | rfl | rfl | rfl | rfl
    · cases read.symm.trans tree_rightParenthesis
      exact found (mem_ways_single way).1 (by simp [heads])
    · cases read.symm.trans tree_lineCommentOpening
      exact found (sign_of_lineComment way before inLine) (by simp [heads])
    · cases read.symm.trans tree_blockCommentStart
      exact found (mem_ways_group_pair way).1 (by simp [heads])
    · cases read.symm.trans tree_annotationOpening
      exact found (mem_ways_annotationOpening way).1 (by simp [heads])
    · cases read.symm.trans tree_quote
      exact found (mem_ways_single way).1 (by simp [heads])
    · cases read.symm.trans tree_leftParenthesis
      exact found (mem_ways_single way).1 (by simp [heads])

theorem silent_of_head {d : Char} (member : f ∈ n.patterns) {tree : Node}
    (read : lineTree? f = some tree) (before : l.text[i]? = some c) (inLine : c ≠ '\n')
    (here : l.text[i + 1]? = some d) (other : (f, d) ∉ heads)
    (free : c = n.before → f ∉ [importNameClosing, importNameOpening]) :
    tree.ways l.text 0 (i + 1) [] = [] := by
  have inside := Nat.le_of_lt (List.getElem?_eq_some_iff.1 here).1
  refine List.eq_nil_iff_forall_not_mem.2 fun w way => ?_
  rcases head_of_way member read before inLine inside way with ⟨d', here', among⟩ | ⟨same, among⟩
  · exact other (Option.some.inj (here.symm.trans here') ▸ among)
  · exact free same among

end Silence

section Steps

variable {n : ImportPlace} {l : Line} {frame : Frame} {outer : List Frame} {i p : Nat} {c : Char}

theorem Stands.patterns_offered (stands : n.Stands frame) {o : Offer}
    (offered : o ∈ offers grammar.rules (context grammar (frame :: outer))) :
    o.pattern ∈ n.patterns := by
  have among := List.mem_map_of_mem (f := (·.pattern)) offered
  rw [WebAssembly.patterns_offered] at among
  simpa [context, stands.closing, stands.outlines, patterns] using among

theorem Stands.split (stands : n.Stands frame) (outer : List Frame) {front back : List (Option Site × Fragment)}
    {x : Option Site × Fragment} (same : n.outlines = front ++ x :: back) :
    ∃ first c last, offers grammar.rules (context grammar (frame :: outer)) =
        first ++ Offer.mk (.apply c) c.leaf.pattern :: last ∧
      outline c.leaf = x ∧ first.map (·.pattern) = n.closing :: front.map (·.2) := by
  obtain ⟨first, c, last, all, outlined, patterns⟩ :=
    offers_outlined (context grammar (frame :: outer)) (stands.outlines.trans same)
  exact ⟨first, c, last, all, outlined, by simpa [context, stands.closing] using patterns⟩

theorem heads_not_blank : ∀ entry ∈ heads, entry.2 ∉ blankChars := by decide +kernel

theorem loose_free : ∀ n ∈ all, n.before ∉ [' ', '\t', ')'] := by decide

theorem Stands.rests (stands : n.Stands frame) (known : Known grammar (frame :: outer))
    (before : l.text[i]? = some c) (inLine : c ≠ '\n')
    (free : c = n.before → n = .field ∧ l.text[i + 1]? = some '(') :
    Rests l (frame :: outer) (i + 1) := by
  have behind {k : Nat} (loose : Loose l (i + 1) k) :
      ∃ j d, j + 1 = k ∧ l.text[j]? = some d ∧ d ≠ '\n' ∧
        (d = n.before → n = .field ∧ l.text[k]? = some '(') := by
    rcases loose with rfl | ⟨j, d, same, here, blank⟩
    · exact ⟨i, c, rfl, before, inLine, free⟩
    · refine ⟨j, d, same, here, ?_, fun is => ?_⟩
      · rintro rfl
        exact absurd blank (by decide)
      · exact absurd (is ▸ blank) (loose_free n n.mem_all)
  refine ⟨known, fun k b loose here blank o offered tree read => ?_, fun k loose here next => ?_⟩
  · obtain ⟨j, d, rfl, before, inLine, free⟩ := behind loose
    refine silent_of_head (stands.patterns_offered offered) read before inLine here
      (fun among => heads_not_blank _ among blank) fun same => ?_
    obtain ⟨-, other⟩ := free same
    obtain rfl := Option.some.inj (here.symm.trans other)
    exact absurd blank (by decide)
  · obtain ⟨j, d, rfl, before, inLine, free⟩ := behind loose
    obtain ⟨first, c, last, all, outlined, patterns⟩ := stands.split outer
      (show n.outlines = [(Ask.area .lineComment).outline] ++ _ :: _ from rfl)
    refine ⟨first, c, last, all, outlined, fun o member tree read => ?_⟩
    have among : o.pattern ∈ [n.closing, lineCommentOpening] :=
      patterns ▸ List.mem_map_of_mem (f := (·.pattern)) member
    have offered : o ∈ offers grammar.rules (context grammar (frame :: outer)) := by simp [all, member]
    refine silent_of_head (stands.patterns_offered offered) read before inLine here ?_ fun same => ?_
    · have none : ∀ n ∈ ImportPlace.all, ∀ f ∈ [n.closing, lineCommentOpening], (f, '(') ∉ heads := by
        decide +kernel
      exact none n n.mem_all _ among
    · obtain ⟨rfl, -⟩ := free same
      have none : ∀ f ∈ [field.closing, lineCommentOpening],
        f ∉ [importNameClosing, importNameOpening] := by decide +kernel
      exact none _ among

def Named (n : ImportPlace) (scopes : List String) : Prop :=
  n.scope ∈ scopes ∧ Unmarked n.other scopes

theorem Named.append {scopes tags : List String} (named : n.Named scopes)
    (unmarked : Unmarked n.other tags) : n.Named (scopes ++ tags) :=
  ⟨List.mem_append_left _ named.1, unmarked_append named.2 unmarked⟩

theorem front_not_quote :
    ∀ n ∈ all, ∀ f ∈ n.closing :: n.front.map (·.2), (f, '"') ∉ heads := by decide +kernel

theorem step_opens_name (stands : n.Stands frame) (known : Known grammar (frame :: outer))
    (plain : Unmarked n.other frame.contentScopes) (before : l.text[i]? = some c)
    (inLine : c ≠ '\n') (free : c ≠ n.before) (here : l.text[i + 1]? = some '"') (ge : p ≤ i + 1)
    (idle : ∀ k, p ≤ k → k < i + 1 → Idles l (frame :: outer) k) :
    ∃ tokens literal, step (searchIn l.text) grammar l p (frame :: outer) =
        .ok (l.clipped p (i + 1) frame.contentScopes frame.rules ++ tokens,
          .moved (i + 2) (literal :: frame :: outer)) ∧
      literal.site = n.literal ∧ n.Named literal.scopes ∧ n.Named literal.contentScopes ∧
      ∀ t ∈ tokens, t.Between l (i + 1) (i + 2) ∧ n.Named t.scopes := by
  have inside := (List.getElem?_eq_some_iff.1 here).1
  obtain ⟨first, c, last, split, outlined, patterns⟩ := stands.split outer
    (show n.outlines = n.front ++ (some n.literal, quote) :: _ from rfl)
  obtain ⟨region, children, names, found, member, chosen, answered, start⟩ := region_first known split
    outlined tree_quote ge (Nat.le_of_lt inside) (by simp [ways_single, here])
    (fun o offered tree read k ge lt => idle k ge lt o offered tree read) (by
      intro o member tree read
      have offered : o ∈ offers grammar.rules (context grammar (frame :: outer)) := by
        simp [split, member]
      refine silent_of_head (stands.patterns_offered offered) read before inLine here ?_
        fun same => absurd same free
      exact front_not_quote n n.mem_all _ (patterns ▸ List.mem_map_of_mem (f := (·.pattern)) member))
  have stop := (found_single tree_quote (by omega) answered).2
  rw [start] at stop
  obtain ⟨scope, unmarked⟩ := tags_of_literal member
  have tags {tags : List String} (listed : ∀ tag ∈ tags, tag ∈
      (Leaf.region n.literal region children).tags) : Unmarked n.other tags :=
    fun tag among => unmarked tag (listed tag among)
  have named : n.Named (within (context grammar (frame :: outer)).scopes region.scope) := by
    refine ⟨by simp [within, scope], unmarked_append plain (tags fun tag among => ?_)⟩
    simp [Leaf.tags, Option.mem_toList.1 among]
  have stepped := step_enters (l := l) chosen (not_stalls (by omega))
  rw [start, show max p found.whole.stop = i + 2 by omega] at stepped
  refine ⟨_, _, stepped, rfl, named, named.append (tags fun tag among => ?_), fun t there => ⟨?_, ?_⟩⟩
  · simp [Leaf.tags, Option.mem_toList.1 among]
  · have between := matched_between (offers_groupsRead known) (by omega) chosen there
    rwa [start, stop] at between
  · rcases captured_scopes there with same | ⟨tag, among, same⟩
    · exact same ▸ named
    · refine same ▸ named.append (tags fun other listed => ?_)
      obtain rfl := List.mem_singleton.1 listed
      simp only [Leaf.tags, List.mem_append]
      exact .inl (.inr among)

theorem literals_listed : ∀ n ∈ all, n.literal ∈ literalSites := by decide

theorem tags_unmarked : ∀ n ∈ all, ∀ tag ∈ [escapeScope, closingScope], lacksName n.other tag = true := by
  decide

theorem carries_name {literal : Frame} {q : Nat} {body tail : List Char}
    (known : Known grammar (literal :: outer)) (site : literal.site = n.literal)
    (named : n.Named literal.scopes) (named' : n.Named literal.contentScopes)
    (inLine : '\n' ∉ l.content) (is : StringBody body)
    (there : l.content.drop q = body ++ '"' :: tail) :
    ∃ steps tokens, Carries (searchIn l.text) grammar l steps q (literal :: outer) tokens
        (q + body.length + 1) outer ∧
      steps ≤ body.length + 1 ∧
      ∀ t ∈ tokens, t.Between l q (q + body.length + 1) ∧ n.Named t.scopes := by
  obtain ⟨escapes, reads, few⟩ := skims_of_body is there
  have listed : literal.site ∈ literalSites := site ▸ literals_listed n n.mem_all
  have read (room : Nat) : ReadsLiteral .patient l literal outer q escapes (some (q + body.length))
      (q + body.length) room :=
    readsLiteral_of_skims (literal_of_known (known literal (by simp)) listed) known inLine reads
      (Nat.le_refl q) (fun f _ tree _ i ge lt => by omega) room
  refine ⟨escapes.length + 1, literalTokens l literal (q + body.length) true q escapes,
    fun room => ?_, by omega, fun t member => ?_⟩
  · refine ((read (room + (escapes.length + 1))).left (by omega)).trans ?_
    rw [Nat.add_sub_cancel]
    rfl
  · obtain ⟨between, scopes, among, tags, listed, same⟩ := mem_literalTokens reads (Nat.le_refl q) member
    refine ⟨between, same ▸ Named.append ?_ fun tag inside => ?_⟩
    · simp only [List.mem_cons, List.not_mem_nil, or_false] at among
      exact among.elim (· ▸ named') (· ▸ named)
    · exact tags_unmarked n n.mem_all tag (listed inside)

theorem commentTags_plain :
    ∀ name ∈ nameScopes, ∀ tag ∈ commentTags, lacksName name tag = true := by decide

def Plain (scopes : List String) : Prop := ∀ name ∈ nameScopes, Unmarked name scopes

theorem Plain.commented {scopes more : List String} (plain : Plain scopes)
    (commented : Commented scopes more) : Plain more := by
  obtain ⟨tags, listed, rfl⟩ := commented
  exact fun name among => unmarked_append (plain name among) fun tag member =>
    commentTags_plain name among tag (listed tag member)

theorem others_listed : ∀ n ∈ all, n.other ∈ nameScopes := by decide

theorem carries_separated (stands : n.Stands frame) (known : Known grammar (frame :: outer))
    (plain : Plain frame.contentScopes) (before : l.text[i]? = some c) (feed : c ≠ '\n')
    {w s tail : List Char} (free : c = n.before → n = .field ∧ w.head? = some '(')
    (inLine : '\n' ∉ l.content) (skipped : isSkipped 0 w = true) (string : IsString s)
    (there : l.content.drop (i + 1) = w ++ (s ++ tail)) :
    ∃ steps gap tokens, Carries (searchIn l.text) grammar l steps (i + 1) (frame :: outer)
        (gap ++ tokens) (i + 1 + w.length + s.length) (frame :: outer) ∧
      steps ≤ w.length + s.length ∧
      (∀ t ∈ gap, t.Between l (i + 1) (i + 1 + w.length) ∧ Plain t.scopes) ∧
      ∀ t ∈ tokens, t.Between l (i + 1 + w.length) (i + 1 + w.length + s.length) ∧
        n.Named t.scopes := by
  obtain ⟨body, is, rfl⟩ := string
  have split : l.content.drop (i + 1) = (w ++ ('"' :: body ++ ['"'])) ++ tail := by simpa using there
  obtain ⟨within, behind⟩ := drop_text split (by simp)
  have behind' : l.text.drop (i + 1) = w ++ ('"' :: body ++ ['"'] ++ (tail ++ ['\n'])) := by
    simpa using behind
  have rests : Rests l (frame :: outer) (i + 1) := by
    refine stands.rests known before feed fun same => ?_
    obtain ⟨field, head⟩ := free same
    refine ⟨field, ?_⟩
    rw [← List.head?_drop, behind', List.head?_append, head]
    rfl
  obtain ⟨⟨p, ge, le, ⟨steps, made, carries, few, tokens⟩, idle⟩, loose⟩ :=
    behind_separators rests skipped .none known (Nat.le_refl (i + 1)) behind' (fun k _ _ => by omega)
      fun _ => .inl rfl
  have quoted := Regex.drop_behind behind'
  obtain ⟨here, -⟩ := head_of_drop quoted
  obtain ⟨k, d, last, front, feed', free'⟩ : ∃ k d, k + 1 = i + 1 + w.length ∧ l.text[k]? = some d ∧
      d ≠ '\n' ∧ d ≠ n.before := by
    rcases loose with same | ⟨k, d, last, front, blank⟩
    · obtain rfl : w = [] := List.eq_nil_of_length_eq_zero (by omega)
      exact ⟨i, c, rfl, before, feed, fun same => by simpa using (free same).2⟩
    · refine ⟨k, d, last, front, ?_, ?_⟩
      · rintro rfl
        exact absurd blank (by decide)
      · rintro rfl
        exact loose_free n n.mem_all blank
  rw [← last] at le idle here
  obtain ⟨mark, literal, stepped, site, named, named', marked⟩ := step_opens_name stands known
    (plain _ (others_listed n n.mem_all)) front feed' free' here le idle
  have body' : l.content.drop (k + 2) = body ++ '"' :: tail := by
    have rest := Regex.drop_behind there
    rw [← last] at rest
    simpa using (head_of_drop (show l.content.drop (k + 1) = '"' :: (body ++ '"' :: tail) by
      simpa using rest)).2
  obtain ⟨steps', more, carries', few', inside⟩ :=
    carries_name (step_known known stepped) site named named' inLine is body'
  have length : i + 1 + w.length + ('"' :: body ++ ['"']).length = k + 2 + body.length + 1 := by
    simp
    omega
  rw [length, ← last]
  refine ⟨steps + (1 + steps'), made ++ l.clipped p (k + 1) frame.contentScopes frame.rules,
    mark ++ more, ?_, by simp; omega, fun t member => ?_, fun t member => ?_⟩
  · simpa using carries.trans ((carries_step stepped).trans carries')
  · rcases List.mem_append.1 member with first | blanks
    · exact ⟨(tokens t first).1.mono (Nat.le_refl _) le, plain.commented (tokens t first).2⟩
    · exact ⟨between_of_clipped blanks ge (Nat.le_refl _), clipped_scopes blanks ▸ plain⟩
  · rcases List.mem_append.1 member with first | rest
    · exact ⟨(marked t first).1.mono (Nat.le_refl _) (by omega), (marked t first).2⟩
    · exact ⟨(inside t rest).1.mono (by omega) (Nat.le_refl _), (inside t rest).2⟩

end Steps

end ImportPlace

end ScopeGrammar.WebAssembly
