import ScopeGrammar.Proofs.Scan.GivenUp
import ScopeGrammar.Proofs.Scan.Answered
import ScopeGrammar.Proofs.Scan.Enclosing
import ScopeGrammar.Proofs.WebAssembly.Leaves
import ScopeGrammar.Proofs.WebAssembly.Words

/-!
What is tagged as a keyword, a value type or a number is one. It is a word of its own: a run of
identifier characters between characters that are none, so that no part of a name or of a longer
word is ever tagged.
-/

set_option autoImplicit false

namespace ScopeGrammar.WebAssembly

open Scan Fragment
open Regex (Node Found piece)

/-- The scopes that words alone have: that of a clause's keyword, which is the second group where
the clause begins, and those of value types, element types and limits. -/
inductive WordScope (r : Repository) (scope : String) : Prop where
  | clause {site : Site} {region : Region} {children : List Pattern} {opened : Fragment} :
    Leaf.region site region children ∈ leaves r → region.opening = clauseOpening opened →
    region.openingCaptures.get? 2 = some scope → WordScope r scope
  | rule {name : String} {rule : MatchRule} : name ∈ ["valueType", "elemType", "limits"] →
    r.rules.get? name = some (.single rule) → rule.scope = some scope → WordScope r scope

/-- What the beginning of a clause asks for, any of some keywords. -/
def anyOf (keywords : List Keyword) : Fragment := alternative (keywords.map Keyword.letters)

/-- What the words with a scope can be: the keywords of a clause with the scope, or what the rule
with the scope is for. -/
inductive Spelled (r : Repository) (scope : String) : List Char → Prop where
  | keyword {site : Site} {region : Region} {children : List Pattern} {keywords : List Keyword}
      {k : Keyword} : Leaf.region site region children ∈ leaves r →
    region.opening = clauseOpening (anyOf keywords) → region.openingCaptures.get? 2 = some scope →
    k ∈ keywords → Spelled r scope k.text.toList
  | valueType {rule : MatchRule} {type : String} :
    r.rules.get? "valueType" = some (.single rule) → rule.scope = some scope → type ∈ valueTypes →
    Spelled r scope type.toList
  | elemType {rule : MatchRule} :
    r.rules.get? "elemType" = some (.single rule) → rule.scope = some scope →
    Spelled r scope Keyword.funcref.text.toList
  | integer {rule : MatchRule} {cs : List Char} :
    r.rules.get? "limits" = some (.single rule) → rule.scope = some scope → IsUnsigned cs →
    Spelled r scope cs

/-- A token is a run of identifier characters of its line that nothing can be added to. -/
structure IsRun (content : List Char) (t : Token) (before after : List Char) : Prop where
  parts : content = before ++ t.text.toList ++ after
  start : t.start = byteSize before
  stop : t.stop = t.start + byteSize t.text.toList
  notNil : t.text.toList ≠ []
  inside : ∀ c ∈ t.text.toList, isIdChar c = true
  ahead : ∀ c ∈ before.getLast?, isIdChar c = false
  behind : ∀ c ∈ after.head?, isIdChar c = false

section Leaves

def wordScopes : List String :=
  ["storage.modifier.wasm", "keyword.control.param.wasm", "storage.type.module.wasm",
    "storage.type.data.wasm", "storage.type.elem.wasm", "keyword.control.export.wasm",
    "storage.type.function.wasm", "storage.type.global.wasm", "keyword.control.import.wasm",
    "storage.type.memory.wasm", "keyword.control.start.wasm", "storage.type.table.wasm",
    "storage.type.type.wasm", "storage.type.wasm", "constant.numeric.integer.wasm"]

def isWord (scope : String) : Bool := wordScopes.contains scope

def clauses : List (List Keyword) :=
  [.func, .table, .memory, .global] :: [Keyword.module, .type, .func, .param, .result, .imports,
    .exports, .table, .memory, .global, .mutable, .start, .elem, .data].map fun k => [k]

def isClause (region : Region) : Bool :=
  clauses.any fun keywords => region.opening = clauseOpening (anyOf keywords)

def isNamed (rule : MatchRule) (name : String) : Bool :=
  match table.get? name with
  | some (.single other) => rule = other
  | _ => false

def isWordRule (rule : MatchRule) : Bool :=
  rule.captures.isEmpty &&
    ((isNamed rule "valueType" && rule.pattern = valueType) ||
      (isNamed rule "elemType" && rule.pattern = keyword Keyword.funcref.letters) ||
      (isNamed rule "limits" && rule.pattern = unsignedInteger))

/-- A leaf gives such a scope to nothing but a word: a match rule for words to the whole match, and
a clause to its second group. -/
def guards : Leaf → Bool
  | .single rule =>
    rule.captures.entries.all (fun entry => !isWord entry.2) &&
      (rule.scope.all (!isWord ·) || isWordRule rule)
  | .region _ delimiters _ =>
    delimiters.scope.all (!isWord ·) && delimiters.contentScope.all (!isWord ·) &&
      delimiters.closingCaptures.entries.all (fun entry => !isWord entry.2) &&
      delimiters.openingCaptures.entries.all
        (fun entry => !isWord entry.2 || (entry.1 = 2 && isClause delimiters)) &&
      (delimiters.opening.source.take 3 ≠ "(\\(".toList ||
        (delimiters.openingCaptures.get? 2).all isWord)

theorem words_guarded :
    (leaves grammar).all guards = true ∧
      (["valueType", "elemType", "limits"].all fun name =>
        match grammar.rules.get? name with
        | some (.single rule) => rule.scope.all isWord
        | _ => true) = true := by
  decide +kernel

theorem trees_clauses :
    (clauses.all fun keywords =>
      lineTree? (clauseOpening (anyOf keywords)) =
        some (clauseTree (.alternatives ((keywords.map (·.text.toList)).map word)))) = true := by
  decide +kernel

theorem tree_valueType :
    lineTree? valueType =
      some (wholeWordTree (.alternatives ((valueTypes.map (·.toList)).map word))) := by
  decide +kernel

theorem tree_elemType :
    lineTree? (keyword Keyword.funcref.letters) =
      some (wholeWordTree (.alternatives ([Keyword.funcref.text.toList].map word))) := by
  decide +kernel

theorem tree_unsignedInteger :
    lineTree? unsignedInteger = some (wholeWordTree integerTree) := by
  decide +kernel

variable {scope : String}

theorem eq_of_isNamed {rule : MatchRule} {name : String} (named : isNamed rule name = true) :
    grammar.rules.get? name = some (.single rule) := by
  unfold isNamed at named
  split at named
  · rename_i other held
    rw [of_decide_eq_true named]
    exact held
  · simp at named

theorem source_clauseOpening (opened : Fragment) :
    (clauseOpening opened).source.take 3 = "(\\(".toList := by
  rw [clauseOpening, source_sequence_cons]
  rfl

theorem isWord_of_wordScope (words : WordScope grammar scope) : isWord scope = true := by
  cases words with
  | @clause site region children opened member opening tag =>
    have guard := List.all_eq_true.1 words_guarded.1 _ member
    simp only [guards, Bool.and_eq_true, Bool.or_eq_true, decide_eq_true_eq] at guard
    rcases guard.2 with other | listed
    · exact absurd (opening ▸ source_clauseOpening opened) other
    · simpa [tag] using listed
  | @rule name rule listed named scope =>
    have checked := List.all_eq_true.1 words_guarded.2 name listed
    simpa [named, scope] using checked

theorem tree_of_isWordRule {rule : MatchRule} (words : isWordRule rule = true)
    (given : rule.scope = some scope) :
    ∃ body, lineTree? rule.pattern = some (wholeWordTree body) ∧
      Spells body (Spelled grammar scope) := by
  simp only [isWordRule, Bool.and_eq_true, Bool.or_eq_true, decide_eq_true_eq] at words
  rcases words.2 with (⟨named, pattern⟩ | ⟨named, pattern⟩) | ⟨named, pattern⟩
  · refine ⟨_, pattern ▸ tree_valueType, (spells_words _).mono fun cs listed => ?_⟩
    obtain ⟨type, among, rfl⟩ := List.mem_map.1 listed
    exact .valueType (eq_of_isNamed named) given among
  · refine ⟨_, pattern ▸ tree_elemType, (spells_words _).mono fun cs listed => ?_⟩
    rw [List.mem_singleton.1 listed]
    exact .elemType (eq_of_isNamed named) given
  · refine ⟨_, pattern ▸ tree_unsignedInteger, spells_integer.mono fun cs number => ?_⟩
    exact .integer (eq_of_isNamed named) given number

theorem tree_of_isClause {site : Site} {region : Region} {children : List Pattern}
    (member : Leaf.region site region children ∈ leaves grammar) (words : isClause region = true)
    (given : region.openingCaptures.get? 2 = some scope) :
    ∃ body, lineTree? region.opening = some (clauseTree body) ∧
      Spells body (Spelled grammar scope) := by
  obtain ⟨keywords, listed, same⟩ := List.any_eq_true.1 words
  have opening := of_decide_eq_true same
  have read := of_decide_eq_true (List.all_eq_true.1 trees_clauses keywords listed)
  refine ⟨_, opening ▸ read, (spells_words _).mono fun cs spelled => ?_⟩
  obtain ⟨k, among, rfl⟩ := List.mem_map.1 spelled
  exact .keyword member opening given among

end Leaves

section Found

variable {body : Node} {form : List Char → Prop} {f : Fragment} {text : List Char} {pos : Nat}
  {found : Found}

theorem found_word (spells : Spells body form) (read : lineTree? f = some (wholeWordTree body))
    (inside : pos ≤ text.length) (answered : searchIn text f pos = .ok (some found)) :
    form (piece text found.whole.start found.whole.stop) ∧
      Edged text found.whole.start found.whole.stop := by
  obtain ⟨-, w, way, stop⟩ := found_way read inside answered
  obtain ⟨inside, edged⟩ := mem_ways_wholeWord way
  rw [stop] at edged
  exact ⟨stop ▸ spells _ _ _ _ w inside, edged⟩

theorem found_clause (spells : Spells body form) (read : lineTree? f = some (clauseTree body))
    (inside : pos ≤ text.length) (answered : searchIn text f pos = .ok (some found))
    {span : Regex.Span} (second : found.groups[1]? = some (some span)) :
    form (piece text span.start span.stop) ∧ Edged text span.start span.stop := by
  obtain ⟨-, -, ⟨w, first, -, groups⟩, -⟩ := way_of_searchIn read inside answered
  obtain ⟨q, s, v, -, way, rfl⟩ := mem_ways_clause (List.mem_of_mem_head? first)
  obtain ⟨inside, edged⟩ := mem_ways_wholeWord way
  have same : span = ⟨q, v.1⟩ := by
    rw [groups, List.getElem?_map] at second
    cases counted : (List.range (clauseTree body).groups)[1]? with
    | none => simp [counted] at second
    | some i =>
      have one : i = 1 := by
        obtain ⟨_, same⟩ := List.getElem?_eq_some_iff.1 counted
        simpa using same.symm
      simp only [counted, Option.map_some, Option.some.injEq, one] at second
      exact (Option.some.inj second).symm
  subst same
  exact ⟨spells _ _ _ _ v inside, edged⟩

end Found

theorem words_idChars :
    ((Keyword.all.map (·.text) ++ valueTypes).all fun text =>
      text.toList ≠ [] && text.toList.all isIdChar) = true := by
  decide

theorem Spelled.idChars {r : Repository} {scope : String} {cs : List Char}
    (spelled : Spelled r scope cs) : cs ≠ [] ∧ ∀ c ∈ cs, isIdChar c = true := by
  have listed {text : String} (among : text ∈ Keyword.all.map (·.text) ++ valueTypes) :
      text.toList ≠ [] ∧ ∀ c ∈ text.toList, isIdChar c = true := by
    have checked := List.all_eq_true.1 words_idChars text among
    simpa only [Bool.and_eq_true, decide_eq_true_eq, List.all_eq_true] using checked
  cases spelled with
  | @keyword _ _ _ _ k =>
    exact listed (List.mem_append_left _ (List.mem_map.2 ⟨k, k.mem_all, rfl⟩))
  | valueType _ _ among => exact listed (List.mem_append_right _ among)
  | elemType =>
    exact listed (List.mem_append_left _ (List.mem_map.2 ⟨_, Keyword.mem_all .funcref, rfl⟩))
  | integer _ _ number => exact number.idChars

section Line

variable {l : Line} {p q : Nat} {scopes rules : List String} {t : Token}

theorem word_inside (notNil : piece l.text p q ≠ [])
    (inside : ∀ c ∈ piece l.text p q, isIdChar c = true) :
    p ≤ l.content.length ∧ q ≤ l.content.length := by
  have size := length_text l
  have first : p ≤ l.content.length := by
    rcases Nat.lt_or_ge l.content.length p with behind | inside
    · refine absurd ?_ notNil
      rw [piece, List.drop_eq_nil_of_le (by omega), List.take_nil]
    · exact inside
  refine ⟨first, le_of_spares (List.mem_singleton_self _) first fun c member newline => ?_⟩
  rw [List.mem_singleton.1 newline] at member
  exact absurd (inside _ member) (by decide)

theorem isRun_of_mem_piece (notNil : piece l.text p q ≠ [])
    (inside : ∀ c ∈ piece l.text p q, isIdChar c = true) (edged : Edged l.text p q)
    (member : t ∈ l.piece p q scopes rules) :
    IsRun l.content t (l.content.take p) (l.content.drop q) := by
  obtain ⟨first, last⟩ := word_inside notNil inside
  obtain ⟨forward, rfl⟩ := eq_of_mem_piece member
  have own : piece l.text p q = piece l.content p q := by
    rw [piece, piece, Line.text, List.drop_append_of_le_length first,
      List.take_append_of_le_length (by rw [List.length_drop]; omega)]
  have content {i : Nat} {c : Char} (here : c ∈ l.content[i]?) : c ∈ l.text[i]? := by
    rw [Line.text, List.getElem?_append_left (List.getElem?_eq_some_iff.1 here).1]
    exact here
  refine ⟨?_, ?_, ?_, ?_, ?_, ?_, ?_⟩
  · simp only [String.toList_ofList, own]
    rw [piece, List.append_assoc, show l.content.drop q = (l.content.drop p).drop (q - p) by
      rw [List.drop_drop, Nat.add_sub_cancel' (Nat.le_of_lt forward)], List.take_append_drop,
      List.take_append_drop]
  · simp only [Line.text, List.take_append_of_le_length first]
  · simp
  · simpa using notNil
  · simpa using inside
  · intro c ends
    cases p with
    | zero => simp at ends
    | succ i =>
      rw [List.take_add_one, List.getElem?_eq_getElem (by omega), Option.toList_some,
        List.getLast?_concat, ← List.getElem?_eq_getElem] at ends
      exact edged.before i rfl c (content ends)
  · intro c begins
    rw [List.head?_drop] at begins
    exact edged.behind c (content begins)

end Line

section Step

variable {l : Line} {pos : Nat} {stack : List Frame} {t : Token} {scope : String}

structure GuardedRegion (region : Region) : Prop where
  scope : ∀ other ∈ region.scope, isWord other = false
  contentScope : ∀ other ∈ region.contentScope, isWord other = false
  closing : ∀ entry ∈ region.closingCaptures.entries, isWord entry.2 = false
  opening : ∀ entry ∈ region.openingCaptures.entries, isWord entry.2 = true →
    entry.1 = 2 ∧ isClause region = true

theorem guardedRegion {site : Site} {region : Region} {children : List Pattern}
    (member : Leaf.region site region children ∈ leaves grammar) : GuardedRegion region := by
  have guard := List.all_eq_true.1 words_guarded.1 _ member
  simp only [guards, Bool.and_eq_true, Bool.or_eq_true, Option.all_eq_true, List.all_eq_true,
    Bool.not_eq_true', decide_eq_true_eq] at guard
  obtain ⟨⟨⟨⟨scope, contentScope⟩, closing⟩, opening⟩, -⟩ := guard
  refine ⟨scope, contentScope, closing, fun entry among words => ?_⟩
  rcases opening entry among with other | clause
  · simp [other] at words
  · exact clause

theorem guardedRule {rule : MatchRule} (member : Leaf.single rule ∈ leaves grammar) :
    (∀ entry ∈ rule.captures.entries, isWord entry.2 = false) ∧
      ∀ other ∈ rule.scope, isWord other = true → isWordRule rule = true := by
  have guard := List.all_eq_true.1 words_guarded.1 _ member
  simp only [guards, Bool.and_eq_true, Bool.or_eq_true, Option.all_eq_true, List.all_eq_true,
    Bool.not_eq_true'] at guard
  refine ⟨guard.1, fun other given words => ?_⟩
  rcases guard.2 with none | rule
  · simp [none other given] at words
  · exact rule

theorem other_of_mem_enclosing (known : Known grammar stack) :
    ∀ other ∈ enclosing grammar stack, isWord other = false := by
  refine List.forall_mem_cons.2 ⟨by decide +kernel, fun other member => ?_⟩
  obtain ⟨frame, among, given⟩ := List.mem_flatMap.1 member
  have guard := guardedRegion (known frame (List.mem_reverse.1 among))
  rcases List.mem_append.1 given with own | content
  · exact guard.scope other (Option.mem_toList.1 own)
  · exact guard.contentScope other (Option.mem_toList.1 content)

theorem word_of_rule {rule : MatchRule} {found : Found} (member : Leaf.single rule ∈ leaves grammar)
    (inside : pos ≤ l.text.length) (answered : searchIn l.text rule.pattern pos = .ok (some found))
    (given : rule.scope = some scope) (words : isWord scope = true) :
    Spelled grammar scope (piece l.text found.whole.start found.whole.stop) ∧
      Edged l.text found.whole.start found.whole.stop := by
  have isRule := (guardedRule member).2 scope given words
  obtain ⟨body, read, spells⟩ := tree_of_isWordRule isRule given
  exact found_word spells read inside answered

theorem word_of_clause_group {site : Site} {region : Region} {children : List Pattern}
    {found : Found} {index : Nat} {span : Regex.Span}
    (member : Leaf.region site region children ∈ leaves grammar) (inside : pos ≤ l.text.length)
    (answered : searchIn l.text region.opening pos = .ok (some found))
    (group : (some found.whole :: found.groups)[index]? = some (some span))
    (given : region.openingCaptures.get? index = some scope) (words : isWord scope = true) :
    Spelled grammar scope (piece l.text span.start span.stop) ∧
      Edged l.text span.start span.stop := by
  obtain ⟨second, isClause⟩ :=
    (guardedRegion member).opening (index, scope) (Table.mem_entries_of_get? given) words
  simp only at second
  subst second
  obtain ⟨body, read, spells⟩ := tree_of_isClause member isClause given
  exact found_clause spells read inside answered group

theorem word_of_scoped (known : Known grammar stack) (inside : pos ≤ l.text.length)
    (origin : Scoped (searchIn l.text) grammar l pos stack t)
    (last : t.scopes.getLast? = some scope) (words : isWord scope = true) :
    ∃ p q scopes rules, (t ∈ l.piece p q scopes rules ∨ t ∈ l.clipped p q scopes rules) ∧
      Spelled grammar scope (piece l.text p q) ∧ Edged l.text p q := by
  have among := List.mem_of_getLast? last
  -- The last scope is given by the regions around, by the leaf itself or by a tag of its match.
  cases origin with
  | plain _ same =>
    rw [same] at among
    simp [other_of_mem_enclosing known scope among] at words
  | @closing frame outer found tag cut chosen _ tags same =>
    subst cut
    obtain ⟨here, below⟩ := List.forall_mem_cons.1 known
    have guard := guardedRegion here
    have other : isWord scope = false := by
      rw [same, List.mem_append, List.mem_append] at among
      rcases among with (around | own) | tagged
      · exact other_of_mem_enclosing below scope around
      · exact guard.scope scope (Option.mem_toList.1 own)
      · obtain ⟨entry, listed, rfl⟩ := List.mem_map.1 (tags scope (Option.mem_toList.1 tagged))
        exact guard.closing entry listed
    simp [other] at words
  | @applied candidate found whole tag chosen member _ same =>
    have leaf := known_of_choose known chosen
    have answered := (candidate_of_choose chosen).2
    obtain ⟨kind, names⟩ := candidate
    rcases mem_captured member with ⟨index, span, tag', group, held, there⟩ | ⟨-, there⟩
    · rw [piece_scopes there, List.getLast?_concat, Option.some.injEq] at last
      subst last
      cases kind with
      | single rule =>
        have other := (guardedRule leaf).1 _ (Table.mem_entries_of_get? held)
        simp [other] at words
      | region site region children =>
        have word := word_of_clause_group leaf inside answered group held words
        exact ⟨_, _, _, _, .inl there, word⟩
    · rw [clipped_scopes there, List.mem_append] at among
      rcases among with around | own
      · simp [other_of_mem_enclosing known scope around] at words
      · cases kind with
        | single rule =>
          have word := word_of_rule leaf inside answered (Option.mem_toList.1 own) words
          exact ⟨_, _, _, _, .inr there, word⟩
        | region site region children =>
          simp [(guardedRegion leaf).scope scope (Option.mem_toList.1 own)] at words

/-- A token with the scope of a word is a run of identifier characters, whole and not a part of one. -/
theorem isRun_of_scoped (known : Known grammar stack) (inside : pos ≤ l.text.length)
    (origin : Scoped (searchIn l.text) grammar l pos stack t)
    (last : t.scopes.getLast? = some scope) (words : isWord scope = true) :
    Spelled grammar scope t.text.toList ∧ ∃ before after, IsRun l.content t before after ∧
      t.line = l.number := by
  obtain ⟨p, q, scopes, rules, there, spelled, edged⟩ :=
    word_of_scoped known inside origin last words
  obtain ⟨notNil, idChars⟩ := spelled.idChars
  have member : t ∈ l.piece p q scopes rules := by
    rcases there with tagged | whole
    · exact tagged
    · rwa [Line.clipped, Nat.min_eq_left (word_inside notNil idChars).2] at whole
  have text : t.text.toList = piece l.text p q := by
    rw [(eq_of_mem_piece member).2, String.toList_ofList]
  exact ⟨text ▸ spelled, _, _, isRun_of_mem_piece notNil idChars edged member, piece_line member⟩

end Step

/-- Every text is scanned, unless a search is given up. -/
theorem scan_finishes (source : String) :
    ∃ result, ∀ engine,
      UnlessGivenUp engine grammar (Text.lines source.toList) (scanBy engine grammar source)
        (.ok result) := by
  have answers : Answers grammar := fun stack known => choose_answers known
  obtain ⟨result, scanned⟩ := answers.scan source
  exact ⟨result, fun engine => scanned ▸ scanBy_unlessGivenUp engine grammar source⟩

/-- In every text that is scanned, a token whose innermost scope is one of keywords, value types and
numbers is such a word, and is a whole run of identifier characters of its line. -/
theorem scan_words (engine : Regex.Engine) (source : String) :
    ∃ r, repository = .ok r ∧ ∀ result, scanBy engine r source = .ok result →
      ∀ t ∈ result.tokens, ∀ scope, t.scopes.getLast? = some scope → WordScope r scope →
        Spelled r scope t.text.toList ∧
          ∃ content before after, (Text.lines source.toList)[t.line]? = some content ∧
            IsRun content t before after := by
  refine ⟨grammar, repository_eq, fun result scanned t member scope last words => ?_⟩
  have patient := (scanBy_unlessGivenUp engine grammar source).ok scanned
  obtain ⟨l, pos, stack, origin⟩ := (scan_reached patient).1 t member
  obtain ⟨made, reached⟩ := origin.reached
  have inside := reached.inside searchIn_within origin.line
  obtain ⟨spelled, before, after, isRun, line⟩ :=
    isRun_of_scoped reached.known inside origin.scoped last (isWord_of_wordScope words)
  exact ⟨spelled, l.content, before, after, line ▸ origin.line, isRun⟩

def limited : String := "(memory $i32.func 0x1F)"

theorem scan_words_limited :
    ∃ result, scan grammar limited = .ok result ∧ ∃ t ∈ result.tokens,
      t.text = "0x1F" ∧ t.scopes.getLast? = some "constant.numeric.integer.wasm" ∧
        Spelled grammar "constant.numeric.integer.wasm" "0x1F".toList ∧
        ∃ before after, IsRun limited.toList t before after := by
  have evaluated : ((scanPlain (searchBy .standard) grammar 0
      (Text.lines limited.toList) []).toOption.any fun result =>
        result.tokens.any fun t => t.line = 0 && t.text = "0x1F" &&
          t.scopes.getLast? = some "constant.numeric.integer.wasm") = true := by
    decide +kernel
  have limits : grammar.rules.get? "limits" =
      some (.single ⟨unsignedInteger, some "constant.numeric.integer.wasm", .empty⟩) := by
    rfl
  rw [← scanBy_eq_scanPlain, Option.any_eq_true] at evaluated
  obtain ⟨result, held, tagged⟩ := evaluated
  have scanned := toOption_eq_some.1 held
  obtain ⟨r, built, words⟩ := scan_words .standard limited
  cases repository_eq.symm.trans built
  obtain ⟨t, member, same⟩ := List.any_eq_true.1 tagged
  simp only [Bool.and_eq_true, decide_eq_true_eq] at same
  obtain ⟨⟨line, text⟩, last⟩ := same
  obtain ⟨spelled, content, before, after, here, isRun⟩ :=
    words result scanned t member _ last (.rule (by simp) limits rfl)
  have only : (Text.lines limited.toList)[0]? = some limited.toList := by decide +kernel
  rw [line, only, Option.some.injEq] at here
  exact ⟨result, scanned, t, member, text, last, text ▸ spelled, before, after, here ▸ isRun⟩

end ScopeGrammar.WebAssembly
