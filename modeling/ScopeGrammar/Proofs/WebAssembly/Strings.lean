import ScopeGrammar.Proofs.Scan.Crossing
import ScopeGrammar.Proofs.WebAssembly.Areas

set_option autoImplicit false

namespace ScopeGrammar.WebAssembly

open Scan
open Regex (Found Spares mem_piece)

def IsHexDigit (c : Char) : Prop := '0' ≤ c ∧ c ≤ '9' ∨ 'a' ≤ c ∧ c ≤ 'f' ∨ 'A' ≤ c ∧ c ≤ 'F'

/-- What a backslash in a string stands before. -/
inductive IsEscape : List Char → Prop
  | byte {c d : Char} : IsHexDigit c → IsHexDigit d → IsEscape [c, d]
  | code {ds : List Char} : ds ≠ [] → (∀ d ∈ ds, IsHexDigit d) →
    IsEscape ('u' :: '\x7b' :: ds ++ ['\x7d'])
  | letter {c : Char} : c ∈ ['t', 'n', 'r', '"', '\'', '\\'] → IsEscape [c]

/-- What is between the quotes of a string. -/
inductive StringBody : List Char → Prop
  | nil : StringBody []
  | plain {c : Char} {cs : List Char} : c ∉ stringSpecials → StringBody cs → StringBody (c :: cs)
  | escape {e cs : List Char} : IsEscape e → StringBody cs → StringBody ('\\' :: e ++ cs)

def IsString (s : List Char) : Prop := ∃ body, StringBody body ∧ s = '"' :: body ++ ['"']

/-- What is between quotes when a backslash keeps what is behind it from ending the string. -/
inductive Quoted : List Char → Prop
  | nil : Quoted []
  | plain {c : Char} {cs : List Char} : c ∉ stringSpecials → Quoted cs → Quoted (c :: cs)
  | escaped {c : Char} {cs : List Char} : c ≠ '\n' → Quoted cs → Quoted ('\\' :: c :: cs)

theorem IsHexDigit.plain {c : Char} (hex : IsHexDigit c) : c ∉ stringSpecials := by
  intro special
  simp only [stringSpecials, List.mem_cons, List.not_mem_nil, or_false] at special
  rcases special with rfl | rfl | rfl <;> revert hex <;> simp [IsHexDigit]

theorem Quoted.append {cs rest : List Char} (plain : ∀ c ∈ cs, c ∉ stringSpecials)
    (quoted : Quoted rest) : Quoted (cs ++ rest) := by
  induction cs with
  | nil => exact quoted
  | cons c cs ih =>
    obtain ⟨first, later⟩ := List.forall_mem_cons.1 plain
    exact .plain first (ih later)

theorem Quoted.drop {cs : List Char} (quoted : Quoted cs) (n : Nat)
    (plain : ∀ c ∈ cs.take n, c ∉ stringSpecials) : Quoted (cs.drop n) := by
  induction n generalizing cs with
  | zero => exact quoted
  | succ n ih =>
    cases quoted with
    | nil => exact .nil
    | plain _ rest => exact ih rest fun c member => plain c (List.mem_cons_of_mem _ member)
    | escaped _ _ => exact absurd (plain '\\' (by simp)) (by decide)

theorem StringBody.quoted {body : List Char} (is : StringBody body) : Quoted body := by
  induction is with
  | nil => exact .nil
  | plain plain _ ih => exact .plain plain ih
  | @escape _ cs escape _ ih =>
    cases escape with
    | byte first second =>
      exact .escaped (fun same => first.plain (same ▸ by decide)) (.plain second.plain ih)
    | @code ds _ digits =>
      refine .escaped (by decide) (.plain (by decide) ?_)
      show Quoted ((ds ++ ['\x7d']) ++ cs)
      rw [List.append_assoc]
      exact Quoted.append (fun d member => (digits d member).plain) (.plain (by decide) ih)
    | letter among =>
      refine .escaped ?_ ih
      rintro rfl
      exact absurd among (by decide)

section Choices

variable {text : List Char} {pos c : Nat} {stack : List Frame}

theorem way_of_choose {rules : Rules} {ctx : Context} {choice : Choice} {found : Found}
    (inside : pos ≤ text.length)
    (chosen : choose (searchIn text) rules ctx pos = .ok (some (choice, found))) :
    ∃ o ∈ offers rules ctx, o.choice = choice ∧ ∃ tree, lineTree? o.pattern = some tree ∧
      ∃ w ∈ tree.ways text 0 found.whole.start [], w.1 = found.whole.stop := by
  obtain ⟨o, offered, same, answered⟩ := offer_of_choose chosen
  obtain ⟨tree, read⟩ := tree_of_searchIn answered
  exact ⟨o, offered, same, tree, read, (found_way read inside answered).2⟩

theorem choose_at (known : Known grammar stack) {o : Offer}
    (offered : o ∈ offers grammar.rules (context grammar stack)) {tree : Regex.Node}
    (read : lineTree? o.pattern = some tree) (ge : pos ≤ c) (inside : c ≤ text.length)
    (way : tree.ways text 0 c [] ≠ [])
    (quiet : ∀ choice found, choose (searchIn text) grammar.rules (context grammar stack) pos =
      .ok (some (choice, found)) → c ≤ found.whole.start) :
    ∃ choice found, choose (searchIn text) grammar.rules (context grammar stack) pos =
      .ok (some (choice, found)) ∧ found.whole.start = c := by
  obtain ⟨result, chosen⟩ := choose_answers known text pos
  cases result with
  | none => exact absurd (way_of_choose_none chosen offered read c ge inside) way
  | some result =>
    obtain ⟨choice, found⟩ := result
    obtain ⟨other, answered, earlier⟩ := searchIn_of_way read ge inside way
    have least := choose_least chosen o offered other answered
    have first := quiet choice found chosen
    exact ⟨choice, found, chosen, by omega⟩

end Choices

section Inside

variable {l : Line} {frame : Frame} {outer : List Frame} {pos b : Nat} {c d : Char}

theorem stringEnd_silent {text : List Char} (here : text[b]? = some c) (open' : c ≠ '"')
    (inLine : c ≠ '\n') (next : text[b + 1]? = some d) (more : d ≠ '\n') :
    stringEndTree.ways text 0 b [] = [] := by
  refine List.eq_nil_iff_forall_not_mem.2 fun w member => ?_
  have ends := (mem_ways_stringEnd member).2
  rw [here, next] at ends
  simp [open', inLine, more] at ends

theorem escape_silent {text : List Char} (here : text[b]? = some c) (plain : c ≠ '\\') :
    (Regex.Node.seq (.set (.single '\\')) escapeTail).ways text 0 b [] = [] := by
  refine List.eq_nil_iff_forall_not_mem.2 fun w member => ?_
  have slash := (mem_ways_escape member).1
  rw [here] at slash
  exact plain (Option.some.inj slash)

theorem Silent.grow {text : List Char} (silent : Silent Area.string.patterns text pos b)
    (ends : stringEndTree.ways text 0 b [] = [])
    (escapes : (Regex.Node.seq (.set (.single '\\')) escapeTail).ways text 0 b [] = []) :
    Silent Area.string.patterns text pos (b + 1) := by
  intro f member tree read i ge lt inside
  rcases Nat.lt_or_eq_of_le (Nat.le_of_lt_succ lt) with before | rfl
  · exact silent f member tree read i ge before inside
  · simp only [Area.patterns, Area.asks, Area.first, Area.later, List.nil_append, List.map_cons,
      List.map_nil, Area.closing, Ask.pattern, List.mem_cons, List.not_mem_nil, or_false] at member
    rcases member with rfl | rfl
    · cases tree_stringEnd.symm.trans read
      exact ends
    · cases tree_escape.symm.trans read
      exact escapes

theorem Quoted.next {rest : List Char} (quoted : Quoted rest) (tail : List Char) :
    ∃ d behind, rest ++ '"' :: tail = d :: behind ∧ d ≠ '\n' := by
  cases quoted with
  | nil => exact ⟨'"', tail, rfl, by decide⟩
  | plain plain _ => exact ⟨_, _, rfl, fun same => plain (same ▸ by decide)⟩
  | escaped _ _ => exact ⟨_, _, rfl, by decide⟩

theorem Quoted.skip {text rest tail : List Char} {p stop : Nat} (quoted : Quoted rest)
    (there : text.drop p = rest ++ '"' :: tail) (ge : p ≤ stop)
    (spares : Spares text stringSpecials p stop) :
    ∃ later, Quoted later ∧ text.drop stop = later ++ '"' :: tail ∧
      stop + later.length = p + rest.length := by
  have at' (i : Nat) : text[p + i]? = (rest ++ '"' :: tail)[i]? := by
    rw [← List.getElem?_drop, there]
  have room : stop - p ≤ rest.length := by
    refine Nat.le_of_not_lt fun beyond => ?_
    have quote : text[p + rest.length]? = some '"' := by rw [at']; simp
    exact spares '"' (mem_piece.2 ⟨p + rest.length, by omega, by omega, quote⟩) (by decide)
  refine ⟨rest.drop (stop - p), quoted.drop _ fun c member => ?_, ?_, ?_⟩
  · obtain ⟨i, bound, rfl⟩ := List.mem_take_iff_getElem.1 member
    refine spares _ (mem_piece.2 ⟨p + i, by omega, by omega, ?_⟩)
    rw [at', List.getElem?_append_left (by omega), List.getElem?_eq_getElem]
  · rw [← List.drop_append_of_le_length room, ← there, List.drop_drop, Nat.add_sub_cancel' ge]
  · rw [List.length_drop]
    omega

theorem Quoted.skip_escape {text rest tail : List Char} {w : Regex.Way} (quoted : Quoted rest)
    (there : text.drop b = '\\' :: c :: (rest ++ '"' :: tail))
    (way : w ∈ (Regex.Node.seq (.set (.single '\\')) escapeTail).ways text 0 b []) :
    b + 1 < w.1 ∧ ∃ later, Quoted later ∧ text.drop w.1 = later ++ '"' :: tail ∧
      w.1 + later.length = b + 2 + rest.length := by
  obtain ⟨-, there'⟩ := head_of_drop there
  obtain ⟨next, there''⟩ := head_of_drop there'
  rcases (mem_ways_escape way).2 with ⟨two, -⟩ | ⟨more, spares⟩
  · exact ⟨by omega, rest, quoted, two ▸ there'', by omega⟩
  · have plain : c ∉ stringSpecials := spares c (mem_piece.2 ⟨b + 1, by omega, more, next⟩)
    obtain ⟨later, quoted', behind, lengths⟩ :=
      (Quoted.plain plain quoted).skip there' (by omega) spares
    rw [List.length_cons] at lengths
    exact ⟨more, later, quoted', behind, by omega⟩

theorem not_stalls {choice : Choice} {found : Found} {stack : List Frame}
    (moves : pos < found.whole.stop) : choice.stalls l pos stack found = false := by
  unfold Choice.stalls
  rw [decide_eq_false (Nat.not_le_of_lt moves), Bool.false_and]

theorem string_asks {ask : Ask} (asked : ask ∈ Area.string.asks) : ask = .lexeme escape := by
  simpa [Area.asks, Area.first, Area.later] using asked

theorem string_choice (is : Described .string frame) (known : Known grammar (frame :: outer))
    {f : Fragment} (member : f ∈ Area.string.patterns) {tree : Regex.Node}
    (read : lineTree? f = some tree) (ge : pos ≤ b) (inside : b < l.text.length)
    (way : tree.ways l.text 0 b [] ≠ []) (silent : Silent Area.string.patterns l.text pos b) :
    ∃ choice found, choose (searchIn l.text) grammar.rules (context grammar (frame :: outer)) pos =
        .ok (some (choice, found)) ∧ found.whole.start = b ∧
          Picks .string l.text pos found choice := by
  obtain ⟨o, offered, rfl⟩ : ∃ o ∈ offers grammar.rules (context grammar (frame :: outer)),
      o.pattern = f := offered_of_pattern is member
  have quiet : ∀ choice found, choose (searchIn l.text) grammar.rules
      (context grammar (frame :: outer)) pos = .ok (some (choice, found)) →
        b ≤ found.whole.start := by
    refine fun choice found chosen => Nat.le_of_not_lt fun before => ?_
    obtain ⟨other, offered, -, tree, read, w, way, -⟩ := way_of_choose (by omega) chosen
    have first := choose_within (searchIn_within l.text) (by omega) chosen
    have among : other.pattern ∈ Area.string.patterns := by
      rw [← patterns_of_offers is]
      exact List.mem_map_of_mem offered
    have none := silent _ among tree read found.whole.start first.1 before (by omega)
    simp [none] at way
  obtain ⟨choice, found, chosen, start⟩ :=
    choose_at known offered read ge (Nat.le_of_lt inside) way quiet
  exact ⟨choice, found, chosen, start, picks_of_choose is (by omega) chosen⟩

theorem string_ends (is : Described .string frame) (known : Known grammar (frame :: outer))
    (ge : pos ≤ b) (here : l.text[b]? = some '"')
    (silent : Silent Area.string.patterns l.text pos b) :
    ∃ found, choose (searchIn l.text) grammar.rules (context grammar (frame :: outer)) pos =
        .ok (some (.close, found)) ∧ found.whole.start = b ∧ found.whole.stop = b + 1 := by
  have inside := (List.getElem?_eq_some_iff.1 here).1
  obtain ⟨choice, found, chosen, start, picks⟩ := string_choice is known (f := stringEnd)
    (by decide) tree_stringEnd ge inside (ways_stringEnd_ne_nil (.inl here)) silent
  cases picks with
  | close answered =>
    obtain ⟨-, w, way, stop⟩ := found_way tree_stringEnd (by omega) answered
    have one := (mem_ways_stringEnd way).1
    exact ⟨found, chosen, start, by omega⟩
  | ask ask leaf names asked same answered =>
    obtain rfl := string_asks asked
    obtain ⟨-, w, way, -⟩ := found_way tree_escape (by omega) answered
    rw [start, escape_silent here (by decide)] at way
    simp at way

theorem string_escapes (is : Described .string frame) (known : Known grammar (frame :: outer))
    (ge : pos ≤ b) (inside : b < l.text.length)
    (ends : stringEndTree.ways l.text 0 b [] = [])
    (way : (Regex.Node.seq (.set (.single '\\')) escapeTail).ways l.text 0 b [] ≠ [])
    (silent : Silent Area.string.patterns l.text pos b) :
    ∃ rule names found, choose (searchIn l.text) grammar.rules
        (context grammar (frame :: outer)) pos = .ok (some (.apply ⟨.single rule, names⟩, found)) ∧
      found.whole.start = b ∧
        ∃ w ∈ (Regex.Node.seq (.set (.single '\\')) escapeTail).ways l.text 0 b [],
          w.1 = found.whole.stop := by
  obtain ⟨choice, found, chosen, start, picks⟩ := string_choice is known (f := escape)
    (by decide) tree_escape ge inside way silent
  cases picks with
  | close answered =>
    obtain ⟨-, w, way', -⟩ := found_way tree_stringEnd (by omega) answered
    rw [start, ends] at way'
    simp at way'
  | ask ask leaf names asked same answered =>
    obtain rfl := string_asks asked
    obtain ⟨-, w, way', stop⟩ := found_way tree_escape (by omega) answered
    rw [start] at way'
    cases leaf with
    | region site region children => simp [outline, Ask.outline] at same
    | single rule => exact ⟨rule, names, found, chosen, start, w, way', stop⟩

theorem crosses_string (is : Described .string frame) (known : Known grammar (frame :: outer))
    {rest tail : List Char} (quoted : Quoted rest) (ge : pos ≤ b)
    (there : l.text.drop b = rest ++ '"' :: tail)
    (silent : Silent Area.string.patterns l.text pos b) :
    Crosses (searchIn l.text) grammar l (b + rest.length + 1) pos (frame :: outer) outer := by
  induction size : rest.length using Nat.strongRecOn generalizing rest pos b with
  | ind n ih =>
    subst size
    have standing (p : Nat) : Silent Area.string.patterns l.text p p := by
      intro f _ tree _ i ge lt
      omega
    cases quoted with
    | nil =>
      obtain ⟨here, -⟩ := head_of_drop there
      obtain ⟨found, chosen, start, stop⟩ := string_ends is known ge here silent
      exact .take chosen (by simp; omega) (not_stalls (by omega)) (by omega)
        (.behind (by simp; omega))
    | @plain c rest plain quoted =>
      obtain ⟨here, there'⟩ := head_of_drop there
      obtain ⟨d, behind, same, more⟩ := quoted.next tail
      obtain ⟨next, -⟩ := head_of_drop (there'.trans same)
      simp only [stringSpecials, List.mem_cons, List.not_mem_nil, or_false, not_or] at plain
      have silent' := silent.grow (stringEnd_silent here plain.1 plain.2.2 next more)
        (escape_silent here plain.2.1)
      have total : b + (c :: rest).length + 1 = b + 1 + rest.length + 1 := by
        rw [List.length_cons]
        omega
      rw [total]
      exact ih rest.length (by simp) quoted (by omega) there' silent' rfl
    | @escaped c rest inLine quoted =>
      obtain ⟨here, there'⟩ := head_of_drop there
      obtain ⟨next, there''⟩ := head_of_drop there'
      have ends := stringEnd_silent here (by decide) (by decide) next inLine
      by_cases way : (Regex.Node.seq (.set (.single '\\')) escapeTail).ways l.text 0 b [] = []
      · -- The backslash is passed over, and so is what is behind it: it has no meaning of its own.
        have quote : c ≠ '"' := fun same => ways_escape_ne_nil here (.inl (same ▸ next)) way
        have slash : c ≠ '\\' := fun same => ways_escape_ne_nil here (.inr (same ▸ next)) way
        obtain ⟨d, behind, same, more⟩ := quoted.next tail
        obtain ⟨next', -⟩ := head_of_drop (there''.trans same)
        have silent' := (silent.grow ends way).grow (stringEnd_silent next quote inLine next' more)
          (escape_silent next slash)
        have total : b + ('\\' :: c :: rest).length + 1 = b + 1 + 1 + rest.length + 1 := by
          rw [List.length_cons, List.length_cons]
          omega
        have less : rest.length < ('\\' :: c :: rest).length := by
          rw [List.length_cons, List.length_cons]
          omega
        rw [total]
        exact ih rest.length less quoted (by omega) there'' silent' rfl
      · have inside := (List.getElem?_eq_some_iff.1 here).1
        obtain ⟨rule, names, found, chosen, start, w, way', stop⟩ :=
          string_escapes is known ge inside ends way silent
        obtain ⟨forward, later, quoted', behind, lengths⟩ := quoted.skip_escape there way'
        have total : b + ('\\' :: c :: rest).length + 1 = w.1 + later.length + 1 := by
          rw [List.length_cons, List.length_cons]
          omega
        rw [total]
        refine .take chosen (by omega) (not_stalls (by omega)) (by omega) ?_
        rw [show max pos found.whole.stop = w.1 by omega]
        exact ih later.length (by omega) quoted' (Nat.le_refl _) behind (standing _) rfl

end Inside

end ScopeGrammar.WebAssembly
