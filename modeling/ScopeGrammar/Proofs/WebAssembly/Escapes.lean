import ScopeGrammar.Proofs.Regex.Rounds
import ScopeGrammar.Proofs.WebAssembly.Strings

set_option autoImplicit false

namespace ScopeGrammar.WebAssembly

open Regex (Node CharSet Span Way)

section Escapes

theorem mem_hexDigits {c : Char} : hexDigits.mem c = true ↔ IsHexDigit c := by
  simp [hexDigits, CharSet.mem, IsHexDigit, Char.le_def, or_assoc]

/-- The pattern for escapes has a way along each escape, and no other way. -/
theorem denotes_escape :
    (Node.seq (.set (.single '\\')) escapeTail).Denotes fun cs => ∃ e, cs = '\\' :: e ∧ IsEscape e := by
  have code := (Node.denotes_single 'u').seq ((Node.denotes_single '\x7b').seq
    ((Node.denotes_once_or_more hexDigits true).seq (Node.denotes_single '\x7d')))
  have letter := Node.denotes_set (.union (.union (.union (.union (.union (.single 't')
    (.single 'n')) (.single 'r')) (.single '"')) (.single '\'')) (.single '\\'))
  have tail := (Node.denotes_twice hexDigits true).alt (code.alt (letter.alt Node.denotes_never))
  refine ((Node.denotes_single '\\').seq tail).congr fun cs => ?_
  constructor
  · rintro ⟨_, e, rfl, rfl, is⟩
    refine ⟨e, rfl, ?_⟩
    rcases is with ⟨c, d, rfl, first, second⟩ | code | ⟨c, rfl, letter⟩ | no
    · exact .byte (mem_hexDigits.1 first) (mem_hexDigits.1 second)
    · obtain ⟨_, _, rfl, rfl, _, _, rfl, rfl, ds, _, rfl, ⟨some, digits⟩, rfl⟩ := code
      exact .code some fun d member => mem_hexDigits.1 (digits d member)
    · exact .letter (by simpa [or_assoc] using letter)
    · exact no.elim
  · rintro ⟨e, rfl, is⟩
    refine ⟨['\\'], e, rfl, rfl, ?_⟩
    cases is with
    | byte first second =>
      exact .inl ⟨_, _, rfl, mem_hexDigits.2 first, mem_hexDigits.2 second⟩
    | @code ds some digits =>
      exact .inr (.inl ⟨['u'], _, rfl, rfl, ['\x7b'], _, rfl, rfl, ds, ['\x7d'], rfl,
        ⟨some, fun d member => mem_hexDigits.2 (digits d member)⟩, rfl⟩)
    | @letter c among => exact .inr (.inr (.inl ⟨c, rfl, by simpa [or_assoc] using among⟩))

theorem eq_of_digits {ds es r s : List Char} (digits : ∀ d ∈ ds, IsHexDigit d)
    (digits' : ∀ d ∈ es, IsHexDigit d) (same : ds ++ '\x7d' :: r = es ++ '\x7d' :: s) : ds = es := by
  induction ds generalizing es with
  | nil =>
    cases es with
    | nil => rfl
    | cons e es =>
      obtain ⟨rfl, -⟩ := List.cons.inj same
      exact absurd (digits' _ (List.mem_cons_self ..)) (by simp [IsHexDigit])
  | cons d ds ih =>
    cases es with
    | nil =>
      obtain ⟨rfl, -⟩ := List.cons.inj same
      exact absurd (digits _ (List.mem_cons_self ..)) (by simp [IsHexDigit])
    | cons e es =>
      obtain ⟨rfl, later⟩ := List.cons.inj same
      rw [ih (List.forall_mem_cons.1 digits).2 (List.forall_mem_cons.1 digits').2 later]

theorem not_hexDigit_of_letter {c : Char} (letter : c ∈ ['t', 'n', 'r', '"', '\'', '\\']) :
    ¬ IsHexDigit c := by
  simp only [List.mem_cons, List.not_mem_nil, or_false] at letter
  rcases letter with rfl | rfl | rfl | rfl | rfl | rfl <;> simp [IsHexDigit]

theorem IsEscape.unique {e f r s : List Char} (is : IsEscape e) (is' : IsEscape f)
    (same : e ++ r = f ++ s) : e = f := by
  have u : ¬ IsHexDigit 'u' := by simp [IsHexDigit]
  cases is with
  | byte first second =>
    cases is' with
    | byte => simp_all
    | code => exact absurd ((List.cons.inj same).1 ▸ first) u
    | letter among => exact absurd ((List.cons.inj same).1 ▸ first) (not_hexDigit_of_letter among)
  | code some digits =>
    cases is' with
    | byte first => exact absurd ((List.cons.inj same).1 ▸ first) u
    | code some' digits' =>
      simp only [List.cons_append, List.append_assoc, List.cons.injEq, true_and] at same
      rw [eq_of_digits digits digits' same]
    | letter among => exact absurd ((List.cons.inj same).1 ▸ among) (by decide)
  | letter among =>
    cases is' with
    | byte first => exact absurd ((List.cons.inj same).1 ▸ first) (not_hexDigit_of_letter among)
    | code => exact absurd ((List.cons.inj same).1 ▸ among) (by decide)
    | letter => simp_all

theorem IsEscape.inLine {e : List Char} (is : IsEscape e) : e ≠ [] ∧ '\n' ∉ e := by
  have feed : ¬ IsHexDigit '\n' := by simp [IsHexDigit]
  cases is with
  | byte first second =>
    refine ⟨by simp, fun member => ?_⟩
    simp only [List.mem_cons, List.not_mem_nil, or_false] at member
    rcases member with rfl | rfl
    · exact feed first
    · exact feed second
  | code some digits =>
    refine ⟨by simp, fun member => ?_⟩
    simp only [List.cons_append, List.mem_cons, List.mem_append, List.not_mem_nil, or_false] at member
    rcases member with bad | bad | inside | bad
    · exact absurd bad (by decide)
    · exact absurd bad (by decide)
    · exact feed (digits _ inside)
    · exact absurd bad (by decide)
  | letter among =>
    refine ⟨by simp, fun member => ?_⟩
    obtain rfl := List.mem_singleton.1 member
    exact absurd among (by decide)

theorem StringBody.inLine {body : List Char} (is : StringBody body) : '\n' ∉ body := by
  induction is with
  | nil => simp
  | plain plain _ ih =>
    refine List.not_mem_cons_of_ne_of_not_mem ?_ ih
    rintro rfl
    exact plain (by decide)
  | escape escape _ ih =>
    refine fun member => (List.mem_append.1 member).elim (fun inside => ?_) ih
    exact escape.inLine.2 (by simpa using inside)

theorem IsString.inLine {s : List Char} (is : IsString s) : '\n' ∉ s := by
  obtain ⟨body, body', rfl⟩ := is
  simp [body'.inLine]

end Escapes

def EscapeAt (text : List Char) (p q : Nat) : Prop :=
  ∃ e, IsEscape e ∧ '\\' :: e <+: text.drop p ∧ q = p + 1 + e.length

section Places

variable {text : List Char} {p q q' : Nat}

theorem EscapeAt.unique (is : EscapeAt text p q) (is' : EscapeAt text p q') : q = q' := by
  obtain ⟨e, escape, ⟨r, there⟩, rfl⟩ := is
  obtain ⟨f, escape', ⟨s, there'⟩, rfl⟩ := is'
  have same := (List.cons.inj (there.trans there'.symm)).2
  rw [escape.unique escape' same]

theorem EscapeAt.bounds (is : EscapeAt text p q) :
    text[p]? = some '\\' ∧ p + 2 ≤ q ∧ q ≤ text.length := by
  obtain ⟨e, escape, ⟨rest, there⟩, rfl⟩ := is
  have some := List.length_pos_iff.2 escape.inLine.1
  have size := congrArg List.length there
  rw [List.length_append, List.length_cons, List.length_drop] at size
  refine ⟨?_, by omega, by omega⟩
  rw [← List.head?_drop, ← there]
  rfl

theorem escapeAt_line {content : List Char} : EscapeAt (content ++ ['\n']) p q ↔ EscapeAt content p q := by
  refine exists_congr fun e => and_congr_right fun escape => and_congr_left fun _ => ?_
  have free : '\n' ∉ '\\' :: e := by simp [escape.inLine.2]
  rcases Nat.lt_or_ge content.length p with behind | within
  · rw [List.drop_eq_nil_of_le (by simp; omega), List.drop_eq_nil_of_le (by omega)]
  · rw [List.drop_append_of_le_length within, List.prefix_concat_iff]
    refine ⟨fun either => either.resolve_left fun same => free ?_, .inr⟩
    rw [same]
    simp

theorem mem_ways_escape_iff {opened : Nat} {s : Regex.Saved} {w : Way} (inside : p ≤ text.length) :
    w ∈ (Node.seq (.set (.single '\\')) escapeTail).ways text opened p s ↔
      EscapeAt text p w.1 ∧ w.2 = s := by
  rw [denotes_escape text opened p s w inside]
  constructor
  · rintro ⟨_, rest, there, ⟨e, rfl, escape⟩, rfl⟩
    refine ⟨⟨e, escape, ⟨rest, there.symm⟩, ?_⟩, rfl⟩
    rw [List.length_cons]
    omega
  · rintro ⟨⟨e, escape, ⟨rest, there⟩, stop⟩, saved⟩
    refine ⟨_, rest, there.symm, ⟨e, rfl, escape⟩, Prod.ext ?_ saved⟩
    rw [stop, List.length_cons]
    omega

end Places

/-- Read on from a place of a line: the escapes on the way, and the place of the quote where the
reader stops, if it does not get to the end of the line. -/
inductive Skims (content : List Char) : Nat → List Span → Option Nat → Prop where
  | quote {p : Nat} (here : content[p]? = some '"') : Skims content p [] (some p)
  | lineEnd {p : Nat} (full : p = content.length) : Skims content p [] none
  | escape {p q : Nat} {escapes : List Span} {quote : Option Nat} (is : EscapeAt content p q)
      (rest : Skims content q escapes quote) : Skims content p (⟨p, q⟩ :: escapes) quote
  | plain {p : Nat} {c : Char} {escapes : List Span} {quote : Option Nat}
      (here : content[p]? = some c) (other : c ≠ '"') (none : ∀ q, ¬ EscapeAt content p q)
      (rest : Skims content (p + 1) escapes quote) : Skims content p escapes quote

section Reading

variable {content : List Char}

theorem exists_skims {p : Nat} (inside : p ≤ content.length) :
    ∃ escapes quote, Skims content p escapes quote := by
  induction size : content.length - p using Nat.strongRecOn generalizing p with
  | ind n ih =>
    subst size
    rcases Nat.lt_or_eq_of_le inside with more | full
    · have here : content[p]? = some content[p] := List.getElem?_eq_getElem more
      by_cases quote : content[p] = '"'
      · exact ⟨[], some p, .quote (quote ▸ here)⟩
      · by_cases escape : ∃ q, EscapeAt content p q
        · obtain ⟨q, is⟩ := escape
          have bounds := is.bounds
          obtain ⟨escapes, quote, rest⟩ := ih (content.length - q) (by omega) bounds.2.2 rfl
          exact ⟨_, quote, .escape is rest⟩
        · obtain ⟨escapes, quote', rest⟩ := ih (content.length - (p + 1)) (by omega) more rfl
          exact ⟨escapes, quote', .plain here quote (fun q is => escape ⟨q, is⟩) rest⟩
    · exact ⟨[], none, .lineEnd full⟩

theorem Skims.at_end {p : Nat} {escapes : List Span} {quote : Option Nat}
    (reads : Skims content p escapes quote) (full : p = content.length) :
    escapes = [] ∧ quote = none := by
  subst full
  cases reads with
  | quote here => simp at here
  | lineEnd => exact ⟨rfl, rfl⟩
  | escape is =>
    have bounds := is.bounds
    omega
  | plain here => simp at here

theorem Skims.escape_bounds {p : Nat} {escapes : List Span} {quote : Option Nat}
    (reads : Skims content p escapes quote) :
    ∀ e ∈ escapes, p ≤ e.start ∧ e.start < e.stop ∧ e.stop ≤ content.length := by
  induction reads with
  | quote | lineEnd => simp
  | escape is _ ih =>
    have bounds := is.bounds
    refine List.forall_mem_cons.2 ⟨⟨Nat.le_refl _, by simp only; omega, bounds.2.2⟩, fun e member => ?_⟩
    have later := ih e member
    omega
  | plain _ _ _ _ ih =>
    intro e member
    have later := ih e member
    omega

theorem Skims.le_quote {p last : Nat} {escapes : List Span}
    (reads : Skims content p escapes (some last)) : p ≤ last := by
  generalize quote : some last = stop at reads
  induction reads with
  | quote => exact Nat.le_of_eq (Option.some.inj quote).symm
  | lineEnd => cases quote
  | escape is _ ih =>
    have bounds := is.bounds
    have later := ih quote
    omega
  | plain _ _ _ _ ih =>
    have later := ih quote
    omega

theorem skims_of_body {body tail : List Char} (is : StringBody body) {p : Nat}
    (there : content.drop p = body ++ '"' :: tail) :
    ∃ escapes, Skims content p escapes (some (p + body.length)) ∧ 2 * escapes.length ≤ body.length := by
  induction is generalizing p with
  | nil => exact ⟨[], .quote (Scan.head_of_drop there).1, Nat.le_refl 0⟩
  | @plain c cs plain _ ih =>
    obtain ⟨here, rest⟩ := Scan.head_of_drop there
    obtain ⟨escapes, reads, few⟩ := ih rest
    refine ⟨escapes, .plain here ?_ (fun q is => plain ?_) ?_, Nat.le_succ_of_le few⟩
    · rintro rfl
      exact plain (by decide)
    · obtain rfl := Option.some.inj (here.symm.trans is.bounds.1)
      decide
    · rw [List.length_cons, Nat.add_comm cs.length, ← Nat.add_assoc]
      exact reads
  | @escape e cs escape _ ih =>
    have split : '\\' :: e ++ cs ++ '"' :: tail = ('\\' :: e) ++ (cs ++ '"' :: tail) := by simp
    rw [split] at there
    obtain ⟨escapes, reads, few⟩ := ih (Regex.drop_behind there)
    have some := List.length_pos_iff.2 escape.inLine.1
    refine ⟨⟨p, p + ('\\' :: e).length⟩ :: escapes,
      .escape ⟨e, escape, there ▸ List.prefix_append _ _, ?_⟩ ?_, ?_⟩
    · rw [List.length_cons]
      omega
    · rw [List.length_append, ← Nat.add_assoc]
      exact reads
    · simp only [List.length_cons, List.length_append]
      omega

end Reading

end ScopeGrammar.WebAssembly
