import ScopeGrammar.Proofs.Regex.Consumed

/-!
The lexemes of a source: its atoms, brackets, bars and quantifiers. A lexeme is told by its own
characters, and for a quantifier by what does not follow it, so that the lexemes of two sources put
together are those of both. Sources with flags, comments, names, references or stray braces have no
lexemes here.
-/

set_option autoImplicit false

namespace ScopeGrammar.Regex

inductive Lexeme where
  | atom (node : Node)
  | opening (bracket : Bracket)
  | closing
  | bar
  | quantifier (least : Nat) (most : Option Nat) (greedy keeps : Bool)
  deriving DecidableEq, Repr

def Lexeme.waits : Lexeme → Bool
  | .atom _ | .closing => true
  | .opening _ | .bar | .quantifier _ _ _ _ => false

/-- The parts of the class at the end of a range other than a bracket that opens a class elsewhere. -/
def ClassItem.isPlain : ClassItem → Bool
  | .range _ high => high ≠ .plain '['
  | _ => true

def plainItems : (fuel : Nat) → List ClassPart → Bool
  | 0, _ => true
  | fuel + 1, parts =>
    match classItem? false parts with
    | none => true
    | some (item, rest) => item.isPlain && plainItems fuel rest

def plainRanges (parts : List ClassPart) : Bool := plainItems (parts.length + 1) parts

def readPlainClass? (cs : List Char) : Option (CharSet × List Char) :=
  match cutClass cs with
  | .ok (parts, rest) =>
    if plainRanges (openClass parts).2 then (classSet false parts).toOption.map (·, rest) else none
  | .error _ => none

def bounds? (cs : List Char) : Option ((Nat × Option Nat) × List Char) :=
  let (low, rest) := spanDigits cs
  match rest with
  | '\x7d' :: rest =>
    if low = [] then none
    else some ((decimalNumber low, some (decimalNumber low)), rest)
  | ',' :: rest =>
    let (high, rest) := spanDigits rest
    match rest with
    | '\x7d' :: rest =>
      some ((decimalNumber low, if high = [] then none else some (decimalNumber high)), rest)
    | _ => none
  | _ => none

def quantified (least : Nat) (most : Option Nat) (cs : List Char) : Lexeme × List Char :=
  let (isLazy, cs) := cutMark '?' cs
  let (keeps, cs) := cutMark '+' cs
  (.quantifier least most (!isLazy) keeps, cs)

def bracket? : List Char → Option (Bracket × List Char)
  | '?' :: ':' :: rest => some (.plain .plain, rest)
  | '?' :: '=' :: rest => some (.ahead, rest)
  | '?' :: '!' :: rest => some (.notAhead, rest)
  | '?' :: '<' :: '=' :: rest => some (.behind, rest)
  | '?' :: '<' :: '!' :: rest => some (.notBehind, rest)
  | '?' :: '>' :: rest => some (.atomic, rest)
  | '?' :: _ => none
  | rest => some (.capture, rest)

def Escape.node? : Escape → Option Node
  | .char c => some (.set (.single c))
  | .set s => some (.set s)
  | .anchor a => some (.anchor a)
  | .back _ => none

def escaped? (cs : List Char) : Option (Lexeme × List Char) := do
  let (escape, rest) ← (readEscape false cs).toOption
  return (.atom (← escape.node?), rest)

def quantity? : Char → Option (Nat × Option Nat)
  | '*' => some (0, none)
  | '+' => some (1, none)
  | '?' => some (0, some 1)
  | _ => none

def charNode : Char → Node
  | '.' => .set (.compl (.single '\n'))
  | '^' => .anchor .textStart
  | '$' => .anchor .textEnd
  | c => .set (.single c)

/-- The first lexeme of a source; `waits` tells whether something that can be repeated stands before. -/
def lexeme? (waits : Bool) (c : Char) (rest : List Char) : Option (Lexeme × List Char) :=
  match quantity? c with
  | some (least, most) => some (quantified least most rest)
  | none =>
    match c with
    | '|' => some (.bar, rest)
    | ')' => some (.closing, rest)
    | '\x7b' =>
      if waits then (bounds? rest).map fun ((least, most), rest) => quantified least most rest
      else none
    | '(' => (bracket? rest).map fun (bracket, rest) => (.opening bracket, rest)
    | '[' => (readPlainClass? rest).map fun (s, rest) => (.atom (.set s), rest)
    | '\\' => escaped? rest
    | c => some (.atom (charNode c), rest)

inductive Lexes : (waits : Bool) → List Char → List Lexeme → Prop where
  | nil (waits : Bool) : Lexes waits [] []
  | cons {waits : Bool} {c : Char} {cs rest : List Char} {x : Lexeme} {xs : List Lexeme}
      (first : lexeme? waits c cs = some (x, rest)) :
    Lexes x.waits rest xs → Lexes waits (c :: cs) (x :: xs)

/-- In the place of `rest` the text can be taken for a part of the lexeme before it no more than
`rest` can. -/
def CalmAs (rest text : List Char) : Prop :=
  ∀ c ∈ ['?', '+'], text.head? = some c → rest.head? = some c

/-- Nothing in the text can be taken for a part of the lexeme before it. -/
abbrev Calm (text : List Char) : Prop := CalmAs [] text

/-- What a lexeme is written as: a character and the text behind it. -/
inductive Lexeme.IsText : Lexeme → Char → List Char → Prop where
  | bar : IsText .bar '|' []
  | closing : IsText .closing ')' []
  | opening {bracket : Bracket} {text : List Char} (inert : Inert text)
      (keepsFlags : ∀ flags, bracket = .plain flags → flags = .plain) :
    IsText (.opening bracket) '(' text
  | quantifier {least : Nat} {most : Option Nat} {greedy keeps : Bool} {c : Char} {text : List Char}
      (inert : Inert (c :: text)) : IsText (.quantifier least most greedy keeps) c text
  | char {node : Node} {c : Char} (plain : c ∉ ['\\', '(', ')', '[', '|']) : IsText (.atom node) c []
  | escape {node : Node} {c : Char} {text : List Char} (inert : Inert text) :
    IsText (.atom node) '\\' (c :: text)
  | set {s : CharSet} {text : List Char} (reads : readPlainClass? text = some (s, [])) :
    IsText (.atom (.set s)) '[' text

section Text

variable {cs rest : List Char}

theorem spanDigits_text (cs : List Char) :
    cs = (spanDigits cs).1 ++ (spanDigits cs).2 ∧ ∀ c ∈ (spanDigits cs).1, c.isDigit = true :=
  Text.split_span Char.isDigit cs

theorem spanDigits_stop {digits : List Char} (all : ∀ c ∈ digits, c.isDigit = true) {c : Char}
    (stop : c.isDigit = false) (tail : List Char) :
    spanDigits (digits ++ c :: tail) = (digits, c :: tail) := by
  obtain ⟨taken, dropped⟩ := Text.span_append all (c :: tail) fun d same => by
    cases same
    exact stop
  rw [spanDigits, taken, dropped]

theorem bounds?_text {bounds : Nat × Option Nat} (read : bounds? cs = some (bounds, rest)) :
    ∃ text, cs = text ++ rest ∧ Inert text ∧
      ∀ tail, bounds? (text ++ tail) = some (bounds, tail) := by
  obtain ⟨whole, digits⟩ := spanDigits_text cs
  unfold bounds? at read
  dsimp only at read
  generalize (spanDigits cs).1 = low at *
  generalize (spanDigits cs).2 = behind at *
  split at read
  · rename_i inside
    split at read
    · simp at read
    · rename_i some
      cases read
      refine ⟨low ++ ['\x7d'], by rw [whole]; simp, ?_, fun tail => ?_⟩
      · exact (inert_of_isDigit digits).append (by decide)
      · rw [List.append_assoc, List.singleton_append, bounds?, spanDigits_stop digits (by decide)]
        simp only [if_neg some]
  · rename_i inside
    obtain ⟨whole', digits'⟩ := spanDigits_text inside
    generalize (spanDigits inside).1 = high at *
    generalize (spanDigits inside).2 = behind' at *
    split at read
    · cases read
      refine ⟨low ++ ',' :: high ++ ['\x7d'], by rw [whole, whole']; simp, ?_, fun tail => ?_⟩
      · have high := (inert_of_isDigit digits').cons (c := ',') (by decide)
        exact ((inert_of_isDigit digits).append high).append (by decide)
      · have split :
            low ++ ',' :: high ++ ['\x7d'] ++ tail = low ++ ',' :: (high ++ '\x7d' :: tail) := by
          simp
        rw [split, bounds?, spanDigits_stop digits (by decide)]
        simp only [spanDigits_stop digits' (c := '\x7d') (by decide)]
    · simp at read
  · simp at read

theorem cutMark_text {mark : Char} (plain : mark ∉ structural) (cs : List Char) :
    ∃ text, cs = text ++ (cutMark mark cs).2 ∧ Inert text ∧
      ∀ tail, (tail.head? = some mark → (cutMark mark cs).2.head? = some mark) →
        cutMark mark (text ++ tail) = ((cutMark mark cs).1, tail) := by
  have without (none : cs.head? ≠ some mark) : cutMark mark cs = (false, cs) := by
    cases cs with
    | nil => rfl
    | cons c rest => simp_all [cutMark]
  by_cases is : cs.head? = some mark
  · obtain ⟨rest, rfl⟩ := List.head?_eq_some_iff.1 is
    refine ⟨[mark], by simp [cutMark], by simpa [Inert] using plain, fun tail _ => by simp [cutMark]⟩
  · rw [without is]
    refine ⟨[], rfl, by decide, fun tail calm => ?_⟩
    cases tail with
    | nil => rfl
    | cons c tail =>
      have other : c ≠ mark := fun same => is (calm (by rw [same]; rfl))
      simp [cutMark, other]

theorem quantified_text {least : Nat} {most : Option Nat} {x : Lexeme}
    (read : quantified least most cs = (x, rest)) :
    ∃ text, cs = text ++ rest ∧ Inert text ∧
      (∃ greedy keeps, x = .quantifier least most greedy keeps) ∧
      ∀ tail, CalmAs rest tail → quantified least most (text ++ tail) = (x, tail) := by
  obtain rfl : (quantified least most cs).1 = x := congrArg Prod.fst read
  obtain rfl : (cutMark '+' (cutMark '?' cs).2).2 = rest := congrArg Prod.snd read
  have plain : '?' ∉ structural ∧ '+' ∉ structural := by decide
  obtain ⟨first, whole, inert, reads⟩ := cutMark_text plain.1 cs
  obtain ⟨second, whole', inert', reads'⟩ := cutMark_text plain.2 (cutMark '?' cs).2
  refine ⟨first ++ second, by rw [List.append_assoc, ← whole', ← whole],
    inert.append inert', ⟨_, _, rfl⟩, fun tail calm => ?_⟩
  have lazy : cutMark '?' (first ++ (second ++ tail)) = ((cutMark '?' cs).1, second ++ tail) := by
    refine reads (second ++ tail) fun mark => ?_
    rw [whole']
    cases second with
    | nil => exact calm '?' (by decide) mark
    | cons c second => exact mark
  rw [List.append_assoc, quantified, lazy]
  simp only [reads' tail (calm '+' (by decide))]
  rfl

theorem bracket?_of_calm {tail : List Char} (noMark : tail.head? ≠ some '?') :
    bracket? tail = some (.capture, tail) := by
  cases tail with
  | nil => rfl
  | cons c tail => simp_all [bracket?]

theorem bracket?_text {bracket : Bracket} (read : bracket? cs = some (bracket, rest)) :
    ∃ text, cs = text ++ rest ∧ Inert text ∧ (∀ flags, bracket = .plain flags → flags = .plain) ∧
      ∀ tail, CalmAs rest tail → bracket? (text ++ tail) = some (bracket, tail) := by
  unfold bracket? at read
  split at read <;> cases read
  · exact ⟨['?', ':'], rfl, by decide, by simp, fun tail _ => rfl⟩
  · exact ⟨['?', '='], rfl, by decide, by simp, fun tail _ => rfl⟩
  · exact ⟨['?', '!'], rfl, by decide, by simp, fun tail _ => rfl⟩
  · exact ⟨['?', '<', '='], rfl, by decide, by simp, fun tail _ => rfl⟩
  · exact ⟨['?', '<', '!'], rfl, by decide, by simp, fun tail _ => rfl⟩
  · exact ⟨['?', '>'], rfl, by decide, by simp, fun tail _ => rfl⟩
  · rename_i noMark
    refine ⟨[], rfl, by decide, by simp, fun tail calm => bracket?_of_calm fun mark => ?_⟩
    obtain ⟨behind, rfl⟩ := List.head?_eq_some_iff.1 (calm '?' (by decide) mark)
    exact noMark behind rfl

theorem readPlainClass?_eq_some {s : CharSet} :
    readPlainClass? cs = some (s, rest) ↔
      ∃ parts, cutClass cs = .ok (parts, rest) ∧ plainRanges (openClass parts).2 = true ∧
        classSet false parts = .ok s := by
  constructor
  · intro read
    unfold readPlainClass? at read
    split at read
    · rename_i parts behind cut
      split at read
      · rename_i plain
        simp only [Option.map_eq_some_iff, Prod.mk.injEq] at read
        obtain ⟨_, set, rfl, rfl⟩ := read
        exact ⟨parts, cut, plain, toOption_eq_some.1 set⟩
      · simp at read
    · simp at read
  · rintro ⟨parts, cut, plain, set⟩
    simp only [readPlainClass?, cut, plain, if_true, toOption_eq_some.2 set, Option.map_some]

theorem readPlainClass?_text {s : CharSet} (read : readPlainClass? cs = some (s, rest)) :
    ∃ text, cs = text ++ rest ∧ ∀ tail, readPlainClass? (text ++ tail) = some (s, tail) := by
  obtain ⟨parts, cut, plain, set⟩ := readPlainClass?_eq_some.1 read
  obtain ⟨text, rfl, -, cuts⟩ := cutClass_text cut
  exact ⟨text, rfl, fun tail => readPlainClass?_eq_some.2 ⟨parts, cuts tail, plain, set⟩⟩

theorem escaped?_eq_some {x : Lexeme} :
    escaped? cs = some (x, rest) ↔
      ∃ escape node, readEscape false cs = .ok (escape, rest) ∧ escape.node? = some node ∧
        x = .atom node := by
  constructor
  · intro read
    unfold escaped? at read
    obtain ⟨⟨escape, behind⟩, escaped, read⟩ := Option.bind_eq_some_iff.1 read
    obtain ⟨node, known, read⟩ := Option.bind_eq_some_iff.1 read
    cases read
    exact ⟨escape, node, toOption_eq_some.1 escaped, known, rfl⟩
  · rintro ⟨escape, node, escaped, known, rfl⟩
    simp [escaped?, toOption_eq_some.2 escaped, known]

theorem escaped?_text {x : Lexeme} (read : escaped? cs = some (x, rest)) :
    ∃ c text node, cs = c :: text ++ rest ∧ Inert text ∧ x = .atom node ∧
      ∀ tail, escaped? (c :: text ++ tail) = some (x, tail) := by
  obtain ⟨escape, node, escaped, known, rfl⟩ := escaped?_eq_some.1 read
  have noNumber (n : Nat) : escape ≠ .back n := by
    rintro rfl
    simp [Escape.node?] at known
  obtain ⟨c, text, rfl, inert, reads⟩ := readEscape_text escaped noNumber
  exact ⟨c, text, node, rfl, inert, rfl, fun tail =>
    escaped?_eq_some.2 ⟨escape, node, reads tail, known, rfl⟩⟩

theorem quantity?_plain {c : Char} {bounds : Nat × Option Nat} (is : quantity? c = some bounds) :
    c ∉ structural := by
  unfold quantity? at is
  split at is <;> first | decide | cases is

theorem quantified_isText {c : Char} (plain : c ∉ structural) {least : Nat} {most : Option Nat}
    {x : Lexeme} (read : quantified least most cs = (x, rest)) :
    ∃ text, cs = text ++ rest ∧ x.IsText c text ∧ ∀ tail, x.waits = true ∨ CalmAs rest tail →
      quantified least most (text ++ tail) = (x, tail) := by
  obtain ⟨text, rfl, inert, ⟨greedy, keeps, rfl⟩, reads⟩ := quantified_text read
  exact ⟨text, rfl, .quantifier (inert.cons plain), fun tail calm =>
    reads tail (calm.resolve_left (by simp [Lexeme.waits]))⟩

theorem lexeme?_text {waits : Bool} {c : Char} {x : Lexeme}
    (read : lexeme? waits c cs = some (x, rest)) :
    ∃ text, cs = text ++ rest ∧ x.IsText c text ∧
      ∀ tail, x.waits = true ∨ CalmAs rest tail → lexeme? waits c (text ++ tail) = some (x, tail) := by
  cases quantity : quantity? c with
  | some bounds =>
    simp only [lexeme?, quantity, Option.some.injEq] at read ⊢
    exact quantified_isText (quantity?_plain quantity) read
  | none =>
    simp only [lexeme?, quantity] at read ⊢
    split at read
    · cases read
      exact ⟨[], rfl, .bar, fun tail _ => rfl⟩
    · cases read
      exact ⟨[], rfl, .closing, fun tail _ => rfl⟩
    · split at read
      · rename_i waiting
        simp only [Option.map_eq_some_iff] at read
        obtain ⟨⟨⟨least, most⟩, behind⟩, bounds, read⟩ := read
        obtain ⟨text, rfl, inert, counts⟩ := bounds?_text bounds
        obtain ⟨marks, rfl, inert', ⟨greedy, keeps, rfl⟩, reads⟩ := quantified_text read
        refine ⟨text ++ marks, by simp, .quantifier ((inert.append inert').cons (by decide)),
          fun tail calm => ?_⟩
        have ends := calm.resolve_left (by simp [Lexeme.waits])
        rw [if_pos waiting, List.append_assoc, counts, Option.map_some, reads tail ends]
      · simp at read
    · simp only [Option.map_eq_some_iff, Prod.mk.injEq] at read
      obtain ⟨⟨bracket, behind⟩, opens, rfl, rfl⟩ := read
      obtain ⟨text, rfl, inert, keepsFlags, reads⟩ := bracket?_text opens
      refine ⟨text, rfl, .opening inert keepsFlags, fun tail calm => ?_⟩
      rw [reads tail (calm.resolve_left (by simp [Lexeme.waits])), Option.map_some]
    · simp only [Option.map_eq_some_iff, Prod.mk.injEq] at read
      obtain ⟨⟨s, behind⟩, opens, rfl, rfl⟩ := read
      obtain ⟨text, rfl, reads⟩ := readPlainClass?_text opens
      refine ⟨text, rfl, .set (by simpa using reads []), fun tail _ => ?_⟩
      rw [reads tail, Option.map_some]
    · obtain ⟨d, text, node, rfl, inert, rfl, reads⟩ := escaped?_text read
      exact ⟨d :: text, rfl, .escape inert, fun tail _ => reads tail⟩
    · cases read
      exact ⟨[], rfl, .char (by simp_all), fun tail _ => rfl⟩

end Text

theorem lexeme?_waits {waits : Bool} {c : Char} {cs : List Char} {first : Lexeme × List Char}
    (read : lexeme? false c cs = some first) : lexeme? waits c cs = some first := by
  cases quantity : quantity? c with
  | some bounds => simpa only [lexeme?, quantity] using read
  | none =>
    simp only [lexeme?, quantity] at read ⊢
    split at read <;> simp_all

theorem Lexes.of_start {waits : Bool} {cs : List Char} {xs : List Lexeme}
    (lexes : Lexes false cs xs) : Lexes waits cs xs := by
  cases lexes with
  | nil => exact .nil waits
  | cons first later => exact .cons (lexeme?_waits first) later

theorem Lexes.append {waits : Bool} {cs ds : List Char} {xs ys : List Lexeme}
    (lexes : Lexes waits cs xs) (lexes' : Lexes false ds ys)
    (calm : Calm ds ∨ ∃ x ∈ xs.getLast?, x.waits = true) : Lexes waits (cs ++ ds) (xs ++ ys) := by
  induction lexes with
  | nil waits => exact lexes'.of_start
  | @cons waits c cs rest x xs first later ih =>
    obtain ⟨text, rfl, -, reads⟩ := lexeme?_text first
    rw [List.cons_append, List.append_assoc]
    cases later with
    | nil =>
      have last : x.waits = true ∨ CalmAs [] ds := by simpa [or_comm] using calm
      exact .cons (reads ds last) lexes'.of_start
    | @cons _ _ _ _ y xs =>
      have same : (x :: y :: xs).getLast? = (y :: xs).getLast? := rfl
      exact .cons (reads _ (.inr fun c _ is => is)) (ih (same ▸ calm))

end ScopeGrammar.Regex
