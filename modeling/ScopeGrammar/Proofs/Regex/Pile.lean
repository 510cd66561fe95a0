import ScopeGrammar.Proofs.Regex.Lexeme

set_option autoImplicit false

namespace ScopeGrammar.Regex

/-- The innermost open group and those around it. -/
structure Pile where
  level : Level
  outer : List (Bracket × Level)
  deriving DecidableEq, Repr

def Pile.start : Pile := ⟨.start, []⟩

namespace Lexeme

def opens : Lexeme → Bool
  | .opening _ => true
  | _ => false

def feed : Lexeme → Pile → Except Problem Pile
  | .atom node, p => .ok { p with level := p.level.atom node }
  | .opening bracket, p => .ok ⟨.start, (bracket, p.level.settle) :: p.outer⟩
  | .closing, ⟨_, []⟩ => .error .unopenedGroup
  | .closing, ⟨level, (bracket, around) :: outer⟩ =>
    .ok ⟨{ around with last := some (bracket.node level.node) }, outer⟩
  | .bar, p => .ok { p with level := p.level.bar }
  | .quantifier least most greedy keeps, p =>
    match p.level.last with
    | none => .error .nothingToRepeat
    | some node =>
      if !node.repeatable then .error .nothingToRepeat
      else if most.any (· < least) then .error .reversedBounds
      else
        let repeated := Node.many least most greedy node
        .ok { p with level := p.level.piece (if keeps then .atomic repeated else repeated) }

def openedBehind (opened : Nat) : Lexeme → Nat
  | .opening .capture => opened + 1
  | _ => opened

def depthBehind (depth : Nat) : Lexeme → Nat
  | .opening _ => depth + 1
  | .closing => depth - 1
  | _ => depth

theorem depthBehind_succ {x : Lexeme} {depth : Nat} (inner : x = .closing → depth ≠ 0) :
    x.depthBehind (depth + 1) = x.depthBehind depth + 1 := by
  cases x with
  | closing => exact (Nat.sub_add_cancel (Nat.pos_of_ne_zero (inner rfl))).symm
  | _ => rfl

end Lexeme

def NoComment (cs : List Char) : Prop := ∀ tail, cs ≠ '(' :: '?' :: '#' :: tail

theorem skipBlanks_eq {fuel : Nat} {cs : List Char} (noComment : NoComment cs) :
    skipBlanks false fuel cs = .ok cs := by
  cases fuel with
  | zero => rfl
  | succ fuel =>
    unfold skipBlanks
    split
    · rename_i rest
      exact absurd rfl (noComment rest)
    · simp
    · rfl

/-- A state of the reader in which no flag has been changed and no group been named or referred to. -/
def Reading.of (p : Pile) (opened : Nat) : Reading := ⟨.plain, p.level, p.outer, opened, false, false⟩

section Part

variable {p : Pile} {opened : Nat}

theorem skip_of {cs : List Char} (noComment : NoComment cs) : (Reading.of p opened).skip cs = .ok cs :=
  skipBlanks_eq noComment

theorem noComment_of_head {c : Char} (other : c ≠ '(') (cs : List Char) : NoComment (c :: cs) := by
  rintro tail ⟨⟩
  exact other rfl

theorem quantify_eq {least : Nat} {most : Option Nat} {cs : List Char} (noComment : NoComment cs) :
    (Reading.of p opened).quantify least most cs =
      ((quantified least most cs).1.feed p).map fun q =>
        (.of q opened, (quantified least most cs).2) := by
  unfold Reading.quantify
  rw [skip_of noComment]
  simp only [Lexeme.feed, quantified]
  have top : (Reading.of p opened).level = p.level := rfl
  rw [top]
  cases p.level.last with
  | none => rfl
  | some node =>
    dsimp only
    split
    · rfl
    · split
      · rfl
      · have greedy : ((cutMark '?' cs).1 == (Reading.of p opened).flags.swapGreed) =
            !(cutMark '?' cs).1 := by
          cases (cutMark '?' cs).1 <;> rfl
        simp only [greedy, bind, Except.bind]
        rfl

theorem group_eq {cs rest : List Char} {bracket : Bracket}
    (read : bracket? cs = some (bracket, rest)) (noComment : NoComment cs) :
    (Reading.of p opened).group cs =
      if deepestNesting ≤ p.outer.length then .error .tooDeep
      else ((Lexeme.opening bracket).feed p).map fun q =>
        (.of q ((Lexeme.opening bracket).openedBehind opened), rest) := by
  unfold Reading.group
  have outer : (Reading.of p opened).outer = p.outer := rfl
  rw [outer, skip_of noComment]
  split
  · rfl
  · unfold bracket? at read
    split at read <;> cases read
    · rfl
    · rfl
    · rfl
    · rfl
    · rfl
    · rfl
    · rename_i noMark
      simp only [bind, Except.bind, pure, Except.pure]
      split <;> first | rfl | simp_all

theorem readBounds_eq {cs rest : List Char} {bounds : Nat × Option Nat}
    (read : bounds? cs = some (bounds, rest)) :
    readBounds (Reading.of p opened) cs = .ok (some (bounds, rest)) := by
  have noDigits {cs : List Char} {c : Char} {behind : List Char}
      (is : (spanDigits cs).2 = c :: behind) (noDigit : c.isDigit = false) (other : c ≠ '(') :
      NoComment cs ∧ NoComment (spanDigits cs).2 := by
    refine ⟨fun tail same => ?_, is ▸ noComment_of_head other behind⟩
    subst same
    have stop : (spanDigits ('(' :: '?' :: '#' :: tail)).2 = '(' :: '?' :: '#' :: tail := rfl
    rw [stop] at is
    cases is
    exact other rfl
  unfold bounds? at read
  unfold readBounds
  dsimp only at read
  split at read
  · rename_i behind is
    obtain ⟨first, second⟩ := noDigits is (by decide) (by decide)
    split at read
    · simp at read
    · rename_i some
      cases read
      simp only [skip_of first, bind, Except.bind]
      rw [skip_of second]
      simp only [is, if_neg some]
      rfl
  · rename_i behind is
    obtain ⟨first, second⟩ := noDigits is (by decide) (by decide)
    split at read
    · rename_i behind' is'
      obtain ⟨first', second'⟩ := noDigits is' (by decide) (by decide)
      cases read
      simp only [skip_of first, bind, Except.bind]
      rw [skip_of second]
      simp only [is, skip_of first']
      rw [skip_of second']
      simp only [is']
      rfl
    · simp at read
  · simp at read

/-- No group changes the flags back to others. -/
def Pile.KeepsFlags (p : Pile) : Prop :=
  ∀ entry ∈ p.outer, ∀ flags, entry.1 = .plain flags → flags = .plain

theorem close_eq (keeps : p.KeepsFlags) :
    (Reading.of p opened).close = (Lexeme.closing.feed p).map fun q => .of q opened := by
  obtain ⟨level, outer⟩ := p
  cases outer with
  | nil => rfl
  | cons first outer =>
    obtain ⟨bracket, around⟩ := first
    have names : (Reading.of ⟨level, (bracket, around) :: outer⟩ opened).checkNames = .ok () := by
      simp [Reading.checkNames, Reading.of]
    unfold Reading.close
    simp only [Reading.of] at names ⊢
    simp only [names, bind, Except.bind]
    cases bracket with
    | plain flags =>
      rw [keeps _ (List.mem_cons_self ..) flags rfl]
      rfl
    | _ => rfl

theorem noComment_append {text rest : List Char} (inert : Inert text) (noComment : NoComment rest) :
    NoComment (text ++ rest) := by
  cases text with
  | nil => exact noComment
  | cons c text =>
    refine noComment_of_head (fun same => ?_) _
    exact inert c (List.mem_cons_self ..) (same ▸ by decide)

theorem readClass_eq {cs rest : List Char} {s : CharSet}
    (read : readPlainClass? cs = some (s, rest)) : readClass false cs = .ok (s, rest) := by
  obtain ⟨parts, cut, -, set⟩ := readPlainClass?_eq_some.1 read
  exact bind_eq_ok.2 ⟨(parts, rest), cut, bind_eq_ok.2 ⟨s, set, rfl⟩⟩

theorem escape_eq {length : Nat} {cs rest : List Char} {x : Lexeme}
    (read : escaped? cs = some (x, rest)) :
    (Reading.of p opened).part length '\\' cs = (x.feed p).map fun q => (.of q opened, rest) := by
  obtain ⟨escape, node, escaped, known, rfl⟩ := escaped?_eq_some.1 read
  rw [Reading.part, escaped]
  cases escape with
  | back n => simp [Escape.node?] at known
  | char c | set s | anchor a =>
    cases known
    rfl

theorem part_quantity {length : Nat} {c : Char} {bounds : Nat × Option Nat}
    (is : quantity? c = some bounds) (r : Reading) (cs : List Char) :
    r.part length c cs = r.quantify bounds.1 bounds.2 cs := by
  unfold quantity? at is
  split at is <;> cases is <;> rfl

theorem part_brace {length : Nat} {node : Node} (last : p.level.last = some node)
    {cs rest : List Char} {bounds : Nat × Option Nat} (read : bounds? cs = some (bounds, rest)) :
    (Reading.of p opened).part length '\x7b' cs =
      (Reading.of p opened).quantify bounds.1 bounds.2 rest := by
  have top : (Reading.of p opened).level.last = some node := last
  rw [Reading.part, readBounds_eq read, top]
  rfl

/-- One part of a source with lexemes is its first lexeme. -/
theorem part_eq {length : Nat} {c : Char} {cs rest : List Char} {x : Lexeme}
    (read : lexeme? p.level.last.isSome c cs = some (x, rest)) (keeps : p.KeepsFlags)
    (noComment : NoComment rest) :
    (Reading.of p opened).part length c cs =
      if x.opens && deepestNesting ≤ p.outer.length then .error .tooDeep
      else (x.feed p).map fun q => (.of q (x.openedBehind opened), rest) := by
  have repeats {least : Nat} {most : Option Nat} {cs : List Char}
      (read : quantified least most cs = (x, rest)) :
      (Reading.of p opened).quantify least most cs =
        if x.opens && deepestNesting ≤ p.outer.length then .error .tooDeep
        else (x.feed p).map fun q => (.of q (x.openedBehind opened), rest) := by
    obtain ⟨text, rfl, inert, ⟨greedy, keeps, rfl⟩, -⟩ := quantified_text read
    rw [quantify_eq (noComment_append inert noComment), read]
    rfl
  cases quantity : quantity? c with
  | some bounds =>
    simp only [lexeme?, quantity, Option.some.injEq] at read
    rw [part_quantity quantity, repeats read]
  | none =>
    simp only [lexeme?, quantity] at read
    split at read
    · cases read
      rfl
    · cases read
      have part : (Reading.of p opened).part length ')' cs =
          (do return (← (Reading.of p opened).close, cs)) := rfl
      rw [part, close_eq keeps]
      cases Lexeme.closing.feed p <;> rfl
    · split at read
      · rename_i waiting
        simp only [Option.map_eq_some_iff] at read
        obtain ⟨⟨⟨least, most⟩, behind⟩, bounds, read⟩ := read
        obtain ⟨node, last⟩ := Option.isSome_iff_exists.1 waiting
        rw [part_brace last bounds, repeats read]
      · simp at read
    · simp only [Option.map_eq_some_iff, Prod.mk.injEq] at read
      obtain ⟨⟨bracket, behind⟩, opens, rfl, rfl⟩ := read
      obtain ⟨text, rfl, inert, -, -⟩ := bracket?_text opens
      have part : (Reading.of p opened).part length '(' (text ++ behind) =
          (Reading.of p opened).group (text ++ behind) := rfl
      rw [part, group_eq opens (noComment_append inert noComment)]
      simp [Lexeme.opens]
    · simp only [Option.map_eq_some_iff, Prod.mk.injEq] at read
      obtain ⟨⟨s, behind⟩, opens, rfl, rfl⟩ := read
      have flags : (Reading.of p opened).flags.anyCase = false := rfl
      rw [Reading.part, flags, readClass_eq opens]
      rfl
    · obtain ⟨d, text, node, rfl, inert, rfl, reads⟩ := escaped?_text read
      exact escape_eq read
    · cases read
      unfold Reading.part
      split <;> first | contradiction | rfl | skip
      have single : charNode c = .set (.single c) := by
        unfold charNode
        split <;> first | contradiction | rfl
      rw [single]
      rfl

end Part

section Step

variable {x : Lexeme} {p q : Pile}

theorem feed_quantifier {least : Nat} {most : Option Nat} {greedy keeps : Bool} :
    (Lexeme.quantifier least most greedy keeps).feed p = .ok q ↔
      ∃ node, p.level.last = some node ∧ node.repeatable = true ∧ most.any (· < least) = false ∧
        q = ⟨p.level.piece (if keeps then .atomic (.many least most greedy node)
          else .many least most greedy node), p.outer⟩ := by
  rw [Lexeme.feed]
  cases p.level.last with
  | none => simp
  | some node =>
    simp only [Option.some.injEq, exists_eq_left']
    split
    · simp_all
    · split
      · simp_all
      · simp_all only [Except.ok.injEq, Bool.not_eq_true', Bool.not_eq_false, Bool.not_eq_true,
          true_and]
        exact eq_comm

theorem feed_waits (fed : x.feed p = .ok q) : q.level.last.isSome = x.waits := by
  cases x with
  | atom | opening | bar =>
    cases fed
    rfl
  | closing =>
    obtain ⟨level, outer⟩ := p
    cases outer <;> cases fed
    rfl
  | quantifier =>
    obtain ⟨node, -, -, -, rfl⟩ := feed_quantifier.1 fed
    rfl

theorem feed_outer (fed : x.feed p = .ok q) :
    (∃ bracket, x = .opening bracket ∧ q.outer = (bracket, p.level.settle) :: p.outer) ∨
      (x = .closing ∧ ∃ first, p.outer = first :: q.outer) ∨
      (x.opens = false ∧ x ≠ .closing ∧ q.outer = p.outer) := by
  cases x with
  | opening =>
    cases fed
    exact .inl ⟨_, rfl, rfl⟩
  | closing =>
    obtain ⟨level, outer⟩ := p
    cases outer <;> cases fed
    exact .inr (.inl ⟨rfl, _, rfl⟩)
  | atom | bar =>
    cases fed
    exact .inr (.inr ⟨rfl, by simp, rfl⟩)
  | quantifier =>
    obtain ⟨node, -, -, -, rfl⟩ := feed_quantifier.1 fed
    exact .inr (.inr ⟨rfl, by simp, rfl⟩)

theorem feed_depth (fed : x.feed p = .ok q) : q.outer.length = x.depthBehind p.outer.length := by
  rcases feed_outer fed with ⟨bracket, rfl, outer⟩ | ⟨rfl, first, outer⟩ | ⟨noBracket, noClosing, outer⟩
  · rw [outer]
    rfl
  · rw [outer]
    rfl
  · rw [outer]
    cases x with
    | opening => simp [Lexeme.opens] at noBracket
    | closing => exact absurd rfl noClosing
    | _ => rfl

end Step

/-- What lexemes do to the open groups, however deep these nest. -/
def feedAll : List Lexeme → Pile → Except Problem Pile
  | [], p => .ok p
  | x :: xs, p => x.feed p >>= feedAll xs

def feedWithin : List Lexeme → Pile → Except Problem Pile
  | [], p => .ok p
  | x :: xs, p =>
    if x.opens && deepestNesting ≤ p.outer.length then .error .tooDeep
    else x.feed p >>= feedWithin xs

def deepest : (depth : Nat) → List Lexeme → Nat
  | depth, [] => depth
  | depth, x :: xs => max depth (deepest (x.depthBehind depth) xs)

section Read

variable {p q : Pile} {waits : Bool} {cs : List Char} {xs : List Lexeme}

theorem feedAll_append (xs ys : List Lexeme) (p : Pile) :
    feedAll (xs ++ ys) p = feedAll xs p >>= feedAll ys := by
  induction xs generalizing p with
  | nil => rfl
  | cons x xs ih =>
    rw [List.cons_append, feedAll, feedAll, bind_assoc]
    exact congrArg _ (funext ih)

theorem le_deepest (depth : Nat) (xs : List Lexeme) : depth ≤ deepest depth xs := by
  cases xs with
  | nil => exact Nat.le_refl _
  | cons x xs => exact Nat.le_max_left ..

theorem feedWithin_of_feedAll (fed : feedAll xs p = .ok q) (start : p.outer.length ≤ deepestNesting) :
    feedWithin xs p =
      if deepest p.outer.length xs ≤ deepestNesting then .ok q else .error .tooDeep := by
  induction xs generalizing p with
  | nil =>
    cases fed
    rw [deepest, if_pos start, feedWithin]
  | cons x xs ih =>
    obtain ⟨r, first, later⟩ := bind_eq_ok.1 fed
    have depth := feed_depth first
    rw [feedWithin, deepest]
    cases opens : x.opens with
    | true =>
      have deeper : x.depthBehind p.outer.length = p.outer.length + 1 := by
        cases x with
        | opening bracket => rfl
        | _ => simp [Lexeme.opens] at opens
      have reached := le_deepest (x.depthBehind p.outer.length) xs
      have fits : max p.outer.length (deepest (x.depthBehind p.outer.length) xs) ≤ deepestNesting ↔
          deepest (x.depthBehind p.outer.length) xs ≤ deepestNesting := by omega
      by_cases full : deepestNesting ≤ p.outer.length
      · rw [if_pos (by simpa using full), if_neg (by omega)]
      · rw [if_neg (by simpa using full), first]
        simp only [bind, Except.bind, fits]
        rw [ih later (by omega), depth]
    | false =>
      have higher : x.depthBehind p.outer.length ≤ p.outer.length := by
        cases x with
        | opening bracket => simp [Lexeme.opens] at opens
        | closing => exact Nat.sub_le ..
        | _ => exact Nat.le_refl _
      have fits : max p.outer.length (deepest (x.depthBehind p.outer.length) xs) ≤ deepestNesting ↔
          deepest (x.depthBehind p.outer.length) xs ≤ deepestNesting := by omega
      rw [if_neg (by simp), first]
      simp only [bind, Except.bind, fits]
      rw [ih later (by omega), depth]

theorem feedAll_of_feedWithin (fed : feedWithin xs p = .ok q) : feedAll xs p = .ok q := by
  induction xs generalizing p with
  | nil => exact fed
  | cons x xs ih =>
    rw [feedWithin] at fed
    split at fed
    · cases fed
    · obtain ⟨r, first, later⟩ := bind_eq_ok.1 fed
      exact bind_eq_ok.2 ⟨r, first, ih later⟩

theorem Lexes.noComment (lexes : Lexes waits cs xs) : NoComment cs := by
  rintro tail rfl
  cases lexes with
  | cons first later => simp [lexeme?, quantity?, bracket?] at first

theorem feed_keepsFlags {waits : Bool} {c : Char} {rest : List Char} {x : Lexeme}
    (read : lexeme? waits c cs = some (x, rest)) (fed : x.feed p = .ok q) (keeps : p.KeepsFlags) :
    q.KeepsFlags := by
  rcases feed_outer fed with ⟨bracket, rfl, outer⟩ | ⟨-, first, outer⟩ | ⟨-, -, outer⟩
  · obtain ⟨text, rfl, is, -⟩ := lexeme?_text read
    intro entry member
    rw [outer] at member
    rcases List.mem_cons.1 member with rfl | around
    · cases is with
      | opening inert keepsFlags => exact keepsFlags
    · exact keeps entry around
  · intro entry member
    exact keeps entry (outer ▸ List.mem_cons_of_mem _ member)
  · intro entry member
    exact keeps entry (outer ▸ member)

theorem readParts_eq {length fuel opened : Nat} (lexes : Lexes waits cs xs)
    (waiting : waits = p.level.last.isSome) (keeps : p.KeepsFlags) (room : cs.length < fuel) :
    readParts length fuel (Reading.of p opened) cs =
      (feedWithin xs p).map fun q => .of q (xs.foldl Lexeme.openedBehind opened) := by
  induction lexes generalizing p fuel opened with
  | nil waits =>
    obtain ⟨fuel, rfl⟩ := Nat.exists_eq_add_of_le' (Nat.zero_lt_of_lt room)
    rfl
  | @cons waits c cs rest x xs first later ih =>
    obtain ⟨fuel, rfl⟩ := Nat.exists_eq_add_of_le' (Nat.zero_lt_of_lt room)
    have whole : NoComment (c :: cs) := (Lexes.cons first later).noComment
    obtain ⟨text, rfl, -, -⟩ := lexeme?_text first
    subst waiting
    rw [readParts, skip_of whole]
    simp only [bind, Except.bind]
    rw [part_eq first keeps later.noComment, feedWithin]
    cases x.opens && decide (deepestNesting ≤ p.outer.length) with
    | true => rfl
    | false =>
      cases fed : x.feed p with
      | error problem => rfl
      | ok q =>
        refine ih (feed_waits fed).symm (feed_keepsFlags first fed keeps) ?_
        simp only [List.length_cons, List.length_append] at room
        omega

theorem Pile.start_keepsFlags : Pile.start.KeepsFlags := by simp [KeepsFlags, start]

theorem Reading.start_eq : Reading.start = .of .start 0 := rfl

theorem parse_eq (lexes : Lexes false cs xs) :
    Node.parse cs = feedWithin xs .start >>= fun q =>
      if q.outer ≠ [] then .error .unclosedGroup else .ok q.level.node := by
  have names (q : Pile) (opened : Nat) : (Reading.of q opened).checkNames = .ok () := by
    simp [Reading.checkNames, Reading.of]
  rw [Node.parse, Reading.start_eq,
    readParts_eq lexes rfl Pile.start_keepsFlags (Nat.lt_succ_self _)]
  cases feedWithin xs .start with
  | error problem => rfl
  | ok q =>
    simp only [Except.map, bind, Except.bind, names]
    rfl

/-- The lexemes of a source put together to the alternatives of its tree. -/
structure Reads (cs : List Char) (xs : List Lexeme) (level : Level) : Prop where
  lexes : Lexes false cs xs
  fed : feedAll xs .start = .ok ⟨level, []⟩

theorem reads_of_parse (lexes : Lexes false cs xs) {tree : Node} (parsed : Node.parse cs = .ok tree) :
    ∃ level, Reads cs xs level ∧ level.node = tree := by
  rw [parse_eq lexes, bind_eq_ok] at parsed
  obtain ⟨⟨level, outer⟩, fed, ended⟩ := parsed
  split at ended
  · cases ended
  · rename_i closed
    cases ended
    obtain rfl : outer = [] := by simpa using closed
    exact ⟨level, ⟨lexes, feedAll_of_feedWithin fed⟩, rfl⟩

/-- A source is read unless its groups nest deeper than they may. -/
theorem Reads.parse {level : Level} (reads : Reads cs xs level) :
    Node.parse cs = if deepest 0 xs ≤ deepestNesting then .ok level.node else .error .tooDeep := by
  rw [parse_eq reads.lexes, feedWithin_of_feedAll reads.fed (Nat.zero_le _)]
  show (if deepest 0 xs ≤ deepestNesting then _ else _) >>= _ = _
  split <;> rfl

end Read

end ScopeGrammar.Regex
