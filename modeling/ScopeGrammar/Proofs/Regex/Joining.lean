import ScopeGrammar.Proofs.Regex.Placing

set_option autoImplicit false

namespace ScopeGrammar.Regex

section Feed

variable {x : Lexeme} {xs : List Lexeme} {q : Pile}

theorem feed_settle {l : Level} {outer : List (Bracket × Level)}
    (noQuantifier : ∀ least most greedy keeps, x ≠ .quantifier least most greedy keeps) :
    x.feed ⟨l, outer⟩ = x.feed ⟨l.settle, outer⟩ := by
  cases x with
  | atom node => simp only [Lexeme.feed, Level.atom, Level.settle_settle]
  | opening bracket => simp only [Lexeme.feed, Level.settle_settle]
  | bar => simp only [Lexeme.feed, Level.bar, Level.current_settle, Level.settle_finished]
  | closing =>
    cases outer with
    | nil => rfl
    | cons first outer => simp only [Lexeme.feed, Level.node_settle]
  | quantifier => exact absurd rfl (noQuantifier _ _ _ _)

theorem feedAll_last {p : Pile} (fed : feedAll xs p = .ok q) (some : xs ≠ []) :
    ∃ x ∈ xs.getLast?, x.waits = q.level.last.isSome := by
  induction xs generalizing p with
  | nil => exact absurd rfl some
  | cons x xs ih =>
    obtain ⟨r, first, later⟩ := bind_eq_ok.1 fed
    cases xs with
    | nil =>
      cases later
      exact ⟨x, rfl, (feed_waits first).symm⟩
    | cons y ys =>
      have same : (x :: y :: ys).getLast? = (y :: ys).getLast? := rfl
      exact same ▸ ih later (by simp)

/-- No bracket among the lexemes closes one of the groups around a place that deep. -/
def stays : (depth : Nat) → List Lexeme → Bool
  | _, [] => true
  | depth, x :: xs => !(x = .closing && depth = 0) && stays (x.depthBehind depth) xs

theorem feed_stays {l : Level} {outer around : List (Bracket × Level)}
    (fed : x.feed ⟨l, outer ++ around⟩ = .ok q) (inner : x = .closing → outer ≠ []) :
    ∃ r, x.feed ⟨l, outer⟩ = .ok r ∧ q = ⟨r.level, r.outer ++ around⟩ := by
  cases x with
  | atom | opening | bar =>
    cases fed
    exact ⟨_, rfl, rfl⟩
  | closing =>
    cases outer with
    | nil => exact absurd rfl (inner rfl)
    | cons first outer =>
      cases fed
      exact ⟨_, rfl, rfl⟩
  | quantifier =>
    obtain ⟨node, last, repeats, ordered, rfl⟩ := feed_quantifier.1 fed
    exact ⟨_, feed_quantifier.2 ⟨node, last, repeats, ordered, rfl⟩, rfl⟩

theorem feedAll_stays {l : Level} {outer around : List (Bracket × Level)}
    (fed : feedAll xs ⟨l, outer ++ around⟩ = .ok q) (inner : stays outer.length xs = true) :
    ∃ r, feedAll xs ⟨l, outer⟩ = .ok r ∧ q = ⟨r.level, r.outer ++ around⟩ := by
  induction xs generalizing l outer with
  | nil =>
    cases fed
    exact ⟨_, rfl, rfl⟩
  | cons x xs ih =>
    obtain ⟨p, first, later⟩ := bind_eq_ok.1 fed
    rw [stays, Bool.and_eq_true] at inner
    obtain ⟨⟨level, outer'⟩, alone, rfl⟩ := feed_stays first (by rintro rfl rfl; simp at inner)
    have depth : outer'.length = x.depthBehind outer.length := feed_depth alone
    obtain ⟨r, rest, rfl⟩ := ih later (depth ▸ inner.2)
    exact ⟨r, bind_eq_ok.2 ⟨_, alone, rest⟩, rfl⟩

end Feed

namespace Reads

variable {cs ds : List Char} {x : Lexeme} {xs ys : List Lexeme} {l m : Level}

theorem first (reads : Reads cs (x :: xs) l) (least : Nat) (most : Option Nat) (greedy keeps : Bool) :
    x ≠ .quantifier least most greedy keeps := by
  rintro rfl
  obtain ⟨r, first, -⟩ := bind_eq_ok.1 reads.fed
  obtain ⟨node, none, -⟩ := feed_quantifier.1 first
  cases none

theorem calm (reads : Reads cs xs l) : Calm cs := by
  have quantifies {c : Char} {rest : List Char} (is : c = '?' ∨ c = '+') :
      ¬ Reads (c :: rest) xs l := by
    intro reads
    cases lexes : reads.lexes with
    | cons first later =>
      rcases is with rfl | rfl <;> cases first <;> exact reads.first _ _ _ _ rfl
  intro c is head
  obtain ⟨rest, rfl⟩ := List.head?_eq_some_iff.1 head
  exact absurd reads (quantifies (by simpa using is))

theorem nil : Reads [] [] .start := ⟨.nil false, rfl⟩

theorem append (first : Reads cs xs l) (second : Reads ds ys m) (noBar : openBar 0 ys = false) :
    ∃ level, Reads (cs ++ ds) (xs ++ ys) level ∧ level.settle = (l.settle.join m).settle := by
  have lexes := first.lexes.append second.lexes (.inl second.calm)
  have fed : feedAll (xs ++ ys) .start = feedAll ys ⟨l, []⟩ := by
    rw [feedAll_append, first.fed]
    rfl
  have base : l.settle.join .start = l.settle := Level.join_start l.settle_last
  cases ys with
  | nil =>
    cases second.fed
    exact ⟨l, ⟨lexes, fed⟩, by rw [base, Level.settle_settle]⟩
  | cons y ys =>
    refine ⟨l.settle.join m, ⟨lexes, ?_⟩, rfl⟩
    have placed := feedAll_place l.settle [] second.fed (.inr noBar)
    rw [fed, feedAll, feed_settle second.first, ← feedAll, ← base]
    exact placed

theorem bar (first : Reads cs xs l) (second : Reads ds ys m) :
    Reads (cs ++ '|' :: ds) (xs ++ .bar :: ys) (l.bar.join m) := by
  have behind : Lexes false ('|' :: ds) (.bar :: ys) := .cons rfl second.lexes
  refine ⟨first.lexes.append behind (.inl (by simp [CalmAs])), ?_⟩
  rw [feedAll_append, first.fed]
  exact feedAll_place l.bar [] second.fed (.inl rfl)

theorem bracketed (reads : Reads cs xs l) (bracket : Bracket) (text : List Char)
    (opens : bracket? (text ++ (cs ++ [')'])) = some (bracket, cs ++ [')'])) :
    Reads ('(' :: text ++ (cs ++ [')'])) (.opening bracket :: (xs ++ [.closing]))
      ⟨[], [], some (bracket.node l.node)⟩ := by
  have closing : Lexes false [')'] [.closing] := .cons rfl (.nil _)
  have inside := reads.lexes.append closing (.inl (by simp [CalmAs]))
  refine ⟨.cons (x := .opening bracket) ?_ inside, ?_⟩
  · simp [lexeme?, quantity?, opens]
  · have placed := feedAll_place .start [(bracket, .start)] reads.fed (.inl rfl)
    have opened : feedAll (.opening bracket :: (xs ++ [.closing])) .start =
        feedAll xs ⟨.start, [(bracket, .start)]⟩ >>= feedAll [.closing] := feedAll_append ..
    rw [place_start, place_start] at placed
    rw [opened]
    exact bind_eq_ok.2 ⟨_, placed, rfl⟩

theorem of_bracketed {bracket : Bracket}
    (reads : Reads cs (.opening bracket :: (ys ++ [.closing])) l) (inner : stays 0 ys = true) :
    ∃ m, feedAll ys .start = .ok ⟨m, []⟩ ∧ l = ⟨[], [], some (bracket.node m.node)⟩ := by
  have opened : feedAll (.opening bracket :: (ys ++ [.closing])) .start =
      feedAll ys ⟨.start, [] ++ [(bracket, .start)]⟩ >>= feedAll [.closing] := feedAll_append ..
  have fed := reads.fed
  rw [opened] at fed
  obtain ⟨p, inside, ended⟩ := bind_eq_ok.1 fed
  obtain ⟨⟨m, outer⟩, alone, rfl⟩ := feedAll_stays inside inner
  cases outer with
  | nil =>
    cases ended
    exact ⟨m, alone, rfl⟩
  | cons first outer =>
    obtain ⟨q, closed, same⟩ := bind_eq_ok.1 ended
    cases same
    cases outer <;> cases closed

theorem quantified {node : Node} (reads : Reads cs xs ⟨[], [], some node⟩)
    (repeats : node.repeatable = true) {least : Nat} {most : Option Nat}
    (ordered : most.any (· < least) = false) {c : Char}
    (is : lexeme? false c [] = some (.quantifier least most true false, [])) :
    Reads (cs ++ [c]) (xs ++ [.quantifier least most true false])
      ⟨[], [.many least most true node], none⟩ := by
  have nonempty : xs ≠ [] := by
    rintro rfl
    cases reads.fed
  obtain ⟨x, last, waits⟩ := feedAll_last reads.fed nonempty
  refine ⟨reads.lexes.append (.cons is (.nil _)) (.inr ⟨x, last, waits⟩), ?_⟩
  have fed : (Lexeme.quantifier least most true false).feed ⟨⟨[], [], some node⟩, []⟩ =
      .ok ⟨⟨[], [.many least most true node], none⟩, []⟩ :=
    feed_quantifier.2 ⟨node, rfl, repeats, ordered, rfl⟩
  rw [feedAll_append, reads.fed]
  show feedAll [.quantifier least most true false] _ = _
  exact bind_eq_ok.2 ⟨_, fed, rfl⟩

end Reads

end ScopeGrammar.Regex
