import ScopeGrammar.Proofs.Regex.Level
import ScopeGrammar.Proofs.Regex.Pile

set_option autoImplicit false

namespace ScopeGrammar.Regex

/-- Open groups in the place of a group that is open with others around it. -/
def place (base : Level) (around : List (Bracket × Level)) : Level → List (Bracket × Level) → Pile
  | level, [] => ⟨base.join level, around⟩
  | level, (bracket, next) :: outer =>
    let below := place base around next outer
    ⟨level, (bracket, below.level) :: below.outer⟩

def outermost : Level → List (Bracket × Level) → Level
  | level, [] => level
  | _, (_, next) :: outer => outermost next outer

def openBar : (depth : Nat) → List Lexeme → Bool
  | _, [] => false
  | depth, x :: xs => (x = .bar && depth = 0) || openBar (x.depthBehind depth) xs

section Place

variable {base level : Level} {around outer : List (Bracket × Level)} {x : Lexeme} {p q : Pile}

theorem place_start (level : Level) (outer : List (Bracket × Level)) :
    place .start around level outer = ⟨level, outer ++ around⟩ := by
  induction outer generalizing level with
  | nil => rw [place, Level.start_join, List.nil_append]
  | cons first outer ih =>
    rw [place, ih]
    rfl

theorem place_level (f : Level → Level)
    (same : outer = [] → f (base.join level) = base.join (f level)) :
    place base around (f level) outer =
      { place base around level outer with level := f (place base around level outer).level } := by
  cases outer with
  | nil => rw [place, place, ← same rfl]
  | cons first outer => rfl

theorem place_last : (place base around level outer).level.last = level.last := by
  cases outer <;> rfl

theorem feed_place (fed : x.feed p = .ok q)
    (alone : x = .bar → p.outer = [] → base.pieces = []) :
    x.feed (place base around p.level p.outer) = .ok (place base around q.level q.outer) := by
  obtain ⟨level, outer⟩ := p
  cases x with
  | atom node =>
    cases fed
    rw [Lexeme.feed, place_level (·.atom node) fun _ => Level.join_atom base level node]
  | opening bracket =>
    cases fed
    rw [Lexeme.feed, place, place_level Level.settle fun _ => Level.join_settle base level]
  | closing =>
    cases outer with
    | nil => cases fed
    | cons first outer =>
      cases fed
      rw [place, Lexeme.feed]
      exact congrArg _ (place_level (fun l => { l with last := some _ }) fun _ => rfl).symm
  | bar =>
    cases fed
    rw [Lexeme.feed, place_level Level.bar fun bottom => Level.join_bar (alone rfl bottom)]
  | quantifier least most greedy keeps =>
    obtain ⟨node, last, repeats, ordered, rfl⟩ := feed_quantifier.1 fed
    refine feed_quantifier.2 ⟨node, place_last.trans last, repeats, ordered, ?_⟩
    exact place_level (·.piece _) fun _ => rfl

theorem feedAll_place (base : Level) (around : List (Bracket × Level)) {xs : List Lexeme}
    (fed : feedAll xs p = .ok q)
    (alone : base.pieces = [] ∨ openBar p.outer.length xs = false) :
    feedAll xs (place base around p.level p.outer) = .ok (place base around q.level q.outer) := by
  induction xs generalizing p with
  | nil =>
    cases fed
    rfl
  | cons x xs ih =>
    obtain ⟨r, first, later⟩ := bind_eq_ok.1 fed
    have depth := feed_depth first
    rw [openBar, Bool.or_eq_false_iff, ← depth] at alone
    refine bind_eq_ok.2 ⟨_, feed_place first fun bar bottom => ?_, ih later (alone.imp_right (·.2))⟩
    rcases alone with empty | ⟨noBar, -⟩
    · exact empty
    · simp [bar, bottom] at noBar

theorem openBar_append {xs : List Lexeme} (fed : feedAll xs p = .ok q) (ys : List Lexeme) :
    openBar p.outer.length (xs ++ ys) = (openBar p.outer.length xs || openBar q.outer.length ys) := by
  induction xs generalizing p with
  | nil =>
    cases fed
    rfl
  | cons x xs ih =>
    obtain ⟨r, first, later⟩ := bind_eq_ok.1 fed
    rw [List.cons_append, openBar, openBar, ← feed_depth first, ih later, Bool.or_assoc]

theorem openBar_concat (noBar : x ≠ .bar) (depth : Nat) (xs : List Lexeme) :
    openBar depth (xs ++ [x]) = openBar depth xs := by
  induction xs generalizing depth with
  | nil => simp [openBar, noBar]
  | cons y ys ih => rw [List.cons_append, openBar, openBar, ih]

theorem openBar_inner {xs : List Lexeme} (fed : feedAll xs p = .ok q) :
    openBar (p.outer.length + 1) xs = false := by
  induction xs generalizing p with
  | nil => rfl
  | cons x xs ih =>
    obtain ⟨r, first, later⟩ := bind_eq_ok.1 fed
    have inner : x = .closing → p.outer.length ≠ 0 := by
      rintro rfl bottom
      obtain ⟨level, outer⟩ := p
      cases List.length_eq_zero_iff.1 bottom
      cases first
    rw [openBar, Lexeme.depthBehind_succ inner, ← feed_depth first, ih later]
    simp

theorem feed_outermost (fed : x.feed p = .ok q) (noBar : x = .bar → p.outer ≠ []) :
    (outermost q.level q.outer).finished = (outermost p.level p.outer).finished := by
  obtain ⟨level, outer⟩ := p
  have inner (f : Level → Level) (same : (f level).finished = level.finished) :
      (outermost (f level) outer).finished = (outermost level outer).finished := by
    cases outer with
    | nil => exact same
    | cons first outer => rfl
  cases x with
  | atom node =>
    cases fed
    exact inner (·.atom node) (Level.settle_finished level)
  | opening bracket =>
    cases fed
    exact inner Level.settle (Level.settle_finished level)
  | closing =>
    cases outer with
    | nil => cases fed
    | cons first outer =>
      cases fed
      cases outer <;> rfl
  | bar =>
    cases fed
    cases outer with
    | nil => exact absurd rfl (noBar rfl)
    | cons first outer => rfl
  | quantifier least most greedy keeps =>
    obtain ⟨node, -, -, -, rfl⟩ := feed_quantifier.1 fed
    exact inner (·.piece _) rfl

theorem feedAll_outermost {xs : List Lexeme} (fed : feedAll xs p = .ok q)
    (noBar : openBar p.outer.length xs = false) :
    (outermost q.level q.outer).finished = (outermost p.level p.outer).finished := by
  induction xs generalizing p with
  | nil =>
    cases fed
    rfl
  | cons x xs ih =>
    obtain ⟨r, first, later⟩ := bind_eq_ok.1 fed
    rw [openBar, Bool.or_eq_false_iff, ← feed_depth first] at noBar
    rw [ih later noBar.2, feed_outermost first]
    intro bar bottom
    simp [bar, bottom] at noBar

end Place

end ScopeGrammar.Regex
