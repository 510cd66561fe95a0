import ScopeGrammar.Proofs.Fragment.Balanced

/-!
The laws of the combinators on balanced sources. A combinator puts brackets around an operand that
would come apart, and sees by the marks of a source that it is one part already; on balanced sources
what it sees is right, so that brackets are never put around brackets.
-/

set_option autoImplicit false

namespace ScopeGrammar.Fragment

def Balanced (f : Fragment) : Prop := IsBalanced f.source

instance (f : Fragment) : Decidable f.Balanced := inferInstanceAs (Decidable (IsBalanced f.source))

/-- What a combinator makes of operands that it encloses or seals. -/
inductive Composed (Operand : Fragment → Prop) : Fragment → Prop where
  | sequence {parts : List Fragment} (each : ∀ f ∈ parts, Operand f) : Composed Operand (sequence parts)
  | alternative {options : List Fragment} (each : ∀ f ∈ options, Operand f) :
    Composed Operand (alternative options)
  | group {f : Fragment} (operand : Operand f) : Composed Operand f.group
  | capture {f : Fragment} (operand : Operand f) : Composed Operand f.capture
  | lookAhead {f : Fragment} (operand : Operand f) : Composed Operand f.lookAhead
  | negativeLookAhead {f : Fragment} (operand : Operand f) : Composed Operand f.negativeLookAhead
  | lookBehind {f : Fragment} (operand : Operand f) : Composed Operand f.lookBehind
  | negativeLookBehind {f : Fragment} (operand : Operand f) : Composed Operand f.negativeLookBehind

/-- What a combinator of fragments makes of its operands. -/
inductive Combined (Operand : Fragment → Prop) : Fragment → Prop where
  | composed {f : Fragment} (composed : Composed Operand f) : Combined Operand f
  | optional {f : Fragment} (operand : Operand f) : Combined Operand f.optional
  | oneOrMore {f : Fragment} (operand : Operand f) : Combined Operand f.oneOrMore
  | zeroOrMore {f : Fragment} (operand : Operand f) : Combined Operand f.zeroOrMore
  | wholeWord {word wordChar : Fragment} (operand : Operand word) (operand' : Operand wordChar) :
    Combined Operand (wholeWord word wordChar)
  | lastWholeWord {word wordChar : Fragment} (operand : Operand word) (operand' : Operand wordChar) :
    Combined Operand (lastWholeWord word wordChar)

/-- What becomes of a fragment that is grouped, or made the only part of a sequence or the only option
of an alternative, any number of times. -/
inductive Rewrapped (f : Fragment) : Fragment → Prop where
  | self : Rewrapped f f
  | group {g : Fragment} (inner : Rewrapped f g) : Rewrapped f g.group
  | sequence {g : Fragment} (inner : Rewrapped f g) : Rewrapped f (sequence [g])
  | alternative {g : Fragment} (inner : Rewrapped f g) : Rewrapped f (alternative [g])

section Source

variable {cs ds : List Char}

theorem IsBalanced.append (balanced : IsBalanced cs) (behind : IsBalanced ds) : IsBalanced (cs ++ ds) :=
  Leads.append balanced behind

theorem IsBalanced.enclosed (balanced : IsBalanced cs) : IsBalanced ('(' :: cs ++ [')']) :=
  .opening (Leads.append (balanced.inside 1) (.closing (.nil 0)))

theorem hasOpenChoice_enclosed (balanced : IsBalanced cs) :
    hasOpenChoice (marks ('(' :: cs ++ [')'])) = false := by
  have reads : hasOpenChoice (marks ('(' :: cs ++ [')'])) =
      barFrom ⟨0 + 1, none⟩ (marks cs ++ marks [')']) := by
    rw [← marks_append]
    rfl
  rw [reads, balanced.passes.barFrom_eq (deep_group 0)]
  rfl

theorem hasOpenChoice_append (balanced : IsBalanced cs) (ds : List Char) :
    hasOpenChoice (marks (cs ++ ds)) = (hasOpenChoice (marks cs) || hasOpenChoice (marks ds)) := by
  rw [marks_append]
  exact Leads.barFrom_append balanced _

theorem isAtomic_enclosed (balanced : IsBalanced cs) : isAtomic ⟨'(' :: cs ++ [')']⟩ = true := by
  have closes := (isBalanced_iff cs).1 balanced
  cases cs with
  | nil => rfl
  | cons c cs => simpa [isAtomic] using closes

theorem hasOpenChoice_of_isAtomic (atomic : isAtomic ⟨cs⟩ = true) : hasOpenChoice (marks cs) = false := by
  rcases isAtomic_whole atomic with
    ⟨c, rfl, other⟩ | ⟨c, rfl⟩ | ⟨body, rfl, balanced⟩ | ⟨inner, rfl, members⟩
  · have escape : Mark.ofCode c.toNat ≠ .escape :=
      mark_ne (d := '\\') (by decide) (by rintro rfl; simp at other)
    have bar : Mark.ofCode c.toNat ≠ .bar := mark_ne (d := '|') (by decide) (by rintro rfl; simp at other)
    have only : hasOpenChoice (marks [c]) = (Mark.ofCode c.toNat = .bar && Nesting.flat = .flat || false) :=
      barFrom_unit escape ..
    simp [only, bar]
  · rfl
  · exact hasOpenChoice_enclosed balanced
  · rw [marks_class]
    exact members.barFrom_class 0 []

end Source

section Operand

variable {f : Fragment} (balanced : f.Balanced)

include balanced

theorem Balanced.wrapped : f.wrapped.Balanced :=
  IsBalanced.enclosed ((by decide : IsBalanced ['?', ':']).append balanced)

theorem Balanced.hasOpenChoice_wrapped : hasOpenChoice (marks f.wrapped.source) = false :=
  hasOpenChoice_enclosed ((by decide : IsBalanced ['?', ':']).append balanced)

theorem Balanced.isAtomic_wrapped : f.wrapped.isAtomic = true :=
  isAtomic_enclosed ((by decide : IsBalanced ['?', ':']).append balanced)

theorem Balanced.grouped : f.grouped.Balanced := by
  unfold Fragment.grouped
  split
  · exact balanced
  · exact balanced.wrapped

theorem Balanced.isAtomic_grouped : f.grouped.isAtomic = true := by
  unfold Fragment.grouped
  split
  · assumption
  · exact balanced.isAtomic_wrapped

theorem Balanced.sealed : f.sealed.Balanced := by
  unfold Fragment.sealed
  split
  · exact balanced.wrapped
  · exact balanced

theorem Balanced.hasOpenChoice_sealed : hasOpenChoice (marks f.sealed.source) = false := by
  unfold Fragment.sealed
  split
  · exact balanced.hasOpenChoice_wrapped
  · simp_all

theorem Balanced.capture_source :
    ∃ body, f.capture.source = '(' :: body ++ [')'] ∧ IsBalanced body := by
  rcases capture_cases f with ⟨body, -, inside, source⟩ | source
  · exact ⟨body, source, inside⟩
  · exact ⟨f.source, source, balanced⟩

theorem Balanced.capture_grouped : f.grouped.capture = f.capture := by
  unfold Fragment.grouped
  split
  · rfl
  · rename_i whole
    have inner : f.wrapped.capture.source = '(' :: f.source ++ [')'] :=
      capture_of_wrapped rfl balanced.isAtomic_wrapped
    rcases capture_cases f with ⟨body, rfl, inside, -⟩ | source
    · exact absurd (Balanced.isAtomic_wrapped (f := ⟨body⟩) inside) whole
    · exact congrArg Fragment.mk (inner.trans source.symm)

end Operand

structure Settled (f : Fragment) : Prop where
  balanced : f.Balanced
  noChoice : hasOpenChoice (marks f.source) = false

theorem settled_enclosed {cs : List Char} (balanced : IsBalanced cs) : Settled ⟨'(' :: cs ++ [')']⟩ :=
  ⟨IsBalanced.enclosed balanced, hasOpenChoice_enclosed balanced⟩

theorem Balanced.settled_look {f : Fragment} (balanced : f.Balanced) {text : List Char}
    (look : IsBalanced text) : Settled ⟨'(' :: (text ++ f.source) ++ [')']⟩ :=
  settled_enclosed (look.append balanced)

theorem Settled.sealed_eq {f : Fragment} (settled : Settled f) : f.sealed = f := by
  simp [sealed, settled.noChoice]

theorem settled_sequence {parts : List Fragment} (each : ∀ f ∈ parts, f.Balanced) :
    Settled (sequence parts) := by
  induction parts with
  | nil => exact ⟨.nil 0, rfl⟩
  | cons f parts ih =>
    obtain ⟨first, later⟩ := List.forall_mem_cons.1 each
    have rest := ih later
    refine ⟨?_, ?_⟩
    · rw [Balanced, source_sequence_cons]
      exact IsBalanced.append first.sealed rest.balanced
    · rw [source_sequence_cons, hasOpenChoice_append first.sealed, first.hasOpenChoice_sealed, rest.noChoice]
      rfl

theorem balanced_choice {options : List Fragment} (each : ∀ f ∈ options, f.Balanced) :
    IsBalanced (List.intercalate ['|'] (options.map source)) := by
  induction options with
  | nil => exact .nil 0
  | cons f options ih =>
    obtain ⟨first, later⟩ := List.forall_mem_cons.1 each
    cases options with
    | nil =>
      rw [List.map_cons, List.map_nil, List.intercalate_singleton]
      exact first
    | cons g options =>
      rw [List.map_cons, List.map_cons, List.intercalate_cons_cons, ← List.map_cons]
      exact (first.append (by decide : IsBalanced ['|'])).append (ih later)

theorem settled_alternative {options : List Fragment} (each : ∀ f ∈ options, f.Balanced) :
    Settled (alternative options) := by
  unfold alternative
  split
  · rename_i f
    have operand : f.Balanced := each f (List.mem_singleton_self f)
    exact ⟨operand.sealed, operand.hasOpenChoice_sealed⟩
  · exact Balanced.settled_look (f := ⟨_⟩) (balanced_choice each) (by decide : IsBalanced ['?', ':'])

theorem Composed.settled {f : Fragment} (composed : Composed Balanced f) : Settled f := by
  cases composed with
  | sequence each => exact settled_sequence each
  | alternative each => exact settled_alternative each
  | group operand => exact ⟨operand.grouped, hasOpenChoice_of_isAtomic operand.isAtomic_grouped⟩
  | @capture f operand =>
    obtain ⟨body, source, inside⟩ := operand.capture_source
    have enclosed := settled_enclosed inside
    rwa [← source] at enclosed
  | lookAhead operand => exact operand.settled_look (by decide : IsBalanced ['?', '='])
  | negativeLookAhead operand => exact operand.settled_look (by decide : IsBalanced ['?', '!'])
  | lookBehind operand => exact operand.settled_look (by decide : IsBalanced ['?', '<', '='])
  | negativeLookBehind operand => exact operand.settled_look (by decide : IsBalanced ['?', '<', '!'])

theorem Combined.balanced {f : Fragment} (combined : Combined Balanced f) : f.Balanced := by
  have quantified {f : Fragment} (operand : f.Balanced) {c : Char} (mark : IsBalanced [c]) :
      IsBalanced (f.grouped.source ++ [c]) :=
    IsBalanced.append operand.grouped mark
  have whole {word wordChar : Fragment} (operand : word.Balanced) (operand' : wordChar.Balanced) :
      (Fragment.wholeWord word wordChar).Balanced := by
    refine (settled_sequence fun f mem => ?_).balanced
    obtain rfl | rfl | rfl : f = wordChar.negativeLookBehind ∨ f = word.group ∨
        f = wordChar.negativeLookAhead := by simpa using mem
    · exact (Composed.negativeLookBehind operand').settled.balanced
    · exact operand.grouped
    · exact (Composed.negativeLookAhead operand').settled.balanced
  cases combined with
  | composed composed => exact composed.settled.balanced
  | optional operand => exact quantified operand (by decide)
  | oneOrMore operand => exact quantified operand (by decide)
  | zeroOrMore operand => exact quantified operand (by decide)
  | wholeWord operand operand' => exact whole operand operand'
  | lastWholeWord operand operand' => exact (Composed.lookBehind (whole operand operand')).settled.balanced

theorem sequence_singleton (f : Fragment) : sequence [f] = f.sealed :=
  congrArg Fragment.mk (by simp : (sequence [f]).source = f.sealed.source)

theorem Rewrapped.eq_or {f g : Fragment} (rewrapped : Rewrapped f g) (balanced : f.Balanced) :
    g = f ∨ f.isAtomic = false ∧ g = f.wrapped := by
  have settled : Settled f.wrapped := ⟨balanced.wrapped, balanced.hasOpenChoice_wrapped⟩
  have seals : f.sealed = f ∨ f.isAtomic = false ∧ f.sealed = f.wrapped := by
    by_cases choice : hasOpenChoice (marks f.source) = true
    · have apart : ¬f.isAtomic = true := fun atomic => by
        simp [hasOpenChoice_of_isAtomic atomic] at choice
      exact .inr ⟨by simpa using apart, if_pos choice⟩
    · exact .inl (if_neg choice)
  have sealed {g : Fragment} (is : g = f ∨ f.isAtomic = false ∧ g = f.wrapped) :
      g.sealed = f ∨ f.isAtomic = false ∧ g.sealed = f.wrapped := by
    rcases is with rfl | ⟨apart, rfl⟩
    · exact seals
    · exact .inr ⟨apart, settled.sealed_eq⟩
  induction rewrapped with
  | self => exact .inl rfl
  | group inner ih =>
    rcases ih with same | ⟨apart, rfl⟩
    · rw [same]
      by_cases atomic : f.isAtomic = true
      · exact .inl (if_pos atomic)
      · exact .inr ⟨by simpa using atomic, if_neg atomic⟩
    · exact .inr ⟨apart, if_pos balanced.isAtomic_wrapped⟩
  | sequence inner ih =>
    rw [sequence_singleton]
    exact sealed ih
  | alternative inner ih => exact sealed ih

theorem Rewrapped.operand_eq {f g : Fragment} (rewrapped : Rewrapped f g) (balanced : f.Balanced) :
    g.group = f.group ∧ g.capture = f.capture ∧ g.optional = f.optional ∧
      g.oneOrMore = f.oneOrMore ∧ g.zeroOrMore = f.zeroOrMore := by
  have operand : g.grouped = f.grouped ∧ g.capture = f.capture := by
    rcases rewrapped.eq_or balanced with rfl | ⟨apart, rfl⟩
    · exact ⟨rfl, rfl⟩
    · have wraps : f.grouped = f.wrapped := if_neg (by simp [apart])
      exact ⟨(if_pos balanced.isAtomic_wrapped).trans wraps.symm, wraps ▸ balanced.capture_grouped⟩
  obtain ⟨grouped, captured⟩ := operand
  refine ⟨grouped, captured, ?_, ?_, ?_⟩ <;> simp only [optional, oneOrMore, zeroOrMore, grouped]

theorem sequence_append (before behind : List Fragment) :
    (sequence (before ++ behind)).source = (sequence before).source ++ (sequence behind).source := by
  simp [sequence]

theorem sequence_nested (before inner behind : List Fragment) (each : ∀ f ∈ inner, f.Balanced) :
    sequence (before ++ sequence inner :: behind) = sequence (before ++ inner ++ behind) := by
  refine congrArg Fragment.mk (?_ : (sequence _).source = (sequence _).source)
  rw [sequence_append, sequence_append, sequence_append, source_sequence_cons,
    (settled_sequence each).sealed_eq, List.append_assoc]

/-- The laws of the combinators on balanced sources. What they make is balanced, sequences of sequences
are flat, a group inside of another construct is the construct itself, and what encloses or seals its
operands stands alone. However often a source is wrapped, it has at most one pair of brackets more. -/
theorem balanced_laws :
    (∀ f, Combined Balanced f → f.Balanced) ∧
      (∀ a b c : Fragment, a.Balanced → b.Balanced → c.Balanced →
        sequence [a, sequence [b, c]] = sequence [a, b, c] ∧
          sequence [sequence [a, b], c] = sequence [a, b, c]) ∧
      (∀ before inner behind : List Fragment, (∀ f ∈ before ++ inner ++ behind, f.Balanced) →
        sequence (before ++ sequence inner :: behind) = sequence (before ++ inner ++ behind)) ∧
      (∀ before behind : List Fragment,
        sequence (before ++ ⟨[]⟩ :: behind) = sequence (before ++ behind)) ∧
      (∀ f : Fragment, f.Balanced → f.group.group = f.group ∧ f.group.capture = f.capture ∧
        f.group.optional = f.optional ∧ f.group.oneOrMore = f.oneOrMore ∧
          f.group.zeroOrMore = f.zeroOrMore) ∧
      (∀ f, Composed Balanced f → sequence [f] = f ∧ alternative [f] = f) ∧
      ∀ f g : Fragment, f.Balanced → Rewrapped f g → (g = f ∨ g = f.wrapped) ∧ g.group = f.group ∧
        g.capture = f.capture ∧ g.optional = f.optional ∧ g.oneOrMore = f.oneOrMore ∧
          g.zeroOrMore = f.zeroOrMore := by
  refine ⟨fun f combined => combined.balanced, ?_, ?_, ?_, ?_, ?_, ?_⟩
  · intro a b c first second third
    exact ⟨sequence_nested [a] [b, c] [] (by simp [second, third]),
      sequence_nested [] [a, b] [c] (by simp [first, second])⟩
  · intro before inner behind each
    exact sequence_nested before inner behind fun f mem => each f (by simp [mem])
  · intro before behind
    have empty : (sealed ⟨[]⟩).source = [] := rfl
    refine congrArg Fragment.mk (?_ : (sequence _).source = (sequence _).source)
    rw [sequence_append, sequence_append, source_sequence_cons, empty, List.nil_append]
  · intro f balanced
    exact (Rewrapped.self.group).operand_eq balanced
  · intro f composed
    have same := composed.settled.sealed_eq
    exact ⟨(sequence_singleton f).trans same, same⟩
  · intro f g balanced rewrapped
    exact ⟨(rewrapped.eq_or balanced).imp_right And.right, rewrapped.operand_eq balanced⟩

theorem balanced_laws_choice :
    let f : Fragment := ⟨['é', '|', '[', ']', '(', ']', '\\', '(']⟩
    f.Balanced ∧ (lastWholeWord f f.group).Balanced ∧
      sequence [f, sequence [f, f]] = sequence [f, f, f] ∧
      sequence [sequence [f, f], f] = sequence [f, f, f] ∧ f.group.group = f.group ∧
      f.group.capture = f.capture ∧ sequence [f.lookAhead] = f.lookAhead ∧
      (alternative [sequence [f.group]]).capture = f.capture := by
  intro f
  have operand : f.Balanced := by decide
  obtain ⟨balanced, flat, -, -, grouped, alone, rewrapped⟩ := balanced_laws
  have group := balanced _ (.composed (.group operand))
  obtain ⟨right, left⟩ := flat f f f operand operand operand
  obtain ⟨again, captured, -⟩ := grouped f operand
  have twice := rewrapped f _ operand (.alternative (.sequence (.group .self)))
  exact ⟨operand, balanced _ (.lastWholeWord operand group), right, left, again, captured,
    (alone _ (.lookAhead operand)).1, twice.2.2.1⟩

example : (sequence [⟨['a', '|', 'b']⟩, ⟨[]⟩, ⟨['c']⟩]).group.group.optional =
    ⟨['(', '?', ':', '(', '?', ':', 'a', '|', 'b', ')', 'c', ')', '?']⟩ := by decide

end ScopeGrammar.Fragment
