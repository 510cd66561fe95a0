import ScopeGrammar.Proofs.Table
import ScopeGrammar.Repository.Builder

set_option autoImplicit false

namespace ScopeGrammar

def IsNameStart (c : Char) : Prop := 'A' ≤ c ∧ c ≤ 'Z' ∨ 'a' ≤ c ∧ c ≤ 'z' ∨ c = '_'

/-- Letters, digits and underscores with no digit in front, and nothing else. -/
def IsName (name : String) : Prop :=
  ∃ c rest, name.toList = c :: rest ∧ IsNameStart c ∧
    ∀ d ∈ rest, IsNameStart d ∨ '0' ≤ d ∧ d ≤ '9'

theorem isNameStart_iff {c : Char} : (c.isAlpha || c == '_') = true ↔ IsNameStart c := by
  unfold Char.isAlpha Char.isUpper Char.isLower
  simp [IsNameStart, Char.le_def, or_assoc]

theorem isNamePart_iff {c : Char} :
    (c.isAlphanum || c == '_') = true ↔ IsNameStart c ∨ '0' ≤ c ∧ c ≤ '9' := by
  rw [← isNameStart_iff]
  simp [Char.isAlphanum, Char.isDigit, Char.le_def, or_right_comm]

theorem isRuleName_iff {name : String} : isRuleName name = true ↔ IsName name := by
  unfold isRuleName IsName
  cases name.toList with
  | nil => simp
  | cons c rest =>
    simp only [Bool.and_eq_true, List.all_eq_true, isNameStart_iff, isNamePart_iff]
    constructor
    · exact fun name => ⟨c, rest, rfl, name⟩
    · rintro ⟨_, _, ⟨⟩, name⟩
      exact name

theorem not_isName_newline (name : String) : ¬ IsName (name ++ "\n") := by
  rintro ⟨c, rest, text, start, parts⟩
  have behind : '\n' ∈ c :: rest := by rw [← text]; simp
  rcases List.mem_cons.1 behind with rfl | later
  · exact absurd start (by simp [IsNameStart])
  · exact absurd (parts _ later) (by simp [IsNameStart])

namespace Builder

/-- Why a call of `register` fails, if it does. -/
inductive Refused (b : Builder) (name : String) : Defect → Prop
  | malformed (not : ¬ IsName name) : b.Refused name (.badRuleName name)
  | repeated (is : IsName name) (there : name ∈ b.rules.keys) : b.Refused name (.repeatedRule name)

variable {b : Builder} {name : String} {rule : Rule}

theorem tryRegister_cases (b : Builder) (name : String) (rule : Rule) :
    (∃ defect, b.tryRegister name rule = (b, some defect) ∧ b.Refused name defect) ∨
      b.tryRegister name rule = ({ b with rules := b.rules.insert name rule }, none) ∧
        IsName name ∧ name ∉ b.rules.keys := by
  unfold tryRegister
  split
  · rename_i bad
    refine .inl ⟨_, rfl, .malformed fun is => ?_⟩
    simp [isRuleName_iff.2 is] at bad
  · rename_i good
    have is : IsName name := isRuleName_iff.1 (by simpa using good)
    split
    · rename_i held
      exact .inl ⟨_, rfl, .repeated is (Table.contains_iff.1 held)⟩
    · rename_i free
      exact .inr ⟨rfl, is, fun member => free (Table.contains_iff.2 member)⟩

theorem register_eq_error {defect : Defect} (failed : b.register name rule = .error defect) :
    b.tryRegister name rule = (b, some defect) := by
  rcases tryRegister_cases b name rule with ⟨other, left, -⟩ | ⟨left, -⟩
  · rw [register, left, Except.error.injEq] at failed
    rw [left, failed]
  · simp [register, left] at failed

theorem register_eq_error_iff {defect : Defect} :
    b.register name rule = .error defect ↔ b.Refused name defect := by
  rw [register]
  rcases tryRegister_cases b name rule with ⟨other, failed, refused⟩ | ⟨done, is, free⟩
  · rw [failed, Except.error.injEq]
    refine ⟨fun same => same ▸ refused, fun again => ?_⟩
    cases refused with
    | malformed not =>
      cases again with
      | malformed => rfl
      | repeated is => exact absurd is not
    | repeated is =>
      cases again with
      | malformed not => exact absurd is not
      | repeated => rfl
  · rw [done]
    refine ⟨fun failed => by simp at failed, fun refused => ?_⟩
    cases refused with
    | malformed not => exact absurd is not
    | repeated _ there => exact absurd there free

/-- The builder that a call leaves behind, whatever comes of it. -/
def attempt (b : Builder) (call : String × Rule) : Builder := (b.tryRegister call.1 call.2).1

def attempts (b : Builder) (calls : List (String × Rule)) : Builder := calls.foldl attempt b

theorem attempts_append_single (calls : List (String × Rule)) (call : String × Rule) :
    b.attempts (calls ++ [call]) = (b.attempts calls).attempt call := by
  simp [attempts]

theorem metadata_attempt (b : Builder) (call : String × Rule) :
    (b.attempt call).metadata = b.metadata := by
  rcases tryRegister_cases b call.1 call.2 with ⟨_, failed, -⟩ | ⟨done, -⟩
  · rw [attempt, failed]
  · rw [attempt, done]

theorem get?_attempt (b : Builder) (call : String × Rule) (name : String) :
    (b.attempt call).rules.get? name =
      (b.rules.get? name).or (if isRuleName name ∧ name = call.1 then some call.2 else none) := by
  rw [attempt]
  rcases tryRegister_cases b call.1 call.2 with ⟨_, failed, refused⟩ | ⟨done, is, free⟩
  · rw [failed]
    cases held : b.rules.get? name with
    | some rule => rfl
    | none =>
      refine (if_neg fun ⟨is, same⟩ => ?_).symm
      subst same
      cases refused with
      | malformed not => exact not (isRuleName_iff.1 is)
      | repeated _ there => simpa [Table.contains, held] using Table.contains_iff.2 there
  · rw [done, Table.get?_insert]
    by_cases same : name = call.1
    · subst same
      have none : b.rules.get? call.1 = none := by
        simpa [Table.contains] using fun held => free (Table.contains_iff.1 held)
      simp [none, isRuleName_iff.2 is]
    · simp [same]

theorem metadata_attempts (b : Builder) (calls : List (String × Rule)) :
    (b.attempts calls).metadata = b.metadata := by
  induction calls generalizing b with
  | nil => rfl
  | cons call rest ih => rw [attempts, List.foldl_cons, ← attempts, ih, metadata_attempt]

theorem get?_attempts (b : Builder) (calls : List (String × Rule)) (name : String) :
    (b.attempts calls).rules.get? name =
      (b.rules.get? name).or (if isRuleName name then calls.lookup name else none) := by
  induction calls generalizing b with
  | nil => simp [attempts]
  | cons call rest ih =>
    rw [attempts, List.foldl_cons, ← attempts, ih, get?_attempt, lookup_cons_entry, Option.or_assoc]
    by_cases same : name = call.1
    · subst same
      by_cases is : isRuleName call.1 = true <;> simp [is]
    · simp [same]

theorem mem_names_attempts {metadata : Metadata} {calls : List (String × Rule)}
    (member : name ∈ ((new metadata).attempts calls).rules.keys) :
    IsName name ∧ name ∈ calls.map (·.1) := by
  obtain ⟨rule, held⟩ := Option.isSome_iff_exists.1 (Table.contains_iff.2 member)
  rw [get?_attempts] at held
  by_cases is : isRuleName name = true
  · refine ⟨isRuleName_iff.1 is, lookup_isSome_iff.1 ?_⟩
    rw [show calls.lookup name = some rule by simpa [is, new] using held]
    rfl
  · simp [is, new] at held

theorem registerAll_none_iff {calls : List (String × Rule)} :
    (b.registerAll calls).2 = none ↔
      (∀ call ∈ calls, IsName call.1 ∧ call.1 ∉ b.rules.keys) ∧ (calls.map (·.1)).Nodup := by
  induction calls generalizing b with
  | nil => simp [registerAll]
  | cons call rest ih =>
    obtain ⟨name, rule⟩ := call
    rw [registerAll]
    rcases tryRegister_cases b name rule with ⟨defect, failed, refused⟩ | ⟨done, is, free⟩
    · rw [failed]
      refine ⟨fun none => by simp at none, fun fit => ?_⟩
      have first := fit.1 (name, rule) (by simp)
      cases refused with
      | malformed not => exact absurd first.1 not
      | repeated _ there => exact absurd there first.2
    · have keys (other : String) :
          other ∈ (b.rules.insert name rule).keys ↔ other = name ∨ other ∈ b.rules.keys := by
        rw [← Table.contains_iff, ← Table.contains_iff, Table.contains, Table.contains,
          Table.get?_insert]
        by_cases same : other = name <;> simp [same]
      rw [done]
      simp only [ih, keys, List.forall_mem_cons, List.map_cons, List.nodup_cons, List.mem_map,
        is, free, not_or]
      constructor
      · rintro ⟨fit, once⟩
        have later : ∀ call ∈ rest, IsName call.1 ∧ call.1 ∉ b.rules.keys :=
          fun call member => ⟨(fit call member).1, (fit call member).2.2⟩
        refine ⟨⟨⟨trivial, not_false⟩, later⟩, ?_, once⟩
        rintro ⟨call, member, same⟩
        exact (fit call member).2.1 same
      · rintro ⟨⟨-, fit⟩, fresh, once⟩
        exact ⟨fun call member => ⟨(fit call member).1, fun same => fresh ⟨call, member, same⟩,
          (fit call member).2⟩, once⟩

theorem registerAll_eq_attempts {calls : List (String × Rule)}
    (all : (b.registerAll calls).2 = none) : (b.registerAll calls).1 = b.attempts calls := by
  induction calls generalizing b with
  | nil => rfl
  | cons call rest ih =>
    obtain ⟨name, rule⟩ := call
    rw [registerAll] at all ⊢
    rcases tryRegister_cases b name rule with ⟨defect, failed, -⟩ | ⟨done, -⟩
    · simp [failed] at all
    · rw [done] at all ⊢
      rw [ih all, attempts, attempts, List.foldl_cons, attempt, done]

theorem registerAll_of_none {entries : List (String × Rule)}
    (all : (b.registerAll entries).2 = none) :
    (b.registerAll entries).1 =
      { b with rules := entries.foldl (fun t entry => t.insert entry.1 entry.2) b.rules } := by
  induction entries generalizing b with
  | nil => rfl
  | cons entry rest ih =>
    obtain ⟨name, rule⟩ := entry
    rw [registerAll] at all ⊢
    rcases tryRegister_cases b name rule with ⟨defect, failed, -⟩ | ⟨done, -⟩
    · simp [failed] at all
    · rw [done] at all ⊢
      exact ih all

theorem registerAll_perm {calls others : List (String × Rule)} (order : calls.Perm others)
    (all : (b.registerAll calls).2 = none) : b.registerAll others = b.registerAll calls := by
  obtain ⟨fit, once⟩ := registerAll_none_iff.1 all
  have all' : (b.registerAll others).2 = none :=
    registerAll_none_iff.2 ⟨fun call member => fit call (order.mem_iff.2 member),
      (order.map _).nodup_iff.1 once⟩
  have rules : (b.attempts others).rules = (b.attempts calls).rules :=
    Table.eq_of_get? fun name => by rw [get?_attempts, get?_attempts, lookup_perm order once]
  refine Prod.ext ?_ (all'.trans all.symm)
  rw [registerAll_eq_attempts all', registerAll_eq_attempts all]
  generalize one : b.attempts others = s, two : b.attempts calls = t at rules
  have metadata : s.metadata = t.metadata := by
    rw [← one, ← two, metadata_attempts, metadata_attempts]
  cases s; cases t
  simp_all

/-- Under a name there is the rule of the first call with it, and nothing under what is no name. A
call fails for what is no name and for a name that is there, and leaves the builder as it was. Calls
that all succeed do so in every order, and what is built with an entry is the same. -/
theorem register_first_wins (metadata : Metadata) (calls : List (String × Rule)) :
    ((new metadata).attempts calls).metadata = metadata ∧
      (∀ name rule, ((new metadata).attempts calls).rules.get? name = some rule ↔
        IsName name ∧ calls.lookup name = some rule) ∧
      (∀ name rule defect, ((new metadata).attempts calls).register name rule = .error defect ↔
        ¬ IsName name ∧ defect = .badRuleName name ∨
          IsName name ∧ ((new metadata).attempts calls).contains name ∧
            defect = .repeatedRule name) ∧
      (∀ name rule defect, ((new metadata).attempts calls).register name rule = .error defect →
        ((new metadata).attempts calls).tryRegister name rule =
            ((new metadata).attempts calls, some defect) ∧
          (new metadata).attempts (calls ++ [(name, rule)]) = (new metadata).attempts calls) ∧
      ∀ others, calls.Perm others → ((new metadata).registerAll calls).2 = none →
        ((new metadata).registerAll others).2 = none ∧
          ∀ entry, ((new metadata).registerAll others).1.build entry =
            ((new metadata).registerAll calls).1.build entry := by
  refine ⟨metadata_attempts _ _, fun name rule => ?_, fun name rule defect => ?_,
    fun name rule defect failed => ?_, fun others order all => ?_⟩
  · rw [get?_attempts, ← isRuleName_iff]
    by_cases is : isRuleName name = true <;> simp [is, new]
  · rw [register_eq_error_iff]
    constructor
    · intro refused
      cases refused with
      | malformed not => exact .inl ⟨not, rfl⟩
      | repeated is there => exact .inr ⟨is, Table.contains_iff.2 there, rfl⟩
    · rintro (⟨not, rfl⟩ | ⟨is, held, rfl⟩)
      · exact .malformed not
      · exact .repeated is (Table.contains_iff.1 held)
  · have left := register_eq_error failed
    exact ⟨left, by rw [attempts_append_single, attempt, left]⟩
  · rw [registerAll_perm order all]
    exact ⟨all, fun entry => rfl⟩

def turns : List (String × Rule) :=
  [("ping", .anyOf [.reference "pong"]), ("pong", .anyOf [.reference "ping"])]

theorem register_first_wins_turns :
    ((new default).attempts (turns ++ [("ping", .placeholder)])).rules.get? "ping" =
        some (.anyOf [.reference "pong"]) ∧
      ((new default).attempts turns).register "ping" .placeholder =
        .error (.repeatedRule "ping") ∧
      ((new default).attempts turns).register "ping\n" .placeholder =
        .error (.badRuleName "ping\n") ∧
      ((new default).registerAll turns.reverse).1.build [.reference "ping"] =
        ((new default).registerAll turns).1.build [.reference "ping"] := by
  obtain ⟨-, held, failed, kept, order⟩ := register_first_wins default turns
  have is : IsName "ping" := isRuleName_iff.1 (by decide)
  have first := (held "ping" _).2 ⟨is, rfl⟩
  have there : ((new default).attempts turns).contains "ping" = true := by
    simp [contains, Table.contains, first]
  have again := (failed "ping" .placeholder _).2 (.inr ⟨is, there, rfl⟩)
  refine ⟨?_, again, (failed _ _ _).2 (.inl ⟨not_isName_newline "ping", rfl⟩), ?_⟩
  · rw [(kept _ _ _ again).2, first]
  · exact (order _ (List.reverse_perm _).symm (by decide +kernel)).2 _

end Builder

end ScopeGrammar
