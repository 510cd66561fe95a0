import ScopeGrammar.Scan.Line

set_option autoImplicit false

namespace ScopeGrammar.Scan

open Regex (Found)

structure Offer where
  choice : Choice
  pattern : Fragment

def offers (rules : Rules) (ctx : Context) : List Offer :=
  (ctx.closing.toList.map fun closing => ⟨.close, closing⟩) ++
    (candidates rules ctx.site ctx.children).map fun c => ⟨.apply c, c.leaf.pattern⟩

theorem offers_cases {rules : Rules} {ctx : Context} {o : Offer} (member : o ∈ offers rules ctx) :
    (o.choice = .close ∧ ctx.closing = some o.pattern) ∨
      ∃ c ∈ candidates rules ctx.site ctx.children,
        o.choice = .apply c ∧ o.pattern = c.leaf.pattern := by
  rcases List.mem_append.1 member with close | apply
  · obtain ⟨closing, there, rfl⟩ := List.mem_map.1 close
    exact .inl ⟨rfl, Option.mem_toList.1 there⟩
  · obtain ⟨c, there, rfl⟩ := List.mem_map.1 apply
    exact .inr ⟨c, there, rfl, rfl⟩

/-- The earliest find among offers and what has been found before. -/
def survey (search : Search) (pos : Nat) :
    Option (Choice × Found) → List Offer → Except Defect (Option (Choice × Found))
  | best, [] => .ok best
  | best, offer :: rest => do
    let found ← search offer.pattern pos
    survey search pos (earlier best offer.choice found) rest

variable {search : Search} {pos : Nat}

theorem earliest_eq_survey (best : Option (Choice × Found)) (cs : List Candidate) :
    earliest search pos best cs =
      survey search pos best (cs.map fun c => ⟨.apply c, c.leaf.pattern⟩) := by
  induction cs generalizing best with
  | nil => rfl
  | cons c cs ih =>
    simp only [earliest, survey, List.map_cons]
    cases search c.leaf.pattern pos with
    | error defect => rfl
    | ok found => exact ih _

theorem choose_eq_survey (rules : Rules) (ctx : Context) :
    choose search rules ctx pos = survey search pos none (offers rules ctx) := by
  unfold choose offers
  cases ctx.closing with
  | none => exact earliest_eq_survey none _
  | some closing =>
    simp only [Option.toList_some, List.map_cons, List.map_nil, List.cons_append, List.nil_append,
      survey]
    cases search closing pos with
    | error defect => rfl
    | ok found => exact earliest_eq_survey _ _

def Offer.After (search : Search) (pos start : Nat) (offer : Offer) : Prop :=
  ∀ found, search offer.pattern pos = .ok (some found) → start < found.whole.start

def Offer.NotBefore (search : Search) (pos start : Nat) (offer : Offer) : Prop :=
  ∀ found, search offer.pattern pos = .ok (some found) → start ≤ found.whole.start

theorem earlier_cases (best : Option (Choice × Found)) (choice : Choice) (answer : Option Found) :
    (earlier best choice answer = best ∧ ∀ found, answer = some found →
      ∃ other, best = some other ∧ other.2.whole.start ≤ found.whole.start) ∨
    ∃ found, answer = some found ∧ earlier best choice answer = some (choice, found) ∧
      ∀ other, best = some other → found.whole.start < other.2.whole.start := by
  cases answer with
  | none => exact .inl ⟨rfl, by simp⟩
  | some found =>
    cases best with
    | none => exact .inr ⟨found, rfl, rfl, by simp⟩
    | some other =>
      rcases Nat.lt_or_ge found.whole.start other.2.whole.start with lt | ge
      · refine .inr ⟨found, rfl, if_pos lt, ?_⟩
        rintro _ ⟨⟩
        exact lt
      · refine .inl ⟨if_neg (Nat.not_lt_of_le ge), ?_⟩
        rintro _ ⟨⟩
        exact ⟨other, rfl, ge⟩

theorem survey_cons {best result : Option (Choice × Found)} {offer : Offer} {os : List Offer}
    (taken : survey search pos best (offer :: os) = .ok result) :
    ∃ answer, search offer.pattern pos = .ok answer ∧
      survey search pos (earlier best offer.choice answer) os = .ok result := by
  simp only [survey] at taken
  cases asked : search offer.pattern pos with
  | error defect => simp [asked, bind, Except.bind] at taken
  | ok answer =>
    rw [asked] at taken
    exact ⟨answer, rfl, taken⟩

theorem survey_some {best : Option (Choice × Found)} {os : List Offer} {choice : Choice}
    {found : Found} (taken : survey search pos best os = .ok (some (choice, found))) :
    (best = some (choice, found) ∧ ∀ o ∈ os, o.NotBefore search pos found.whole.start) ∨
    ∃ before f after, os = before ++ ⟨choice, f⟩ :: after ∧ search f pos = .ok (some found) ∧
      (∀ other, best = some other → found.whole.start < other.2.whole.start) ∧
      (∀ o ∈ before, o.After search pos found.whole.start) ∧
      ∀ o ∈ after, o.NotBefore search pos found.whole.start := by
  induction os generalizing best with
  | nil =>
    simp only [survey, Except.ok.injEq] at taken
    exact .inl ⟨taken, by simp⟩
  | cons offer os ih =>
    obtain ⟨answer, asked, rest⟩ := survey_cons taken
    have answers {other : Found} (found : search offer.pattern pos = .ok (some other)) :
        answer = some other := Except.ok.inj (asked.symm.trans found)
    rcases ih rest with ⟨kept, later⟩ | ⟨before, f, after, split, here, better, front, back⟩
    · rcases earlier_cases best offer.choice answer with ⟨same, behind⟩ | ⟨first, is, same, better⟩
      · rw [same] at kept
        refine .inl ⟨kept, List.forall_mem_cons.2 ⟨fun other found => ?_, later⟩⟩
        obtain ⟨old, held, le⟩ := behind other (answers found)
        rw [kept] at held
        cases held
        exact le
      · rw [same] at kept
        cases kept
        exact .inr ⟨[], offer.pattern, os, rfl, asked.trans (congrArg _ is), better, by simp, later⟩
    · refine .inr ⟨offer :: before, f, after, by rw [split]; rfl, here, fun old held => ?_,
        List.forall_mem_cons.2 ⟨fun other found => ?_, front⟩, back⟩
      · rcases earlier_cases best offer.choice answer with ⟨same, -⟩ | ⟨first, -, same, better'⟩
        · exact better old (same.trans held)
        · exact Nat.lt_trans (better _ same) (better' old held)
      · rcases earlier_cases best offer.choice answer with ⟨same, behind⟩ | ⟨first, is, same, -⟩
        · obtain ⟨old, held, le⟩ := behind other (answers found)
          exact Nat.lt_of_lt_of_le (better old (same.trans held)) le
        · cases is.symm.trans (answers found)
          exact better _ same

theorem survey_none {best : Option (Choice × Found)} {os : List Offer}
    (nothing : survey search pos best os = .ok none) :
    best = none ∧ ∀ o ∈ os, search o.pattern pos = .ok none := by
  induction os generalizing best with
  | nil => simpa [survey] using nothing
  | cons offer os ih =>
    obtain ⟨answer, asked, rest⟩ := survey_cons nothing
    obtain ⟨no, later⟩ := ih rest
    rcases earlier_cases best offer.choice answer with ⟨same, behind⟩ | ⟨first, -, same, -⟩
    · have none := same.symm.trans no
      cases answer with
      | none => exact ⟨none, List.forall_mem_cons.2 ⟨asked, later⟩⟩
      | some found =>
        obtain ⟨old, held, -⟩ := behind found rfl
        rw [none] at held
        cases held
    · rw [same] at no
      cases no

theorem survey_least {os : List Offer} {best : Option (Choice × Found)}
    (taken : survey search pos none os = .ok best) {o : Offer} (member : o ∈ os) {found : Found}
    (answered : search o.pattern pos = .ok (some found)) :
    ∃ other, best = some other ∧ other.2.whole.start ≤ found.whole.start := by
  cases best with
  | none => cases ((survey_none taken).2 o member).symm.trans answered
  | some other =>
    refine ⟨other, rfl, ?_⟩
    rcases survey_some taken with ⟨no, -⟩ | ⟨before, f, after, split, here, -, front, back⟩
    · cases no
    rw [split] at member
    rcases List.mem_append.1 member with earlier | rest
    · exact Nat.le_of_lt (front o earlier found answered)
    · rcases List.mem_cons.1 rest with rfl | later
      · cases here.symm.trans answered
        exact Nat.le_refl _
      · exact back o later found answered

theorem survey_ok {os : List Offer} (answered : ∀ o ∈ os, ∃ result, search o.pattern pos = .ok result)
    (best : Option (Choice × Found)) : ∃ result, survey search pos best os = .ok result := by
  induction os generalizing best with
  | nil => exact ⟨best, rfl⟩
  | cons offer os ih =>
    obtain ⟨result, asked⟩ := answered offer (by simp)
    obtain ⟨rest, all⟩ := ih (fun o member => answered o (by simp [member]))
      (earlier best offer.choice result)
    exact ⟨rest, by rw [survey, asked]; exact all⟩

theorem survey_answered {os : List Offer} {best result : Option (Choice × Found)}
    (taken : survey search pos best os = .ok result) :
    ∀ o ∈ os, ∃ answer, search o.pattern pos = .ok answer := by
  induction os generalizing best with
  | nil => simp
  | cons offer os ih =>
    obtain ⟨answer, asked, later⟩ := survey_cons taken
    exact List.forall_mem_cons.2 ⟨⟨answer, asked⟩, ih later⟩

theorem survey_error {os : List Offer} {best : Option (Choice × Found)} {defect : Defect}
    (failed : survey search pos best os = .error defect) :
    ∃ o ∈ os, search o.pattern pos = .error defect := by
  induction os generalizing best with
  | nil => simp [survey] at failed
  | cons offer os ih =>
    cases asked : search offer.pattern pos with
    | error problem =>
      rw [survey, asked] at failed
      cases failed
      exact ⟨offer, List.mem_cons_self .., asked⟩
    | ok answer =>
      rw [survey, asked] at failed
      obtain ⟨o, member, unanswered⟩ := ih failed
      exact ⟨o, List.mem_cons_of_mem _ member, unanswered⟩

theorem survey_congr {other : Search} {os : List Offer}
    (agree : ∀ o ∈ os, search o.pattern pos = other o.pattern pos)
    (best : Option (Choice × Found)) :
    survey search pos best os = survey other pos best os := by
  induction os generalizing best with
  | nil => rfl
  | cons offer os ih =>
    obtain ⟨first, rest⟩ := List.forall_mem_cons.1 agree
    simp only [survey, first, ih rest]

theorem survey_append (best : Option (Choice × Found)) (os more : List Offer) :
    survey search pos best (os ++ more) =
      survey search pos best os >>= fun best => survey search pos best more := by
  induction os generalizing best with
  | nil => rfl
  | cons offer os ih =>
    rw [List.cons_append, survey, survey]
    cases search offer.pattern pos with
    | error defect => rfl
    | ok found => exact ih _

theorem survey_idle {best : Option (Choice × Found)} {os : List Offer}
    (idle : ∀ o ∈ os, ∃ answer, search o.pattern pos = .ok answer ∧ ∀ found, answer = some found →
      ∃ other, best = some other ∧ other.2.whole.start ≤ found.whole.start) :
    survey search pos best os = .ok best := by
  induction os with
  | nil => rfl
  | cons offer os ih =>
    obtain ⟨⟨answer, asked, late⟩, later⟩ := List.forall_mem_cons.1 idle
    have same : earlier best offer.choice answer = best := by
      rcases earlier_cases best offer.choice answer with ⟨same, -⟩ | ⟨found, is, -, better⟩
      · exact same
      · obtain ⟨other, held, le⟩ := late found is
        exact absurd le (Nat.not_le_of_lt (better other held))
    rw [survey, asked]
    exact (congrArg (survey search pos · os) same).trans (ih later)

section Choices

variable (κ : Choice → Choice)

def mapFind (find : Choice × Found) : Choice × Found := (κ find.1, find.2)

def Offer.map (o : Offer) : Offer := ⟨κ o.choice, o.pattern⟩

theorem earlier_map (best : Option (Choice × Found)) (choice : Choice) (answer : Option Found) :
    earlier (best.map (mapFind κ)) (κ choice) answer =
      (earlier best choice answer).map (mapFind κ) := by
  cases answer with
  | none => rfl
  | some found =>
    cases best with
    | none => rfl
    | some other =>
      simp only [earlier, Option.map_some, mapFind]
      split <;> rfl

theorem survey_map (best : Option (Choice × Found)) (os : List Offer) :
    survey search pos (best.map (mapFind κ)) (os.map (Offer.map κ)) =
      (survey search pos best os).map (Option.map (mapFind κ)) := by
  induction os generalizing best with
  | nil => rfl
  | cons o os ih =>
    rw [List.map_cons, survey, survey, Offer.map]
    cases search o.pattern pos with
    | error defect => rfl
    | ok found =>
      simp only [bind, Except.bind]
      rw [earlier_map, ih]

end Choices

theorem choose_some {rules : Rules} {ctx : Context} {choice : Choice} {found : Found}
    (taken : choose search rules ctx pos = .ok (some (choice, found))) :
    ∃ before f after, offers rules ctx = before ++ ⟨choice, f⟩ :: after ∧
      search f pos = .ok (some found) ∧
      (∀ o ∈ before, o.After search pos found.whole.start) ∧
      ∀ o ∈ after, o.NotBefore search pos found.whole.start := by
  rw [choose_eq_survey] at taken
  rcases survey_some taken with ⟨no, -⟩ | ⟨before, f, after, split, here, -, front, back⟩
  · simp at no
  · exact ⟨before, f, after, split, here, front, back⟩

theorem offer_of_choose {rules : Rules} {ctx : Context} {choice : Choice} {found : Found}
    (taken : choose search rules ctx pos = .ok (some (choice, found))) :
    ∃ o ∈ offers rules ctx, o.choice = choice ∧ search o.pattern pos = .ok (some found) := by
  obtain ⟨before, f, after, split, here, -⟩ := choose_some taken
  exact ⟨⟨choice, f⟩, by simp [split], rfl, here⟩

theorem candidate_of_choose {rules : Rules} {ctx : Context} {candidate : Candidate} {found : Found}
    (taken : choose search rules ctx pos = .ok (some (.apply candidate, found))) :
    candidate ∈ candidates rules ctx.site ctx.children ∧
      search candidate.leaf.pattern pos = .ok (some found) := by
  obtain ⟨o, there, same, answered⟩ := offer_of_choose taken
  rcases offers_cases there with ⟨close, -⟩ | ⟨other, member, apply, pattern⟩
  · simp [close] at same
  · rw [apply] at same
    cases same
    exact ⟨member, pattern ▸ answered⟩

theorem choose_front {rules : Rules} {ctx : Context} {choice : Choice} {found : Found}
    (front : List Offer) {back : List Offer} (split : offers rules ctx = front ++ back)
    (taken : choose search rules ctx pos = .ok (some (choice, found))) :
    (∃ o ∈ front, o.choice = choice ∧ search o.pattern pos = .ok (some found)) ∨
      ((∃ o ∈ back, o.choice = choice ∧ search o.pattern pos = .ok (some found)) ∧
        ∀ o ∈ front, o.After search pos found.whole.start) := by
  obtain ⟨before, f, after, same, here, behind, -⟩ := choose_some taken
  rw [split] at same
  rcases List.append_eq_append_iff.1 same with ⟨rest, rfl, rfl⟩ | ⟨rest, rfl, inFront⟩
  · exact .inr ⟨⟨⟨choice, f⟩, by simp, rfl, here⟩, fun o member => behind o (by simp [member])⟩
  · cases rest with
    | nil =>
      simp only [List.nil_append] at inFront
      refine .inr ⟨⟨⟨choice, f⟩, by simp [← inFront], rfl, here⟩, fun o member => ?_⟩
      exact behind o (by simpa using member)
    | cons first rest =>
      simp only [List.cons_append, List.cons.injEq] at inFront
      exact .inl ⟨⟨choice, f⟩, by simp [← inFront.1], rfl, here⟩

theorem choose_least {rules : Rules} {ctx : Context} {choice : Choice} {found : Found}
    (taken : choose search rules ctx pos = .ok (some (choice, found))) :
    ∀ o ∈ offers rules ctx, o.NotBefore search pos found.whole.start := by
  intro o member other answered
  rw [choose_eq_survey] at taken
  obtain ⟨_, held, le⟩ := survey_least taken member answered
  cases held
  exact le

theorem choose_none {rules : Rules} {ctx : Context}
    (nothing : choose search rules ctx pos = .ok none) :
    ∀ o ∈ offers rules ctx, search o.pattern pos = .ok none := by
  rw [choose_eq_survey] at nothing
  exact (survey_none nothing).2

theorem choose_ok {rules : Rules} {ctx : Context}
    (answered : ∀ o ∈ offers rules ctx, ∃ result, search o.pattern pos = .ok result) :
    ∃ result, choose search rules ctx pos = .ok result := by
  rw [choose_eq_survey]
  exact survey_ok answered none

theorem choose_answered {rules : Rules} {ctx : Context} {result : Option (Choice × Found)}
    (taken : choose search rules ctx pos = .ok result) :
    ∀ o ∈ offers rules ctx, ∃ answer, search o.pattern pos = .ok answer := by
  rw [choose_eq_survey] at taken
  exact survey_answered taken

theorem choose_none_iff {rules : Rules} {ctx : Context} :
    choose search rules ctx pos = .ok none ↔
      ∀ o ∈ offers rules ctx, search o.pattern pos = .ok none := by
  refine ⟨choose_none, fun silent => ?_⟩
  rw [choose_eq_survey]
  exact survey_idle fun o member => ⟨none, silent o member, by simp⟩

theorem choose_some_iff {rules : Rules} {ctx : Context} {choice : Choice} {found : Found} :
    choose search rules ctx pos = .ok (some (choice, found)) ↔
      (∀ o ∈ offers rules ctx, ∃ answer, search o.pattern pos = .ok answer) ∧
      ∃ before f after, offers rules ctx = before ++ ⟨choice, f⟩ :: after ∧
        search f pos = .ok (some found) ∧
        (∀ o ∈ before, o.After search pos found.whole.start) ∧
        ∀ o ∈ after, o.NotBefore search pos found.whole.start := by
  refine ⟨fun taken => ⟨choose_answered taken, choose_some taken⟩, ?_⟩
  rintro ⟨answered, before, f, after, split, here, front, back⟩
  rw [split, List.forall_mem_append, List.forall_mem_cons] at answered
  obtain ⟨answered, -, answered'⟩ := answered
  obtain ⟨best, first⟩ := survey_ok answered none
  have better : ∀ other, best = some other → found.whole.start < other.2.whole.start := by
    rintro ⟨choice', other⟩ rfl
    rcases survey_some first with ⟨no, -⟩ | ⟨front', f', back', inside, answer, -⟩
    · cases no
    · exact front ⟨choice', f'⟩ (by simp [inside]) other answer
  have chosen : earlier best choice (some found) = some (choice, found) := by
    cases best with
    | none => rfl
    | some other => exact if_pos (better other rfl)
  rw [choose_eq_survey, split, survey_append, first]
  simp only [bind, Except.bind]
  rw [survey, here]
  simp only [bind, Except.bind]
  rw [chosen]
  refine survey_idle fun o member => ?_
  obtain ⟨answer, asked⟩ := answered' o member
  refine ⟨answer, asked, ?_⟩
  rintro other rfl
  exact ⟨_, rfl, back o member other asked⟩

/-- What is chosen among offers that have all been answered: nothing where none has a match, and
otherwise the first of those whose match starts earliest. -/
def Selects (search : Search) (pos : Nat) (os : List Offer) : Option (Choice × Found) → Prop
  | none => ∀ o ∈ os, search o.pattern pos = .ok none
  | some (choice, found) =>
    (∀ o ∈ os, ∃ answer, search o.pattern pos = .ok answer) ∧
      ∃ before f after, os = before ++ ⟨choice, f⟩ :: after ∧
        search f pos = .ok (some found) ∧
        (∀ o ∈ before, o.After search pos found.whole.start) ∧
        ∀ o ∈ after, o.NotBefore search pos found.whole.start

theorem choose_eq_ok {rules : Rules} {ctx : Context} {result : Option (Choice × Found)} :
    choose search rules ctx pos = .ok result ↔ Selects search pos (offers rules ctx) result :=
  match result with
  | none => choose_none_iff
  | some (_, _) => choose_some_iff

theorem choose_congr {other : Search} {rules : Rules} {ctx : Context}
    (agree : ∀ o ∈ offers rules ctx, search o.pattern pos = other o.pattern pos) :
    choose search rules ctx pos = choose other rules ctx pos := by
  rw [choose_eq_survey, choose_eq_survey, survey_congr agree]

theorem choose_error {rules : Rules} {ctx : Context} {defect : Defect}
    (failed : choose search rules ctx pos = .error defect) :
    ∃ o ∈ offers rules ctx, search o.pattern pos = .error defect := by
  rw [choose_eq_survey] at failed
  exact survey_error failed

end ScopeGrammar.Scan
