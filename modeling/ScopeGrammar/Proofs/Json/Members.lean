import Mathlib.Data.List.Pairwise
import ScopeGrammar.Artifact.Reader
import ScopeGrammar.Proofs.Result
import ScopeGrammar.Proofs.Table

set_option autoImplicit false

namespace ScopeGrammar.Json

section Order

variable {σ α μ κ : Type}

/-- The members of each key stand in the same order. -/
def Reordered [DecidableEq κ] (key : μ → κ) (ms ms' : List μ) : Prop :=
  ∀ k, ms.filter (key · = k) = ms'.filter (key · = k)

theorem reordered_swap [DecidableEq κ] {key : μ → κ} {m m' : μ} (differ : key m ≠ key m')
    (before behind : List μ) :
    Reordered key (before ++ m :: m' :: behind) (before ++ m' :: m :: behind) := by
  intro k
  by_cases first : key m = k <;> by_cases second : key m' = k <;> simp_all

/-- A reader of one member after the other, for which two members of different keys may change places. -/
structure Orderless (key : μ → κ) (run : σ → List μ → Option α) : Prop where
  congr : ∀ (m : μ) (ms ms' : List μ), (∀ s, run s ms = run s ms') →
    ∀ s, run s (m :: ms) = run s (m :: ms')
  swap : ∀ (m m' : μ) (ms : List μ) (s : σ), key m ≠ key m' →
    run s (m :: m' :: ms) = run s (m' :: m :: ms)

variable {key : μ → κ} {run : σ → List μ → Option α} (orderless : Orderless key run)

include orderless

theorem Orderless.behind {ms ms' : List μ} (same : ∀ s, run s ms = run s ms') (before : List μ)
    (s : σ) : run s (before ++ ms) = run s (before ++ ms') := by
  induction before generalizing s with
  | nil => exact same s
  | cons m before ih => exact orderless.congr m _ _ ih s

theorem Orderless.first (m : μ) {before : List μ} (others : ∀ m' ∈ before, key m' ≠ key m)
    (ms : List μ) (s : σ) : run s (before ++ m :: ms) = run s (m :: (before ++ ms)) := by
  induction before generalizing s with
  | nil => rfl
  | cons m' before ih =>
    obtain ⟨other, later⟩ := List.forall_mem_cons.1 others
    have moved := orderless.congr m' _ _ (ih later) s
    exact moved.trans (orderless.swap m' m _ s other)

theorem Orderless.reordered [DecidableEq κ] {ms ms' : List μ} (same : Reordered key ms ms') (s : σ) :
    run s ms = run s ms' := by
  induction ms generalizing ms' s with
  | nil =>
    cases ms' with
    | nil => rfl
    | cons m' ms' =>
      have none := same (key m')
      simp at none
  | cons m ms ih =>
    have own := same (key m)
    rw [List.filter_cons_of_pos (by simp)] at own
    obtain ⟨before, behind, rfl, others, -, rest⟩ := List.filter_eq_cons_iff.1 own.symm
    have others : ∀ m' ∈ before, key m' ≠ key m := fun m' there => by simpa using others m' there
    rw [orderless.first m others]
    refine orderless.congr m _ _ (fun s => ih (fun k => ?_) s) s
    have all := same k
    by_cases here : key m = k
    · subst here
      have front : before.filter (key · = key m) = [] := by simpa using others
      rw [List.filter_append, front, List.nil_append, rest]
    · simpa [here] using all

end Order

section Named

variable {σ : Type} {slots : List (Slot σ)}

def memberKey (m : Quoted × Document) : Option String := m.1.decode.toOption

def Slot.Commutes (s s' : Slot σ) : Prop :=
  ∀ d d' state, ((s.put d state).toOption.bind fun next => (s'.put d' next).toOption) =
    (s'.put d' state).toOption.bind fun next => (s.put d next).toOption

theorem Slot.commutes_of {α β : Type} {name name' : String} {value : Decoder α} {value' : Decoder β}
    {keep : σ → α → σ} {keep' : σ → β → σ}
    (same : ∀ state a b, keep' (keep state a) b = keep (keep' state b) a) :
    (Slot.of name value keep).Commutes (.of name' value' keep') := by
  intro d d' state
  cases first : value d <;> cases second : value' d' <;>
    simp [Slot.of, first, second, Except.map, Except.toOption, same]

instance : Std.Symm (@Slot.Commutes σ) where
  symm _ _ same d d' state := (same d' d state).symm

theorem apart_of_pairwise (commute : slots.Pairwise Slot.Commutes) :
    ∀ s ∈ slots, ∀ s' ∈ slots, s.name ≠ s'.name → s.Commutes s' := fun _ here _ there differ =>
  commute.forall here there fun same => differ (congrArg Slot.name same)

theorem decodeNamed_cons (seen : List String) (state : σ) (m : Quoted × Document)
    (ms : List (Quoted × Document)) :
    (decodeNamed slots seen state (m :: ms)).toOption =
      (memberKey m).bind fun name =>
        match slots.find? (·.name = name) with
        | none => m.2.skip.toOption.bind fun _ => (decodeNamed slots seen state ms).toOption
        | some slot =>
          if seen.contains name then none
          else (slot.put m.2 state).toOption.bind fun next =>
            (decodeNamed slots (name :: seen) next ms).toOption := by
  obtain ⟨q, d⟩ := m
  rw [decodeNamed, toOption_bind]
  refine congrArg _ (funext fun name => ?_)
  cases slots.find? (·.name = name) with
  | none => exact toOption_bind ..
  | some slot =>
    dsimp only
    split
    · rfl
    · exact toOption_bind ..

def takeMember (slots : List (Slot σ)) (state : σ) (m : Quoted × Document) : Option σ :=
  (memberKey m).bind fun name =>
    match slots.find? (·.name = name) with
    | none => m.2.skip.toOption.map fun _ => state
    | some slot => (slot.put m.2 state).toOption

def givenFields (slots : List (Slot σ)) (ms : List (Quoted × Document)) : List String :=
  ms.filterMap fun m => (memberKey m).filter fun name => (slots.find? (·.name = name)).isSome

/-- The members are taken one after the other, and no field is given twice. -/
theorem toOption_decodeNamed (seen : List String) (state : σ) (ms : List (Quoted × Document)) :
    (decodeNamed slots seen state ms).toOption =
      if (∀ name ∈ givenFields slots ms, name ∉ seen) ∧ (givenFields slots ms).Nodup then
        ms.foldlM (takeMember slots) state
      else none := by
  induction ms generalizing seen state with
  | nil => simp [decodeNamed, givenFields, Except.toOption]
  | cons m ms ih =>
    rw [decodeNamed_cons, List.foldlM_cons]
    cases key : memberKey m with
    | none => simp [takeMember, key]
    | some name =>
      cases found : slots.find? (·.name = name) with
      | none =>
        have given : givenFields slots (m :: ms) = givenFields slots ms :=
          List.filterMap_cons_none (by simpa [key] using found)
        simp only [Option.bind_some, found, given, takeMember, key, ih]
        split <;> cases m.2.skip.toOption <;> simp
      | some slot =>
        have given : givenFields slots (m :: ms) = name :: givenFields slots ms :=
          List.filterMap_cons_some (by simp [key, found])
        have once : ((∀ other ∈ name :: givenFields slots ms, other ∉ seen) ∧
              (name :: givenFields slots ms).Nodup) ↔
            name ∉ seen ∧ (∀ other ∈ givenFields slots ms, other ∉ name :: seen) ∧
              (givenFields slots ms).Nodup := by
          simp only [List.nodup_cons, List.mem_cons, not_or]
          grind
        simp only [Option.bind_some, found, given, once, takeMember, key, ih, List.contains_iff_mem]
        by_cases known : name ∈ seen
        · simp [known]
        · simp only [known, if_false, not_false_iff, true_and]
          split <;> simp

theorem takeMember_comm (apart : ∀ s ∈ slots, ∀ s' ∈ slots, s.name ≠ s'.name → s.Commutes s')
    {m m' : Quoted × Document} (differ : memberKey m ≠ memberKey m') (state : σ) :
    ((takeMember slots state m).bind fun next => takeMember slots next m') =
      (takeMember slots state m').bind fun next => takeMember slots next m := by
  cases key : memberKey m with
  | none => simp [takeMember, key]
  | some name =>
    cases key' : memberKey m' with
    | none => simp [takeMember, key']
    | some name' =>
      simp only [takeMember, key, key', Option.bind_some]
      cases found : slots.find? (·.name = name) with
      | none =>
        cases found' : slots.find? (·.name = name') with
        | none => cases m.2.skip.toOption <;> cases m'.2.skip.toOption <;> rfl
        | some slot' => cases m.2.skip.toOption <;> simp
      | some slot =>
        cases found' : slots.find? (·.name = name') with
        | none => cases m'.2.skip.toOption <;> simp
        | some slot' =>
          have is : slot.name = name := by simpa using List.find?_some found
          have is' : slot'.name = name' := by simpa using List.find?_some found'
          have other : slot.name ≠ slot'.name := fun same =>
            differ (by rw [key, key', ← is, ← is', same])
          exact apart slot (List.mem_of_find?_eq_some found) slot' (List.mem_of_find?_eq_some found')
            other m.2 m'.2 state

theorem decodeNamed_orderless
    (apart : ∀ s ∈ slots, ∀ s' ∈ slots, s.name ≠ s'.name → s.Commutes s') :
    Orderless memberKey fun (s : List String × σ) ms => (decodeNamed slots s.1 s.2 ms).toOption where
  congr m ms ms' same s := by
    have same (seen : List String) (state : σ) := same (seen, state)
    simp only at same
    simp only [decodeNamed_cons, same]
  swap m m' ms s differ := by
    have order : (m :: m' :: ms).Perm (m' :: m :: ms) := .swap ..
    have given : (givenFields slots (m :: m' :: ms)).Perm (givenFields slots (m' :: m :: ms)) :=
      order.filterMap _
    have taken : (m :: m' :: ms).foldlM (takeMember slots) s.2 =
        (m' :: m :: ms).foldlM (takeMember slots) s.2 := by
      have first := takeMember_comm apart differ s.2
      simp only [List.foldlM_cons, ← bind_assoc]
      exact congrArg (· >>= fun next => ms.foldlM (takeMember slots) next) first
    simp only [toOption_decodeNamed, given.nodup_iff, given.mem_iff, taken]

theorem decodeNamed_seen {seen seen' : List String} (state : σ) {ms : List (Quoted × Document)}
    (same : ∀ m ∈ ms, ∀ name, memberKey m = some name → (name ∈ seen ↔ name ∈ seen')) :
    (decodeNamed slots seen state ms).toOption = (decodeNamed slots seen' state ms).toOption := by
  rw [toOption_decodeNamed, toOption_decodeNamed]
  have alike : ∀ name ∈ givenFields slots ms, (name ∉ seen ↔ name ∉ seen') := by
    intro name given
    obtain ⟨m, there, is⟩ := List.mem_filterMap.1 given
    exact not_congr (same m there name (Option.eq_some_of_filter_eq_some is))
  have alike : (∀ name ∈ givenFields slots ms, name ∉ seen) ↔
      ∀ name ∈ givenFields slots ms, name ∉ seen' := forall₂_congr alike
  simp only [alike]

section Record

variable (apart : ∀ s ∈ slots, ∀ s' ∈ slots, s.name ≠ s'.name → s.Commutes s') (blank : σ)
  {before behind : List (Quoted × Document)} {q : Quoted} {d : Document} {name : String}

include apart

theorem decodeRecord_reordered {ms ms' : List (Quoted × Document)} (same : Reordered memberKey ms ms')
    (ending : Ending) :
    (decodeRecord slots blank (.object ms ending)).toOption =
      (decodeRecord slots blank (.object ms' ending)).toOption := by
  have read := (decodeNamed_orderless apart).reordered same ([], blank)
  simp only at read
  rw [decodeRecord, decodeRecord, toOption_bind, toOption_bind, read]

/-- A member that belongs to no field is passed over. -/
theorem decodeRecord_insert (key : q.decode = .ok name) (other : ∀ s ∈ slots, s.name ≠ name)
    (sound : d.skip = .ok ()) (ending : Ending) :
    (decodeRecord slots blank (.object (before ++ (q, d) :: behind) ending)).toOption =
      (decodeRecord slots blank (.object (before ++ behind) ending)).toOption := by
  have none : slots.find? (·.name = name) = none := by simpa using other
  have passed (s : List String × σ) : (decodeNamed slots s.1 s.2 ((q, d) :: behind)).toOption =
      (decodeNamed slots s.1 s.2 behind).toOption := by
    rw [decodeNamed_cons]
    simp [memberKey, key, none, sound, Except.toOption]
  have read := (decodeNamed_orderless apart).behind passed before ([], blank)
  simp only at read
  rw [decodeRecord, decodeRecord, toOption_bind, toOption_bind, read]

theorem decodeRecord_absent {slot : Slot σ} (key : q.decode = .ok name)
    (found : slots.find? (·.name = name) = some slot) (same : slot.put d blank = .ok blank)
    (absent : ∀ m ∈ before ++ behind, m.1.decode ≠ .ok name) (ending : Ending) :
    (decodeRecord slots blank (.object (before ++ (q, d) :: behind) ending)).toOption =
      (decodeRecord slots blank (.object (before ++ behind) ending)).toOption := by
  have own : memberKey (q, d) = some name := toOption_eq_some.2 key
  have others : ∀ m ∈ before ++ behind, memberKey m ≠ some name := fun m there is =>
    absent m there (toOption_eq_some.1 is)
  have first := (decodeNamed_orderless apart).first (q, d)
    (fun m there => own ▸ others m (List.mem_append_left _ there)) behind ([], blank)
  have given : (decodeNamed slots [] blank ((q, d) :: (before ++ behind))).toOption =
      (decodeNamed slots [name] blank (before ++ behind)).toOption := by
    rw [decodeNamed_cons, own]
    simp [found, same, Except.toOption]
  have seen : (decodeNamed slots [name] blank (before ++ behind)).toOption =
      (decodeNamed slots [] blank (before ++ behind)).toOption :=
    decodeNamed_seen blank fun m there other is => by
      have differ : other ≠ name := fun same => others m there (same ▸ is)
      simp [differ]
  simp only at first
  rw [decodeRecord, decodeRecord, toOption_bind, toOption_bind, first, given, seen]

theorem decodeRecord_field {slot : Slot σ} {d' : Document} (key : q.decode = .ok name)
    (found : slots.find? (·.name = name) = some slot)
    (alike : ∀ state, (slot.put d state).toOption = (slot.put d' state).toOption) (ending : Ending) :
    (decodeRecord slots blank (.object (before ++ (q, d) :: behind) ending)).toOption =
      (decodeRecord slots blank (.object (before ++ (q, d') :: behind) ending)).toOption := by
  have own (d : Document) : memberKey (q, d) = some name := toOption_eq_some.2 key
  have same (s : List String × σ) : (decodeNamed slots s.1 s.2 ((q, d) :: behind)).toOption =
      (decodeNamed slots s.1 s.2 ((q, d') :: behind)).toOption := by
    simp only [decodeNamed_cons, own, Option.bind_some, found, alike]
  have read := (decodeNamed_orderless apart).behind same before ([], blank)
  simp only at read
  rw [decodeRecord, decodeRecord, toOption_bind, toOption_bind, read]

end Record

theorem Slot.put_alike {α : Type} {name : String} {value : Decoder α} {keep : σ → α → σ}
    {d d' : Document} (same : (value d).toOption = (value d').toOption) (state : σ) :
    ((Slot.of name value keep).put d state).toOption =
      ((Slot.of name value keep).put d' state).toOption := by
  cases read : value d <;> cases read' : value d' <;>
    simp_all [Slot.of, Except.map, Except.toOption]

theorem decodePlaced_at {before behind : List Document} {slot : Slot σ} {d d' : Document}
    (found : slots[before.length]? = some slot)
    (alike : ∀ state, (slot.put d state).toOption = (slot.put d' state).toOption) (state : σ) :
    (decodePlaced slots state (before ++ d :: behind)).toOption =
      (decodePlaced slots state (before ++ d' :: behind)).toOption := by
  induction before generalizing slots state with
  | nil =>
    cases slots with
    | nil => cases found
    | cons first slots =>
      cases found
      simp only [List.nil_append, decodePlaced, toOption_bind, alike]
  | cons earlier before ih =>
    cases slots with
    | nil => rfl
    | cons first slots =>
      simp only [List.cons_append, decodePlaced, toOption_bind]
      exact congrArg _ (funext fun next => ih found next)

theorem decodeRecord_at {before behind : List Document} {slot : Slot σ} {d d' : Document}
    (found : slots[before.length]? = some slot)
    (alike : ∀ state, (slot.put d state).toOption = (slot.put d' state).toOption) (blank : σ)
    (ending : Ending) :
    (decodeRecord slots blank (.array (before ++ d :: behind) ending)).toOption =
      (decodeRecord slots blank (.array (before ++ d' :: behind) ending)).toOption := by
  rw [decodeRecord, decodeRecord, toOption_bind, toOption_bind, decodePlaced_at found alike]

end Named

section Table

variable {κ α : Type} [Ord κ] [Std.TransOrd κ] [Std.LawfulEqOrd κ] {key : Quoted → Except Fault κ}
  {value : Decoder α}

theorem decodeMembers_cons (t : Table κ α) (m : Quoted × Document) (ms : List (Quoted × Document)) :
    (decodeMembers key value t (m :: ms)).toOption =
      (key m.1).toOption.bind fun k => (value m.2).toOption.bind fun a =>
        (decodeMembers key value (t.insert k a) ms).toOption := by
  rw [decodeMembers, toOption_bind]
  exact congrArg _ (funext fun k => toOption_bind ..)

variable (tells : ∀ q q' k, key q = .ok k → key q' = .ok k → q.decode = q'.decode)

include tells

theorem decodeMembers_orderless :
    Orderless memberKey fun (t : Table κ α) ms => (decodeMembers key value t ms).toOption where
  congr m ms ms' same t := by
    simp only [decodeMembers_cons, same]
  swap m m' ms t differ := by
    simp only [decodeMembers_cons]
    cases first : key m.1 with
    | error fault => cases key m'.1 <;> cases value m'.2 <;> rfl
    | ok k =>
      cases second : key m'.1 with
      | error fault => cases value m.2 <;> rfl
      | ok k' =>
        have other : k ≠ k' := fun same =>
          differ (congrArg Except.toOption (tells m.1 m'.1 k first (same ▸ second)))
        cases value m.2 with
        | error fault => cases value m'.2 <;> rfl
        | ok a =>
          cases value m'.2 with
          | error fault => rfl
          | ok a' =>
            have order : (t.insert k a).insert k' a' = (t.insert k' a').insert k a :=
              Table.ext (Table.insertEntry_comm other.symm a' a t.entries)
            simp only [Except.toOption, Option.bind_some, order]

theorem decodeTable_reordered {ms ms' : List (Quoted × Document)} (same : Reordered memberKey ms ms')
    (ending : Ending) :
    (decodeTable key value (.object ms ending)).toOption =
      (decodeTable key value (.object ms' ending)).toOption := by
  have read (t : Table κ α) : (decodeMembers key value t ms).toOption =
      (decodeMembers key value t ms').toOption := (decodeMembers_orderless tells).reordered same t
  rw [decodeTable, decodeTable, toOption_bind, toOption_bind, read]

theorem decodeTable_entry {before behind : List (Quoted × Document)} {q : Quoted} {d d' : Document}
    (alike : (value d).toOption = (value d').toOption) (ending : Ending) :
    (decodeTable key value (.object (before ++ (q, d) :: behind) ending)).toOption =
      (decodeTable key value (.object (before ++ (q, d') :: behind) ending)).toOption := by
  have same (t : Table κ α) : (decodeMembers key value t ((q, d) :: behind)).toOption =
      (decodeMembers key value t ((q, d') :: behind)).toOption := by
    simp only [decodeMembers_cons, alike]
  have read := (decodeMembers_orderless tells).behind same before .empty
  rw [decodeTable, decodeTable, toOption_bind, toOption_bind, read]

end Table

section List

variable {α : Type} {item : Decoder α} {d d' : Document}

theorem mapM_at (alike : (item d).toOption = (item d').toOption) (before behind : List Document) :
    ((before ++ d :: behind).mapM item).toOption = ((before ++ d' :: behind).mapM item).toOption := by
  induction before with
  | nil => simp only [List.nil_append, List.mapM_cons, toOption_bind, alike]
  | cons earlier before ih => simp only [List.cons_append, List.mapM_cons, toOption_bind, ih]

theorem decodeList_at (alike : (item d).toOption = (item d').toOption) (before behind : List Document)
    (ending : Ending) :
    (decodeList item (.array (before ++ d :: behind) ending)).toOption =
      (decodeList item (.array (before ++ d' :: behind) ending)).toOption := by
  rw [decodeList, decodeList, toOption_bind, toOption_bind, mapM_at alike]

end List

end ScopeGrammar.Json
