import ScopeGrammar.Proofs.Regex.Groups
import ScopeGrammar.Proofs.Scan.Ends
import ScopeGrammar.Proofs.Scan.Found
import ScopeGrammar.Proofs.Scan.Reached

set_option autoImplicit false

namespace ScopeGrammar.Scan

open Regex (Found Node Span piece)

section Between

variable {l : Line} {p q : Nat} {t : Token} {scopes rules : List String}

def Token.Between (l : Line) (p q : Nat) (t : Token) : Prop :=
  ∃ a b, p ≤ a ∧ b ≤ q ∧ t ∈ l.piece a b t.scopes t.rules

theorem between_of_piece {a b : Nat} (member : t ∈ l.piece a b scopes rules) (ge : p ≤ a)
    (le : b ≤ q) : t.Between l p q := by
  refine ⟨a, b, ge, le, ?_⟩
  rwa [piece_scopes member, piece_rules member]

theorem between_of_clipped {a b : Nat} (member : t ∈ l.clipped a b scopes rules) (ge : p ≤ a)
    (le : b ≤ q) : t.Between l p q :=
  between_of_piece member ge (Nat.le_trans (Nat.min_le_left ..) le)

theorem Token.Between.mono {p' q' : Nat} (between : t.Between l p q) (ge : p' ≤ p) (le : q ≤ q') :
    t.Between l p' q' := by
  obtain ⟨a, b, ge', le', member⟩ := between
  exact ⟨a, b, Nat.le_trans ge ge', Nat.le_trans le' le, member⟩

theorem byteSize_take_le (cs : List Char) (le : p ≤ q) :
    byteSize (cs.take p) ≤ byteSize (cs.take q) := by
  obtain ⟨n, rfl⟩ := Nat.exists_eq_add_of_le le
  rw [List.take_add, byteSize_append]
  exact Nat.le_add_right ..

theorem Token.Between.bytes (between : t.Between l p q) (inside : q ≤ l.text.length) :
    byteSize (l.text.take p) ≤ t.start ∧ t.start < t.stop ∧ t.stop ≤ byteSize (l.text.take q) := by
  obtain ⟨a, b, ge, le, member⟩ := between
  obtain ⟨forward, same⟩ := eq_of_mem_piece member
  have start : t.start = byteSize (l.text.take a) := congrArg Token.start same
  have stop : t.stop = byteSize (l.text.take a) + byteSize (piece l.text a b) :=
    congrArg Token.stop same
  have whole : l.text.take b = l.text.take a ++ piece l.text a b := by
    rw [piece, ← List.take_add, Nat.add_sub_cancel' (Nat.le_of_lt forward)]
  have more : 0 < byteSize (piece l.text a b) := by
    refine Nat.lt_of_lt_of_le ?_ (length_le_byteSize _)
    rw [piece, List.length_take, List.length_drop]
    omega
  have last := byteSize_take_le l.text le
  rw [whole, byteSize_append] at last
  have first := byteSize_take_le l.text ge
  omega

theorem not_between_self (inside : p ≤ l.text.length) : ¬ t.Between l p p := by
  intro between
  have bytes := between.bytes inside
  omega

theorem captured_between {captures : Captures} {whole : Bool} {found : Found}
    (spans : ∀ span, some span ∈ some found.whole :: found.groups → p ≤ span.start ∧ span.stop ≤ q)
    (member : t ∈ l.captured captures whole scopes rules found) : t.Between l p q := by
  rcases mem_captured member with ⟨index, span, tag, listed, -, there⟩ | ⟨-, there⟩
  · obtain ⟨ge, le⟩ := spans span (List.mem_of_getElem? listed)
    exact between_of_piece there ge le
  · obtain ⟨ge, le⟩ := spans found.whole (List.mem_cons_self ..)
    exact between_of_clipped there ge le

end Between

section Step

variable {r : Repository} {l : Line} {pos pos' : Nat} {stack stack' : List Frame}
  {tokens : List Token}

theorem groups_inside {f : Fragment} {tree : Node} {text : List Char} {found : Found}
    (read : lineTree? f = some tree) (groups : tree.groupsRead = true) (inside : pos ≤ text.length)
    (answered : searchIn text f pos = .ok (some found)) :
    ∀ span, some span ∈ some found.whole :: found.groups →
      found.whole.start ≤ span.start ∧ span.stop ≤ found.whole.stop := by
  obtain ⟨-, le, ⟨w, first, stop, saved⟩, -⟩ := way_of_searchIn read inside answered
  have encloses := Node.ways_enclose groups le (List.mem_of_mem_head? first)
  intro span member
  rcases List.mem_cons.1 member with same | group
  · obtain rfl := Option.some.inj same
    exact ⟨Nat.le_refl _, Nat.le_refl _⟩
  · rw [saved] at group
    obtain ⟨i, -, held⟩ := List.mem_map.1 group
    obtain ⟨before, after, split, -⟩ := List.lookup_eq_some_iff.1 held
    rcases encloses.2 (i + 1, span) (by simp [split]) with none | ⟨ge, -, le'⟩
    · simp at none
    · exact ⟨ge, stop ▸ le'⟩

theorem matched_between (grouped : ∀ o ∈ offers r.rules (context r stack),
      hasTree o.pattern (·.groupsRead) = true)
    (inside : pos ≤ l.text.length) {choice : Choice} {found : Found}
    (chosen : choose (searchIn l.text) r.rules (context r stack) pos = .ok (some (choice, found)))
    {captures : Captures} {whole : Bool} {scopes rules : List String} {t : Token}
    (member : t ∈ l.captured captures whole scopes rules found) :
    t.Between l found.whole.start found.whole.stop := by
  obtain ⟨o, offered, -, answered⟩ := offer_of_choose chosen
  obtain ⟨tree, read, groups⟩ := exists_tree (grouped o offered)
  exact captured_between (groups_inside read groups inside answered) member

theorem step_between (grouped : ∀ o ∈ offers r.rules (context r stack),
      hasTree o.pattern (·.groupsRead) = true)
    (inside : pos ≤ l.text.length)
    (stepped : step (searchIn l.text) r l pos stack = .ok (tokens, .moved pos' stack')) :
    ∀ t ∈ tokens, t.Between l pos pos' := by
  obtain ⟨choice, found, chosen, rfl, rfl, -⟩ := step_moved stepped
  have range := choose_within (searchIn_within l.text) inside chosen
  obtain ⟨g, tags⟩ := tagging_of_choose chosen
  rw [taken_eq tags, List.forall_mem_append]
  constructor
  · intro t member
    exact between_of_clipped member (Nat.le_refl _) (by omega)
  · intro t member
    exact (matched_between grouped inside chosen member).mono range.1 (Nat.le_max_right ..)

theorem tokens_of_still (grouped : ∀ o ∈ offers r.rules (context r stack),
      hasTree o.pattern (·.groupsRead) = true)
    (inside : pos ≤ l.text.length)
    (stepped : step (searchIn l.text) r l pos stack = .ok (tokens, .moved pos stack')) :
    tokens = [] :=
  List.eq_nil_iff_forall_not_mem.2 fun t member =>
    not_between_self inside (step_between grouped inside stepped t member)

end Step

section Carries

variable {search : Search} {r : Repository} {l : Line}

/-- So many steps carry the scan of a line from one state to another, and make the tokens. -/
def Carries (search : Search) (r : Repository) (l : Line) (steps pos : Nat) (stack : List Frame)
    (tokens : List Token) (pos' : Nat) (stack' : List Frame) : Prop :=
  ∀ room, scanFrom search r l (room + steps) pos stack =
    (scanFrom search r l room pos' stack').map (.behind tokens)

variable {m n pos pos' pos'' : Nat} {stack stack' stack'' : List Frame} {tokens more : List Token}

theorem carries_none (pos : Nat) (stack : List Frame) :
    Carries search r l 0 pos stack [] pos stack := by
  intro room
  rw [Nat.add_zero]
  cases scanFrom search r l room pos stack <;> rfl

theorem carries_step (stepped : step search r l pos stack = .ok (tokens, .moved pos' stack')) :
    Carries search r l 1 pos stack tokens pos' stack' :=
  scanFrom_step stepped

theorem Carries.trans (first : Carries search r l m pos stack tokens pos' stack')
    (rest : Carries search r l n pos' stack' more pos'' stack'') :
    Carries search r l (m + n) pos stack (tokens ++ more) pos'' stack'' := by
  intro room
  rw [Nat.add_comm m n, ← Nat.add_assoc, first, rest, map_behind_behind]

theorem Carries.finish (carries : Carries search r l n pos stack tokens pos' stack')
    (nothing : choose search r.rules (context r stack') pos' = .ok none) {room : Nat}
    (enough : n < room) :
    scanFrom search r l room pos stack =
      .ok ⟨tokens ++ l.clipped pos' l.content.length (context r stack').scopes
        (context r stack').rules, stack', false⟩ := by
  obtain ⟨room, rfl⟩ : ∃ m, room = m + 1 + n := ⟨room - n - 1, by omega⟩
  rw [carries, scanFrom_finished (step_of_choose_none nothing)]
  rfl

end Carries

section Parts

variable {l : Line} {p : Nat} {t : Token} {tokens : List Token}

/-- The token is in a part of its line, which stands behind another part. -/
def Token.Inside (t : Token) (front part : List Char) : Prop :=
  byteSize front ≤ t.start ∧ t.stop ≤ byteSize front + byteSize part

instance (t : Token) (front part : List Char) : Decidable (t.Inside front part) :=
  inferInstanceAs (Decidable (_ ∧ _))

/-- A part of a line, and what the scopes of its tokens are like. -/
structure Stretch where
  text : List Char
  scopes : List String → Prop

/-- Each of the tokens is between the ends of one of the parts, which stand one behind the other from
the place on, and has scopes that suit this part. -/
inductive Covers (l : Line) : (p : Nat) → List Stretch → List Token → Prop where
  | nil {p : Nat} : Covers l p [] []
  | cons {p : Nat} {part : Stretch} {parts : List Stretch} {first rest : List Token} :
    p + part.text.length ≤ l.text.length →
    (∀ t ∈ first, t.Between l p (p + part.text.length) ∧ part.scopes t.scopes) →
    Covers l (p + part.text.length) parts rest → Covers l p (part :: parts) (first ++ rest)

theorem Covers.behind {parts : List Stretch} (covers : Covers l p parts tokens) :
    ∀ t ∈ tokens, byteSize (l.text.take p) ≤ t.start ∧ t.start < t.stop := by
  induction covers with
  | nil => simp
  | @cons p part parts first rest inside tagged _ ih =>
    intro t member
    rcases List.mem_append.1 member with here | later
    · have bytes := (tagged t here).1.bytes inside
      exact ⟨bytes.1, bytes.2.1⟩
    · have front := byteSize_take_le l.text (Nat.le_add_right p part.text.length)
      exact ⟨Nat.le_trans front (ih t later).1, (ih t later).2⟩

theorem Covers.scopes_behind {parts : List Stretch} {part : Stretch} {before rest : List Char}
    {i : Nat} (covers : Covers l before.length parts tokens)
    (there : l.text = before ++ ((parts.map (·.text)).flatten ++ rest)) (among : parts[i]? = some part)
    (member : t ∈ tokens) (inside : t.Inside (before ++ ((parts.take i).map (·.text)).flatten) part.text) :
    part.scopes t.scopes := by
  induction i generalizing before parts tokens with
  | zero =>
    cases covers with
    | nil => cases among
    | @cons _ first parts made rest' _ tagged later =>
      obtain rfl : first = part := Option.some.inj among
      rcases List.mem_append.1 member with here | after
      · exact (tagged t here).2
      · have split : l.text = (before ++ first.text) ++ ((parts.map (·.text)).flatten ++ rest) := by
          simpa using there
        have bytes := later.behind t after
        rw [split, ← List.length_append, List.take_left, byteSize_append] at bytes
        have stop := inside.2
        simp only [List.take_zero, List.map_nil, List.flatten_nil, List.append_nil] at stop
        omega
  | succ i ih =>
    cases covers with
    | nil => cases among
    | @cons _ first parts made rest' room tagged later =>
      have split : l.text = (before ++ first.text) ++ ((parts.map (·.text)).flatten ++ rest) := by
        simpa using there
      have inside' : t.Inside ((before ++ first.text) ++ ((parts.take i).map (·.text)).flatten)
          part.text := by simpa using inside
      rcases List.mem_append.1 member with here | after
      · have bytes := (tagged t here).1.bytes room
        rw [split, ← List.length_append, List.take_left] at bytes
        have start := inside'.1
        rw [byteSize_append] at start
        omega
      · rw [← List.length_append] at later
        exact ih later split among after inside'

theorem Covers.scopes {parts : List Stretch} {part : Stretch} {rest : List Char}
    (covers : Covers l 0 parts tokens) (there : l.text = (parts.map (·.text)).flatten ++ rest) (i : Nat)
    (among : parts[i]? = some part) (member : t ∈ tokens)
    (inside : t.Inside ((parts.take i).map (·.text)).flatten part.text) : part.scopes t.scopes := by
  rw [← List.nil_append ((parts.take i).map _).flatten] at inside
  exact Covers.scopes_behind covers there among member inside

end Parts

end ScopeGrammar.Scan
