import ScopeGrammar.Proofs.Regex.Effort
import ScopeGrammar.Proofs.Result
import ScopeGrammar.Proofs.Scan.GivenUp
import ScopeGrammar.Proofs.WebAssembly.Grammar
import ScopeGrammar.Proofs.WebAssembly.Words

/-!
Searches for a clause that take too long. Each comment behind the parenthesis can end at its own end
or at that of a later comment, so that without a keyword behind them the engine goes back twice as
often for every further comment.
-/

set_option autoImplicit false

namespace ScopeGrammar.WebAssembly

open Scan Fragment
open Regex (Node CharSet Cursor Attempt Saved)

def emptyComments : Nat → List Char
  | 0 => []
  | n + 1 => '(' :: ';' :: ';' :: ')' :: emptyComments n

/-- Any number of blanks and comments, of which `room` are tried. -/
def rounds (room : Nat) (k : Attempt) : Attempt :=
  Attempt.anyNumber true (blankOrComment.attempt false true 1) room k

/-- The rest of a comment, in which `room` characters are tried before its end. -/
def commentRest (room : Nat) (k : Attempt) : Attempt :=
  Attempt.anyNumber false ((Node.set (.compl (.single '\n'))).attempt false true 1) room
    ((Node.set (.single ';')).handOver 1 ((Node.set (.single ')')).handOver 1 k))

theorem attempt_blankOrComment (k : Attempt) :
    blankOrComment.attempt false true 1 k =
      ((Node.set (.union (.single ' ') (.single '\t'))).attempt false true 1 k).orElse
        ((Node.set (.single '(')).handOver 1 ((Node.set (.single ';')).handOver 1
          fun left c s => commentRest (c.after.length + 1) k left c s)) := rfl

theorem attempt_clauseTree (body : Node) (k : Attempt) :
    (clauseTree body).attempt false true 0 k =
      (Node.group (.set (.single '('))).handOver 0 fun left c s =>
        rounds (c.after.length + 1) ((Node.group (wholeWordTree body)).attempt false true 1 k)
          left c s := by
  rw [clauseTree, Node.attempt_seq_fixed rfl rfl, Node.attempt_seq_loose rfl rfl]
  rfl

section Places

variable {text rest : List Char} {p : Nat} {s : Saved} {k : Attempt} {n : Nat}

theorem handOver_sign {x : Char} {opened : Nat} (here : text[p]? = some x)
    (spends : k.Spends n (.place text (p + 1)) s) :
    ((Node.set (.single x)).handOver opened k).Spends n (.place text p) s := by
  have inside := (List.getElem?_eq_some_iff.1 here).1
  refine Node.handOver_spends (Nat.le_of_lt inside) (w := (p + 1, s)) ?_ spends
  simp [Node.ways, here]

theorem handOver_other {x : Char} {opened : Nat} (inside : p ≤ text.length)
    (other : text[p]? ≠ some x) :
    ((Node.set (.single x)).handOver opened k).Spends 0 (.place text p) s := by
  refine Node.handOver_refuses inside ?_
  rw [ways_single, if_neg other]

theorem end_refuses (inside : p ≤ text.length)
    (open' : text[p]? ≠ some ';' ∨ text[p + 1]? ≠ some ')') :
    ((Node.set (.single ';')).handOver 1 ((Node.set (.single ')')).handOver 1 k)).Spends 0
      (.place text p) s := by
  by_cases here : text[p]? = some ';'
  · have next := open'.resolve_left (not_not_intro here)
    exact handOver_sign here (handOver_other (List.getElem?_eq_some_iff.1 here).1 next)
  · exact handOver_other inside here

theorem commentRest_skip {x : Char} {room : Nat} (here : text[p]? = some x) (inLine : x ≠ '\n')
    (open' : text[p]? ≠ some ';' ∨ text[p + 1]? ≠ some ')')
    (spends : (commentRest room k).Spends n (.place text (p + 1)) s) :
    (commentRest (room + 1) k).Spends (n + 1) (.place text p) s := by
  have inside := (List.getElem?_eq_some_iff.1 here).1
  refine Attempt.anyNumber_spends (n := 0) ?_ (end_refuses (Nat.le_of_lt inside) open')
  refine Node.set_spends here ?_ (Attempt.moveOn_spends (Nat.succ_ne_self p) spends)
  simpa [CharSet.mem] using inLine

theorem not_here {x : Char} (none : x ∉ text.drop p) : text[p]? ≠ some x := by
  intro here
  obtain ⟨inside, same⟩ := List.getElem?_eq_some_iff.1 here
  rw [List.drop_eq_getElem_cons inside, same] at none
  exact none (List.mem_cons_self ..)

theorem commentRest_idle (room : Nat) (inside : p ≤ text.length) (none : ';' ∉ text.drop p) :
    (commentRest room k).Spends 0 (.place text p) s := by
  induction room generalizing p with
  | zero => exact end_refuses inside (.inl (not_here none))
  | succ room ih =>
    refine (Attempt.anyNumber_spends (m := 0) ?_
      (end_refuses inside (.inl (not_here none)))).mono (Nat.zero_le _)
    cases here : text[p]? with
    | none => exact Node.set_refuses (by simp [here])
    | some x =>
      by_cases feed : x = '\n'
      · exact Node.set_refuses (by simp [here, feed, CharSet.mem])
      · obtain ⟨within, same⟩ := List.getElem?_eq_some_iff.1 here
        rw [List.drop_eq_getElem_cons within] at none
        refine Node.set_spends here (by simpa [CharSet.mem] using feed)
          (Attempt.moveOn_spends (Nat.succ_ne_self p) ?_)
        exact ih within fun member => none (List.mem_cons_of_mem _ member)

end Places

section Comments

variable {text rest : List Char} {k : Attempt} {n : Nat}

/-- Before `n` comments the engine goes back so often. -/
def RoundsSpend (text rest : List Char) (k : Attempt) (n : Nat) : Prop :=
  ∀ p s room, text.drop p = emptyComments n ++ rest → p ≤ text.length → text.length - p < room →
    (rounds room k).Spends (Nat.pow 2 n) (.place text p) s

def RestSpends (text rest : List Char) (k : Attempt) (n : Nat) : Prop :=
  ∀ o p s room later, text.drop p = ';' :: ')' :: (emptyComments n ++ rest) →
    text.length - p < room → text.length - p ≤ later → o < p →
    (commentRest room (Attempt.moveOn o (rounds later k))).Spends (Nat.pow 2 (n + 1) - 1)
      (.place text p) s

theorem roundsSpend_zero (declines : ∀ p s, p ≤ text.length → k.Spends 0 (.place text p) s)
    (head : ∀ x ∈ rest.head?, x ∉ [' ', '\t', '(']) : RoundsSpend text rest k 0 := by
  intro p s room there inside enough
  obtain ⟨room, rfl⟩ := Nat.exists_eq_add_of_lt (Nat.zero_lt_of_lt enough)
  have next : ∀ x ∈ text[p]?, x ∉ [' ', '\t', '('] := by
    intro x here
    refine head x ?_
    rw [← List.head?_drop, there] at here
    exact here
  rw [Nat.zero_add]
  refine (Attempt.anyNumber_spends (m := 1) ?_ (declines p s inside)).mono (by decide)
  rw [attempt_blankOrComment]
  refine Attempt.Spends.orElse (Node.set_refuses fun x here => ?_) (handOver_other inside ?_)
  · have other := next x here
    simp only [List.mem_cons, List.not_mem_nil, or_false, not_or] at other
    simp [CharSet.mem, other]
  · intro here
    exact next '(' here (by decide)

theorem restSpends (silent : ';' ∉ rest) (spends : RoundsSpend text rest k n)
    (before : ∀ m, n = m + 1 → RestSpends text rest k m) : RestSpends text rest k n := by
  intro o p s room later there enough enough' behind
  obtain ⟨here, after⟩ := head_of_drop there
  obtain ⟨here', after'⟩ := head_of_drop after
  have within := (List.getElem?_eq_some_iff.1 here').1
  obtain ⟨room, rfl⟩ : ∃ r, room = r + 2 := ⟨room - 2, by omega⟩
  have leave : (Attempt.moveOn o (rounds later k)).Spends (Nat.pow 2 n) (.place text (p + 2)) s :=
    Attempt.moveOn_spends (by omega) (spends (p + 2) s later after' (by omega) (by omega))
  have stay : (commentRest room (Attempt.moveOn o (rounds later k))).Spends (Nat.pow 2 n - 1)
      (.place text (p + 2)) s := by
    cases n with
    | zero => exact commentRest_idle room (by omega) (after' ▸ silent)
    | succ m =>
      obtain ⟨one, after⟩ := head_of_drop after'
      obtain ⟨two, after⟩ := head_of_drop after
      have three := (head_of_drop after).1
      have inside := (List.getElem?_eq_some_iff.1 three).1
      obtain ⟨room, rfl⟩ : ∃ r, room = r + 2 := ⟨room - 2, by omega⟩
      have inner := before m rfl o (p + 4) s room later after (by omega) (by omega) (by omega)
      refine (commentRest_skip one (by decide) (.inl (by simp [one])) ?_).mono
        (Nat.le_succ_of_le (Nat.le_succ _))
      exact commentRest_skip two (by decide) (.inr (by simp [three])) inner
  have double : Nat.pow 2 (n + 1) = Nat.pow 2 n * 2 := rfl
  have size : Nat.pow 2 (n + 1) - 1 ≤ Nat.pow 2 n - 1 + 1 + 1 + Nat.pow 2 n := by omega
  refine (Attempt.anyNumber_spends ?_ ?_).mono size
  · refine Node.set_spends here (by decide) (Attempt.moveOn_spends (Nat.succ_ne_self p) ?_)
    exact commentRest_skip here' (by decide) (.inl (by simp [here'])) stay
  · exact handOver_sign here (handOver_sign here' leave)

theorem roundsSpend_succ (declines : ∀ p s, p ≤ text.length → k.Spends 0 (.place text p) s)
    (spends : RestSpends text rest k n) : RoundsSpend text rest k (n + 1) := by
  intro p s room there inside enough
  obtain ⟨here, after⟩ := head_of_drop there
  obtain ⟨here', after'⟩ := head_of_drop after
  obtain ⟨room, rfl⟩ := Nat.exists_eq_add_of_lt (Nat.zero_lt_of_lt enough)
  rw [Nat.zero_add]
  have size : (Cursor.place text (p + 1 + 1)).after.length = text.length - (p + 2) := by
    simp [Cursor.place]
  have positive : 0 < Nat.pow 2 (n + 1) := Nat.pow_pos (by decide)
  refine (Attempt.anyNumber_spends (m := 0 + 1 + (Nat.pow 2 (n + 1) - 1)) ?_
    (declines p s inside)).mono (by omega)
  rw [attempt_blankOrComment]
  refine Attempt.Spends.orElse (Node.set_refuses fun x first => ?_)
    (handOver_sign here (handOver_sign here' ?_))
  · cases here.symm.trans first
    decide
  · intro left
    exact spends p (p + 2) s _ room after' (by omega) (by omega) (by omega) left

theorem roundsSpend (declines : ∀ p s, p ≤ text.length → k.Spends 0 (.place text p) s)
    (silent : ';' ∉ rest) (head : ∀ x ∈ rest.head?, x ∉ [' ', '\t', '(']) (n : Nat) :
    RoundsSpend text rest k n ∧ RestSpends text rest k n := by
  induction n with
  | zero =>
    have spends := roundsSpend_zero declines head
    exact ⟨spends, restSpends silent spends (by simp)⟩
  | succ n ih =>
    have spends := roundsSpend_succ declines ih.2
    refine ⟨spends, restSpends silent spends fun m same => ?_⟩
    obtain rfl : n = m := Nat.succ.inj same
    exact ih.2

end Comments

section Searches

variable {text rest : List Char} {first : Char} {letters : List Char} {k : Attempt} {p : Nat}
  {s : Saved}

theorem word_refuses {opened : Nat} (inside : p ≤ text.length) (other : text[p]? ≠ some first) :
    ((word (first :: letters)).attempt false true opened k).Spends 0 (.place text p) s := by
  have none : ∀ x ∈ text[p]?, (CharSet.single first).mem x = false := by
    intro x here
    rw [CharSet.mem_single, decide_eq_false_iff_not]
    rintro rfl
    exact other here
  cases letters with
  | nil => exact Node.set_refuses none
  | cons letter letters => exact Node.seq_set_refuses inside none

theorem wholeWord_refuses (inside : p ≤ text.length) (other : text[p]? ≠ some first) :
    ((Node.group (wholeWordTree (word (first :: letters)))).attempt false true 1 k).Spends 0
      (.place text p) s := by
  have irregular : (Node.seq (word (first :: letters)) (.notAhead (.set ids))).regular = false := by
    simp [Node.regular]
  refine Node.group_spends ?_
  rw [wholeWordTree, Node.attempt_seq_loose rfl irregular]
  refine Attempt.deny_spends (Attempt.back_bounded fun d => Node.set_bounded ids true true d) ?_
  rw [Node.attempt_seq_loose (by rfl) rfl]
  exact word_refuses inside other

variable {n : Nat}

theorem clauseTree_rounds (here : text[p]? = some '(')
    (spends : RoundsSpend text rest
      ((Node.group (wholeWordTree (word (first :: letters)))).attempt false true 1 .accept) n)
    (there : text.drop (p + 1) = emptyComments n ++ rest) :
    ((clauseTree (word (first :: letters))).attempt false true 0 .accept).Spends (Nat.pow 2 n)
      (.place text p) [] := by
  have inside := (List.getElem?_eq_some_iff.1 here).1
  rw [attempt_clauseTree]
  refine Node.handOver_spends (Nat.le_of_lt inside) (w := (p + 1, [(1, ⟨p, p + 1⟩)])) ?_ ?_
  · simp [Node.ways, here]
  · intro left
    exact spends (p + 1) _ _ there inside (by simp [Cursor.place]) left

/-- Where the first letter of the keyword is not in the text, no clause begins anywhere, and with
`n` comments behind the parenthesis the engine goes back `2 ^ n` times. -/
theorem clauseTree_spends (absent : first ∉ text) (silent : ';' ∉ rest)
    (head : ∀ x ∈ rest.head?, x ∉ [' ', '\t', '('])
    (there : text.drop p = '(' :: (emptyComments n ++ rest)) :
    ((clauseTree (word (first :: letters))).attempt false true 0 .accept).Spends (Nat.pow 2 n)
      (.place text p) [] := by
  obtain ⟨here, after⟩ := head_of_drop there
  refine clauseTree_rounds here (roundsSpend (fun p s le => ?_) silent head n).1 after
  exact wholeWord_refuses le fun here => absent (List.mem_of_getElem? here)

theorem clauseTree_refuses (absent : first ∉ text) (inside : p ≤ text.length)
    (idle : text[p]? = some '(' → ∀ x ∈ text[p + 1]?, x ∉ [' ', '\t', '(']) :
    ((clauseTree (word (first :: letters))).attempt false true 0 .accept).Spends 0
      (.place text p) [] := by
  by_cases here : text[p]? = some '('
  · have spends : RoundsSpend text (text.drop (p + 1))
        ((Node.group (wholeWordTree (word (first :: letters)))).attempt false true 1 .accept) 0 :=
      roundsSpend_zero
        (fun p s le => wholeWord_refuses le fun here => absent (List.mem_of_getElem? here))
        (by rw [List.head?_drop]; exact idle here)
    exact (clauseTree_rounds here spends rfl).mono (Nat.zero_le _)
  · rw [attempt_clauseTree]
    refine Node.handOver_refuses inside ?_
    rw [Node.ways, ways_single, if_neg here, List.map_nil]

/-- An engine that may not go back `2 ^ n` times gives up a search for such a clause. -/
theorem givesUp_clause {regex : Regex} {front : List Char} {most pos : Nat}
    (tree : regex.tree.settled = clauseTree (word (first :: letters)))
    (irregular : regex.tree.regular = false)
    (there : text = front ++ '(' :: (emptyComments n ++ rest)) (absent : first ∉ text)
    (silent : ';' ∉ rest) (head : ∀ x ∈ rest.head?, x ∉ [' ', '\t', '('])
    (idle : ∀ i < front.length, text[i]? = some '(' → ∀ x ∈ text[i + 1]?, x ∉ [' ', '\t', '('])
    (before : pos ≤ front.length) (above : most < Nat.pow 2 n) :
    (Regex.Engine.limited most).givesUp regex text pos = true := by
  have inside : front.length ≤ text.length := by simp [there]
  refine Regex.Engine.givesUp_limited irregular before inside (fun i _ lt => ?_) ?_
  · rw [tree]
    exact (Node.effort_of_spends (clauseTree_refuses absent (by omega) (idle i lt))).1
  · rw [tree]
    exact (Node.effort_of_spends (clauseTree_spends absent silent head
      (by rw [there, List.drop_left]))).2 above

end Searches

theorem module_offered :
    ∃ o ∈ offers grammar.rules (context grammar []), ∃ regex,
      linePattern o.pattern = .ok regex ∧
        regex.tree.settled = clauseTree (word "module".toList) ∧ regex.tree.regular = false := by
  have evaluated : ((offers table ⟨.top .entry, entry, none, [], []⟩).any fun o =>
      (linePattern o.pattern).toOption.any fun regex =>
        regex.tree.settled = clauseTree (word "module".toList) && !regex.tree.regular) = true := by
    decide +kernel
  obtain ⟨o, offered, is⟩ := List.any_eq_true.1 evaluated
  obtain ⟨regex, read, is⟩ := (Option.any_eq_true _ _).1 is
  simp only [Bool.and_eq_true, decide_eq_true_eq, Bool.not_eq_true'] at is
  exact ⟨o, offered, regex, toOption_eq_some.1 read, is⟩

/-- Where nothing is open the search for a module is given up, and with it the line. -/
theorem outside_givenUp {l : Line} {front rest : List Char} {most n pos : Nat}
    (there : l.text = front ++ '(' :: (emptyComments n ++ rest)) (absent : 'm' ∉ l.text)
    (silent : ';' ∉ rest) (head : ∀ x ∈ rest.head?, x ∉ [' ', '\t', '('])
    (idle : ∀ i < front.length, l.text[i]? = some '(' →
      ∀ x ∈ l.text[i + 1]?, x ∉ [' ', '\t', '('])
    (before : pos ≤ front.length) (above : most < Nat.pow 2 n) :
    step (searchBy (.limited most) l.text) grammar l pos [] =
        .error (.badPattern (.top .search) .whole) ∧
      ∀ room, scanFrom (searchBy (.limited most) l.text) grammar l (room + 1) pos [] =
        .error (.badPattern (.top .search) .whole) := by
  obtain ⟨o, offered, regex, read, tree, irregular⟩ := module_offered
  exact scanFrom_givenUp offered read
    (givesUp_clause tree irregular there absent silent head idle before above)

end ScopeGrammar.WebAssembly
