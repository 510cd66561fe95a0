import ScopeGrammar.Proofs.Regex.Edges
import ScopeGrammar.Proofs.Regex.Level
import ScopeGrammar.Proofs.Regex.Pile

/-!
Sources that the reader takes from wherever it is. What such a source adds to the alternative that is
being read does not depend on what stands around it, so that sources of the kind can be put together,
and one of them gives the same tree on its own and behind a flag for the edges of lines.
-/

set_option autoImplicit false

namespace ScopeGrammar.Regex

/-- A reader to which every character stands for itself: case matters, blanks are no mere spacing. -/
structure Reading.Literal (r : Reading) : Prop where
  anyCase : r.flags.anyCase = false
  dotAll : r.flags.dotAll = false
  spaced : r.flags.spaced = false
  unnamed : r.names = false

/-- The reader gets from one state to another by parts of the source, the rest of which is unread. -/
inductive Advances : Reading → List Char → Reading → List Char → Prop where
  | refl (r : Reading) (cs : List Char) : Advances r cs r cs
  | part {r next last : Reading} {c : Char} {cs behind rest : List Char}
      (noBlank : r.skip (c :: cs) = .ok (c :: cs))
      (first : ∀ length, r.part length c cs = .ok (next, behind)) :
    Advances next behind last rest → Advances r (c :: cs) last rest

section Advances

variable {r next last : Reading} {cs behind rest : List Char}

theorem Advances.trans (first : Advances r cs next behind) (later : Advances next behind last rest) :
    Advances r cs last rest := by
  induction first with
  | refl => exact later
  | part noBlank first _ ih => exact .part noBlank first (ih later)

theorem readParts_of_advances {length fuel : Nat} (advances : Advances r cs last [])
    (room : cs.length < fuel) : readParts length fuel r cs = .ok last := by
  generalize ends : ([] : List Char) = rest at advances
  induction advances generalizing fuel with
  | refl =>
    subst ends
    cases fuel <;> rfl
  | @part r next last c cs behind rest noBlank first _ ih =>
    obtain ⟨fuel, rfl⟩ := Nat.exists_eq_add_of_le' (Nat.zero_lt_of_lt room)
    have less : behind.length ≤ cs.length := (Reading.part_suffix (first length)).length_le
    rw [List.length_cons] at room
    exact bind_eq_ok.2 ⟨_, noBlank, bind_eq_ok.2 ⟨_, first length, ih (by omega) ends⟩⟩

end Advances

theorem Reading.Literal.skip {r : Reading} (literal : r.Literal) {cs : List Char}
    (noComment : NoComment cs) : r.skip cs = .ok cs := by
  rw [Reading.skip, literal.spaced]
  exact skipBlanks_eq noComment

/-- Wherever there is room for so many open groups, the source is read as these pieces of the
alternative that is being read. -/
def Lays (depth : Nat) (source : List Char) (nodes : List Node) : Prop :=
  ∀ (r : Reading) (rest : List Char), r.Literal → r.outer.length + depth ≤ deepestNesting →
    ∃ level : Level, Advances r (source ++ rest) { r with level := level } rest ∧
      level.finished = r.level.finished ∧
      level.settle.pieces = nodes.reverse ++ r.level.settle.pieces

namespace Lays

variable {depth : Nat} {cs ds : List Char} {nodes more : List Node} {node : Node}

theorem nil (depth : Nat) : Lays depth [] [] :=
  fun r rest _ _ => ⟨r.level, .refl r rest, rfl, rfl⟩

theorem mono (lays : Lays depth cs nodes) {room : Nat} (enough : depth ≤ room) :
    Lays room cs nodes :=
  fun r rest literal fits => lays r rest literal (by omega)

theorem append (first : Lays depth cs nodes) (second : Lays depth ds more) :
    Lays depth (cs ++ ds) (nodes ++ more) := by
  intro r rest literal fits
  obtain ⟨l, toFirst, finished, pieces⟩ := first r (ds ++ rest) literal fits
  obtain ⟨m, toSecond, finished', pieces'⟩ :=
    second { r with level := l } rest ⟨literal.1, literal.2, literal.3, literal.4⟩ fits
  refine ⟨m, ?_, finished'.trans finished, ?_⟩
  · rw [List.append_assoc]
    exact toFirst.trans toSecond
  · rw [pieces', pieces, List.reverse_append, List.append_assoc]

theorem atom {c : Char} (some : node ≠ .empty) (noGroup : c ≠ '(')
    (reads : ∀ r : Reading, r.Literal → ∀ length rest,
      r.part length c (cs ++ rest) = .ok (r.atom node, rest)) :
    Lays 0 (c :: cs) [node] := by
  intro r rest literal _
  refine ⟨r.level.atom node, ?_, Level.settle_finished _, ?_⟩
  · exact .part (literal.skip (noComment_of_head noGroup _)) (fun length => reads r literal length rest)
      (.refl _ _)
  · cases node <;> first | rfl | exact absurd rfl some

end Lays

section Brackets

def Bracket.marks : Bracket → List Char
  | .capture => []
  | .ahead => ['?', '=']
  | .notAhead => ['?', '!']
  | .behind => ['?', '<', '=']
  | .notBehind => ['?', '<', '!']
  | .atomic => ['?', '>']
  | .plain _ => ['?', ':']

def Bracket.under (flags : Flags) : Bracket → Bracket
  | .plain _ => .plain flags
  | bracket => bracket

variable {depth : Nat} {cs : List Char} {nodes : List Node}

theorem part_opening {r : Reading} (literal : r.Literal) (room : r.outer.length < deepestNesting)
    {bracket : Bracket} (noCapture : bracket ≠ .capture) (length : Nat) (rest : List Char) :
    r.part length '(' (bracket.marks ++ rest) = .ok (r.open (bracket.under r.flags), rest) := by
  have part : r.part length '(' (bracket.marks ++ rest) = r.group (bracket.marks ++ rest) := rfl
  have noComment : NoComment (bracket.marks ++ rest) := by
    cases bracket with
    | capture => exact absurd rfl noCapture
    | _ => exact noComment_of_head (by decide) _
  rw [part, Reading.group, if_neg (Nat.not_le_of_lt room), literal.skip noComment]
  cases bracket with
  | capture => exact absurd rfl noCapture
  | _ => rfl

theorem Lays.bracketed (lays : Lays depth cs nodes) (bracket : Bracket)
    (noCapture : bracket ≠ .capture) (some : bracket.node (Node.sequence nodes) ≠ .empty) :
    Lays (depth + 1) ('(' :: (bracket.marks ++ (cs ++ [')'])))
      [bracket.node (Node.sequence nodes)] := by
  intro r rest literal fits
  have inner : (r.open (bracket.under r.flags)).Literal :=
    ⟨literal.anyCase, literal.dotAll, literal.spaced, literal.unnamed⟩
  have deeper : (r.open (bracket.under r.flags)).outer.length = r.outer.length + 1 := rfl
  obtain ⟨l, inside, finished, pieces⟩ := lays _ (')' :: rest) inner (by omega)
  have node : l.node = Node.sequence nodes := by
    have pieces : l.settle.pieces.reverse = nodes := by
      rw [pieces]
      simp [Reading.open, Level.start, Level.settle]
    rw [Level.node_of_finished finished, pieces]
  refine ⟨⟨r.level.settle.finished, r.level.settle.pieces, .some (bracket.node l.node)⟩, ?_,
    Level.settle_finished _, ?_⟩
  · have opens := part_opening literal (by omega) noCapture
    have source : '(' :: (bracket.marks ++ (cs ++ [')'])) ++ rest =
        '(' :: (bracket.marks ++ (cs ++ ')' :: rest)) := by simp
    rw [source]
    have notBlank : NoComment ('(' :: (bracket.marks ++ (cs ++ ')' :: rest))) := by
      cases bracket with
      | capture => exact absurd rfl noCapture
      | _ => simp [NoComment, Bracket.marks]
    refine .part (literal.skip notBlank) (fun length => opens length _) (inside.trans ?_)
    refine .part (Reading.Literal.skip inner (noComment_of_head (by decide) _))
      (fun length => ?_) (.refl _ _)
    cases bracket with
    | capture => exact absurd rfl noCapture
    | _ => simp [Reading.part, Reading.close, Reading.open, Bracket.under, Reading.checkNames,
        literal.unnamed, Bracket.node, bind, Except.bind, pure, Except.pure]
  · rw [node]
    generalize bracket.node (Node.sequence nodes) = node at some
    cases node <;> first | rfl | exact absurd rfl some

end Brackets

theorem Lays.read {source : List Char} {nodes : List Node} {tree : Node}
    (lays : Lays deepestNesting source nodes) (look : (Node.sequence nodes).lookable = some tree) :
    Regex.read source = .ok ⟨tree⟩ ∧ Regex.read (lineFlag ++ source) = .ok ⟨tree⟩ := by
  have from' (r : Reading) (literal : r.Literal) (outermost : r.outer = [])
      (none : r.level.finished = [] ∧ r.level.settle.pieces = []) {length fuel : Nat}
      (room : source.length < fuel) :
      (readParts length fuel r source >>= Reading.finish) = .ok (Node.sequence nodes) := by
    obtain ⟨level, advances, finished, pieces⟩ :=
      lays r [] literal (by rw [outermost]; exact Nat.le_of_eq (Nat.zero_add _))
    rw [List.append_nil] at advances
    have node : level.node = Node.sequence nodes := by
      rw [Level.node_of_finished (finished.trans none.1), pieces, none.2]
      simp
    refine bind_eq_ok.2 ⟨_, readParts_of_advances advances room, ?_⟩
    simp [Reading.finish, outermost, Reading.checkNames, literal.unnamed, node, bind, Except.bind,
      pure, Except.pure]
  have looks {cs : List Char} (parsed : Node.parse cs = .ok (Node.sequence nodes)) :
      Regex.read cs = .ok ⟨tree⟩ :=
    map_eq_ok.2 ⟨tree, bind_eq_ok.2 ⟨_, parsed, by rw [look]; rfl⟩, rfl⟩
  refine ⟨looks ?_, looks ?_⟩
  · rw [parse_eq_finish]
    exact from' .start ⟨rfl, rfl, rfl, rfl⟩ rfl ⟨rfl, rfl⟩ (Nat.lt_succ_self _)
  · rw [parse_eq_finish, show (lineFlag ++ source).length + 1 = source.length + 3 + 1 + 1 from rfl,
      readParts_lineFlag]
    exact from' .lined ⟨rfl, rfl, rfl, rfl⟩ rfl ⟨rfl, rfl⟩ (by omega)

end ScopeGrammar.Regex
