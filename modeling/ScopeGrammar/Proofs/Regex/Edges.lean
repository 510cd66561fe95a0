import ScopeGrammar.Proofs.Regex.Remaining
import ScopeGrammar.Regex.Matching

/-!
Reading a source behind the flag by which `^` and `$` are edges of lines. It gives the tree of the
bare source but for these edges, unless the source begins with a number of repetitions: the flag is
something that stands before it and cannot be repeated.
-/

set_option autoImplicit false

namespace ScopeGrammar.Regex

def Anchor.inText : Anchor → Anchor
  | .lineStart => .textStart
  | .lineEnd => .textEnd
  | a => a

namespace Node

def inText : Node → Node
  | .empty => .empty
  | .never => .never
  | .set s => .set s
  | .anchor a => .anchor a.inText
  | .seq a b => .seq a.inText b.inText
  | .alt a b => .alt a.inText b.inText
  | .group a => .group a.inText
  | .many least most greedy a => .many least most greedy a.inText
  | .ahead a => .ahead a.inText
  | .notAhead a => .notAhead a.inText
  | .behind a => .behind a.inText
  | .notBehind a => .notBehind a.inText
  | .atomic a => .atomic a.inText
  | .back n => .back n

@[simp] theorem repeatable_inText (a : Node) : a.inText.repeatable = a.repeatable := by
  cases a <;> rfl

theorem sequence_inText (nodes : List Node) :
    (sequence nodes).inText = sequence (nodes.map inText) := by
  induction nodes with
  | nil => rfl
  | cons a rest ih =>
    cases rest with
    | nil => rfl
    | cons b rest => exact congrArg (Node.seq a.inText) ih

theorem branches_inText (nodes : List Node) :
    (branches nodes).inText = branches (nodes.map inText) := by
  induction nodes with
  | nil => rfl
  | cons a rest ih => exact congrArg (Node.alt a.inText) ih

theorem alternatives_inText (nodes : List Node) :
    (alternatives nodes).inText = alternatives (nodes.map inText) := by
  match nodes with
  | [] => rfl
  | [a] => rfl
  | a :: b :: rest => exact branches_inText (a :: b :: rest)

@[simp] theorem width_inText (a : Node) : a.inText.width = a.width := by
  induction a with
  | alt a b first second =>
    cases b <;> simp_all [inText, width]
  | seq | group | many | atomic => simp_all [inText, width]
  | _ => rfl

theorem choices_inText (a : Node) : a.inText.choices = a.choices.map inText := by
  induction a with
  | alt a b _ second => simp [inText, choices, second]
  | _ => rfl

theorem lookBehind_inText (a : Node) : a.inText.lookBehind = a.lookBehind.map inText := by
  simp only [lookBehind, width_inText, choices_inText, List.all_map, ne_eq, List.map_eq_nil_iff]
  split
  · rfl
  · simp only [Function.comp_def, width_inText]
    split
    · simp [branches_inText, inText, Function.comp_def]
    · rfl

theorem notLookBehind_inText (a : Node) : a.inText.notLookBehind = a.notLookBehind.map inText := by
  simp only [notLookBehind, width_inText, choices_inText, List.all_map, ne_eq, List.map_eq_nil_iff]
  split
  · rfl
  · simp only [Function.comp_def, width_inText]
    split
    · simp [sequence_inText, inText, Function.comp_def]
    · rfl

theorem lookable_inText (a : Node) : a.inText.lookable = a.lookable.map inText := by
  induction a with
  | seq a b first second | alt a b first second =>
    rw [inText, lookable, lookable, first, second]
    cases a.lookable <;> cases b.lookable <;> rfl
  | group a ih | many least most greedy a ih | ahead a ih | notAhead a ih | atomic a ih =>
    rw [inText, lookable, lookable, ih]
    cases a.lookable <;> rfl
  | behind a ih =>
    rw [inText, lookable, lookable, ih]
    cases a.lookable with
    | none => rfl
    | some a => exact lookBehind_inText a
  | notBehind a ih =>
    rw [inText, lookable, lookable, ih]
    cases a.lookable with
    | none => rfl
    | some a => exact notLookBehind_inText a
  | _ => rfl

end Node

def Flags.inText (f : Flags) : Flags := { f with multiline := false }

def Bracket.inText : Bracket → Bracket
  | .plain outside => .plain outside.inText
  | bracket => bracket

namespace Level

def inText (l : Level) : Level :=
  ⟨l.finished.map Node.inText, l.pieces.map Node.inText, l.last.map Node.inText⟩

theorem settle_inText (l : Level) : l.inText.settle = l.settle.inText := by
  obtain ⟨finished, pieces, last⟩ := l
  cases last with
  | none => rfl
  | some node => cases node <;> rfl

theorem atom_inText (l : Level) (node : Node) :
    l.inText.atom node.inText = (l.atom node).inText := by
  rw [atom, settle_inText]
  rfl

theorem current_inText (l : Level) : l.inText.current = l.current.inText := by
  rw [current, settle_inText, current, Node.sequence_inText, List.map_reverse]
  rfl

theorem bar_inText (l : Level) : l.inText.bar = l.bar.inText := by
  rw [bar, current_inText]
  rfl

theorem node_inText (l : Level) : l.inText.node = l.node.inText := by
  rw [node, current_inText, node, Node.alternatives_inText, List.map_reverse]
  rfl

end Level

theorem Bracket.node_inText (bracket : Bracket) (body : Node) :
    bracket.inText.node body.inText = (bracket.node body).inText := by
  cases bracket <;> rfl

namespace Reading

def inText (r : Reading) : Reading :=
  { r with
    flags := r.flags.inText
    level := r.level.inText
    outer := r.outer.map fun entry => (entry.1.inText, entry.2.inText) }

def inTextBehind (read : Reading × List Char) : Reading × List Char := (read.1.inText, read.2)

variable {r r' : Reading} {cs : List Char}

theorem skip_inText (r : Reading) (cs : List Char) : r.inText.skip cs = r.skip cs := rfl

theorem readBounds_inText (r : Reading) (cs : List Char) :
    readBounds r.inText cs = readBounds r cs := rfl

theorem atom_inText (r : Reading) (node : Node) :
    r.inText.atom node.inText = (r.atom node).inText := by
  rw [atom, atom, inText, inText, Level.atom_inText]

theorem open_inText (r : Reading) (bracket : Bracket) :
    r.inText.open bracket.inText = (r.open bracket).inText := by
  cases bracket <;> simp [Reading.open, inText, Bracket.inText, Level.settle_inText] <;> rfl

theorem quantify_inText (r : Reading) (least : Nat) (most : Option Nat) (cs : List Char) :
    r.inText.quantify least most cs = (r.quantify least most cs).map inTextBehind := by
  unfold quantify
  have top : r.inText.level.last = r.level.last.map Node.inText := rfl
  rw [top]
  cases r.level.last with
  | none => rfl
  | some node =>
    simp only [Option.map_some, Node.repeatable_inText, skip_inText]
    split
    · rfl
    · split
      · rfl
      · cases r.skip cs with
        | error => rfl
        | ok behind =>
          simp only [bind, Except.bind, Except.map, pure, Except.pure, inTextBehind, inText,
            Level.piece, Level.inText]
          split <;> rfl

theorem checkNames_inText (r : Reading) : r.inText.checkNames = r.checkNames := by
  simp [checkNames, inText, Level.inText]

theorem close_inText (r : Reading) : r.inText.close = r.close.map inText := by
  unfold close
  rw [checkNames_inText]
  cases outer : r.outer with
  | nil => simp [inText, outer, Except.map]
  | cons entry rest =>
    obtain ⟨bracket, around⟩ := entry
    simp only [inText, outer, List.map_cons]
    cases r.checkNames with
    | error => rfl
    | ok =>
      simp only [bind, Except.bind, Except.map, pure, Except.pure, Level.node_inText,
        Bracket.node_inText]
      cases bracket <;> rfl

end Reading

theorem Flags.set?_inText (f : Flags) (on : Bool) (c : Char) :
    (f.inText.set? on c).map Flags.inText = (f.set? on c).map Flags.inText := by
  unfold Flags.set?
  split <;> first | rfl | (split <;> rfl)

theorem readFlags_inText {f g : Flags} (same : f.inText = g.inText) (on lead : Bool)
    (cs : List Char) :
    (readFlags f on lead cs).map (fun read => (read.1.inText, read.2)) =
      (readFlags g on lead cs).map (fun read => (read.1.inText, read.2)) := by
  induction cs generalizing f g on lead with
  | nil => rfl
  | cons c rest ih =>
    rw [readFlags, readFlags]
    split
    · split
      · rfl
      · simp [Except.map, same]
    · split
      · split
        · rfl
        · simp [Except.map, same]
      · split
        · split
          · exact ih same false true
          · rfl
        · have set : (f.set? on c).map Flags.inText = (g.set? on c).map Flags.inText := by
            rw [← Flags.set?_inText f, same, Flags.set?_inText g]
          cases first : f.set? on c with
          | none =>
            rw [first, Option.map_none] at set
            rw [Option.map_eq_none_iff.1 set.symm]
          | some f' =>
            rw [first, Option.map_some] at set
            obtain ⟨g', second, same'⟩ := Option.map_eq_some_iff.1 set.symm
            rw [second]
            exact ih same'.symm on false

section Alike

variable {r r' : Reading} {cs : List Char}

theorem atom_alike (same : r.inText = r'.inText) {node node' : Node}
    (nodes : node.inText = node'.inText) : (r.atom node).inText = (r'.atom node').inText := by
  rw [← Reading.atom_inText, same, nodes, Reading.atom_inText]

theorem open_alike (same : r.inText = r'.inText) {bracket bracket' : Bracket}
    (brackets : bracket.inText = bracket'.inText) :
    (r.open bracket).inText = (r'.open bracket').inText := by
  rw [← Reading.open_inText, same, brackets, Reading.open_inText]

theorem flags_alike (same : r.inText = r'.inText) {f f' : Flags} (flags : f.inText = f'.inText) :
    Reading.inText { r with flags := f } = Reading.inText { r' with flags := f' } := by
  have all := congrArg (fun r : Reading => { r with flags := f.inText }) same
  have all' := congrArg (fun f : Flags => { r'.inText with flags := f }) flags
  exact all.trans all'

theorem group_alike (same : r.inText = r'.inText) (cs : List Char) :
    (r.group cs).map Reading.inTextBehind = (r'.group cs).map Reading.inTextBehind := by
  have depth : r.outer.length = r'.outer.length := by
    simpa [Reading.inText] using congrArg (fun r : Reading => r.outer.length) same
  have skips : r.skip cs = r'.skip cs := by
    rw [← Reading.skip_inText, same, Reading.skip_inText]
  have opens (bracket : Bracket) (rest : List Char) :
      Reading.inTextBehind (r.open bracket, rest) = Reading.inTextBehind (r'.open bracket, rest) :=
    congrArg (·, rest) (open_alike same rfl)
  have opensNamed (rest : List Char) :
      Reading.inTextBehind ({ r.open .capture with names := true }, rest) =
        Reading.inTextBehind ({ r'.open .capture with names := true }, rest) :=
    congrArg (fun r : Reading => ({ r with names := true }, rest))
      (open_alike same (rfl : Bracket.inText .capture = Bracket.inText .capture))
  unfold Reading.group
  rw [depth, skips]
  split
  · rfl
  · refine map_bind_congr _ Reading.inTextBehind fun behind => ?_
    dsimp only
    split
    · exact congrArg Except.ok (opens _ _)
    · exact congrArg Except.ok (opens _ _)
    · exact congrArg Except.ok (opens _ _)
    · exact congrArg Except.ok (opens _ _)
    · refine map_bind_congr _ Reading.inTextBehind fun name => ?_
      exact congrArg Except.ok (opensNamed name)
    · refine map_bind_congr _ Reading.inTextBehind fun name => ?_
      exact congrArg Except.ok (opensNamed name)
    · exact congrArg Except.ok (opens _ _)
    · refine map_bind_eq (fun read : Flags × Bool × List Char => (read.1.inText, read.2))
        Reading.inTextBehind
        (readFlags_inText (congrArg Reading.flags same) true true _) ?_
      rintro ⟨f, grouped, later⟩ ⟨f', grouped', later'⟩ pair
      simp only [Prod.mk.injEq] at pair
      obtain ⟨flags, rfl, rfl⟩ := pair
      have changed := flags_alike same flags
      cases grouped with
      | false => exact congrArg Except.ok (congrArg (·, later) (atom_alike changed rfl))
      | true =>
        have outside : (Bracket.plain r.flags).inText = (Bracket.plain r'.flags).inText :=
          congrArg Bracket.plain (congrArg Reading.flags same)
        exact congrArg Except.ok (congrArg (·, later) (open_alike changed outside))
    · exact congrArg Except.ok (opens _ _)

/-- A part of a source does the same to readings that differ in edges alone. -/
theorem part_alike (same : r.inText = r'.inText) (length : Nat) (c : Char) (cs : List Char) :
    (r.part length c cs).map Reading.inTextBehind =
      (r'.part length c cs).map Reading.inTextBehind := by
  have anyCase : r.flags.anyCase = r'.flags.anyCase := congrArg (·.flags.anyCase) same
  have atoms {node node' : Node} (nodes : node.inText = node'.inText) (rest : List Char) :
      Except.map Reading.inTextBehind (.ok (r.atom node, rest) : Except Problem _) =
        .map Reading.inTextBehind (.ok (r'.atom node', rest)) :=
    congrArg Except.ok (congrArg (·, rest) (atom_alike same nodes))
  have chars (c : Char) (rest : List Char) :
      Except.map Reading.inTextBehind (.ok (r.char c, rest) : Except Problem _) =
        .map Reading.inTextBehind (.ok (r'.char c, rest)) := by
    unfold Reading.char
    rw [anyCase]
    exact atoms rfl rest
  have repeats (least : Nat) (most : Option Nat) (cs : List Char) :
      (r.quantify least most cs).map Reading.inTextBehind =
        (r'.quantify least most cs).map Reading.inTextBehind := by
    rw [← Reading.quantify_inText, same, Reading.quantify_inText]
  unfold Reading.part
  split
  · have bars : r.level.bar.inText = r'.level.bar.inText := by
      have levels : r.level.inText = r'.level.inText := congrArg Reading.level same
      rw [← Level.bar_inText, levels, Level.bar_inText]
    have both := congrArg (fun r : Reading => { r with level := r'.level.bar.inText }) same
    have first := congrArg (fun l : Level => { r.inText with level := l }) bars
    exact congrArg Except.ok (congrArg (·, cs) (first.trans both))
  · have closes : r.close.map Reading.inText = r'.close.map Reading.inText := by
      rw [← Reading.close_inText, same, Reading.close_inText]
    exact map_bind_eq _ _ closes fun _ _ alike => congrArg Except.ok (congrArg (·, cs) alike)
  · exact repeats ..
  · exact repeats ..
  · exact repeats ..
  · have last : r.level.last.map Node.inText = r'.level.last.map Node.inText :=
      congrArg (·.level.last) same
    have bounds : readBounds r cs = readBounds r' cs := by
      rw [← Reading.readBounds_inText, same, Reading.readBounds_inText]
    rw [bounds]
    refine map_bind_congr _ Reading.inTextBehind fun counted => ?_
    -- Whether an atom waits decides whether a number of repetitions is one.
    cases first : r.level.last with
    | none =>
      rw [first, Option.map_none] at last
      rw [Option.map_eq_none_iff.1 last.symm]
      exact chars ..
    | some node =>
      rw [first, Option.map_some] at last
      obtain ⟨node', second, -⟩ := Option.map_eq_some_iff.1 last.symm
      rw [second]
      cases counted with
      | none => exact chars ..
      | some counted => exact repeats ..
  · exact group_alike same cs
  · rw [anyCase]
    refine map_bind_congr _ Reading.inTextBehind fun ⟨s, rest⟩ => ?_
    exact atoms rfl rest
  · have dotAll : r.flags.dotAll = r'.flags.dotAll := congrArg (·.flags.dotAll) same
    rw [dotAll]
    exact atoms rfl cs
  · refine atoms ?_ cs
    split <;> split <;> rfl
  · refine atoms ?_ cs
    split <;> split <;> rfl
  · have opened : r.opened = r'.opened := congrArg (·.opened) same
    refine map_bind_congr _ Reading.inTextBehind fun ⟨escape, rest⟩ => ?_
    cases escape with
    | char d => exact chars ..
    | set s => exact atoms rfl rest
    | anchor a => exact atoms rfl rest
    | back n =>
      dsimp only
      rw [opened]
      split
      · have both := congrArg (fun r : Reading => ({ r with numbers := true }, rest))
          (atom_alike same (rfl : Node.inText (.back n) = Node.inText (.back n)))
        exact congrArg Except.ok both
      · rfl
  · exact chars ..

theorem part_longer {length length' : Nat} (longer : length ≤ length') {c : Char}
    {read : Reading × List Char} (is : r.part length c cs = .ok read) :
    r.part length' c cs = .ok read := by
  revert is
  unfold Reading.part
  split
  case h_12 =>
    intro is
    obtain ⟨⟨escape, rest⟩, escaped, later⟩ := bind_eq_ok.1 is
    refine bind_eq_ok.2 ⟨_, escaped, ?_⟩
    cases escape with
    | back n =>
      dsimp only at later ⊢
      split at later
      · rename_i below
        simp only [Bool.and_eq_true, decide_eq_true_eq] at below
        rw [if_pos (by simp only [Bool.and_eq_true, decide_eq_true_eq]; omega)]
        exact later
      · cases later
    | _ => exact later
  all_goals exact id

theorem Reading.part_behind {length length' : Nat} {c : Char} {later : List Char} {next : Reading}
    (same : r.inText = r'.inText) (longer : length ≤ length')
    (part : r.part length c cs = .ok (next, later)) :
    ∃ next', r'.part length' c cs = .ok (next', later) ∧ next.inText = next'.inText := by
  have mapped : (r'.part length' c cs).map Reading.inTextBehind = .ok (next.inText, later) := by
    rw [← part_alike same, part_longer longer part]
    rfl
  obtain ⟨⟨next', later'⟩, part', pair⟩ := map_eq_ok.1 mapped
  simp only [Reading.inTextBehind, Prod.mk.injEq] at pair
  obtain ⟨alike, rfl⟩ := pair
  exact ⟨next', part', alike.symm⟩

theorem readParts_alike {length length' fuel fuel' : Nat} {last : Reading}
    (same : r.inText = r'.inText) (longer : length ≤ length') (room : cs.length < fuel)
    (room' : cs.length < fuel') (read : readParts length fuel r cs = .ok last) :
    ∃ last', readParts length' fuel' r' cs = .ok last' ∧ last.inText = last'.inText := by
  induction fuel generalizing fuel' r r' cs with
  | zero => omega
  | succ fuel ih =>
    obtain ⟨fuel', rfl⟩ : ∃ n, fuel' = n + 1 := ⟨fuel' - 1, by omega⟩
    rw [readParts] at read ⊢
    obtain ⟨behind, skipped, read⟩ := bind_eq_ok.1 read
    have skipped' : r'.skip cs = .ok behind := by
      rw [← Reading.skip_inText, ← same, Reading.skip_inText, skipped]
    have shorter := (Reading.skip_suffix skipped).length_le
    cases behind with
    | nil =>
      cases read
      exact ⟨r', bind_eq_ok.2 ⟨[], skipped', rfl⟩, same⟩
    | cons c rest =>
      obtain ⟨⟨next, later⟩, part, read⟩ := bind_eq_ok.1 read
      obtain ⟨next', part', alike⟩ := Reading.part_behind same longer part
      have less : later.length ≤ rest.length := (Reading.part_suffix part).length_le
      rw [List.length_cons] at shorter
      obtain ⟨last', read', same'⟩ : ∃ last', readParts length' fuel' next' later = .ok last' ∧
          last.inText = last'.inText := ih alike (by omega) (by omega) read
      exact ⟨last', bind_eq_ok.2 ⟨_, skipped', bind_eq_ok.2 ⟨_, part', read'⟩⟩, same'⟩

end Alike

/-- Whether a source begins, apart from comments, with a number of repetitions. -/
def opensCounted (source : List Char) : Bool :=
  match Reading.start.skip source with
  | .ok ('\x7b' :: rest) =>
    match readBounds .start rest with
    | .ok (some _) => true
    | _ => false
  | _ => false

def Reading.flagged : Reading :=
  { Reading.start with flags := { Flags.plain with multiline := true } }

/-- The state of the reader behind a flag at the beginning of the source. The flag waits to be
repeated as an atom does. -/
def Reading.lined : Reading := { Reading.flagged with level := ⟨[], [], some .empty⟩ }

def lineFlag : List Char := ['(', '?', 'm', ')']

theorem readParts_lineFlag (length fuel : Nat) (source : List Char) :
    readParts length (fuel + 1) .start (lineFlag ++ source) =
      readParts length fuel .lined source := rfl

section Flagged

variable {length : Nat} {c : Char} {cs : List Char}

theorem part_lined {read : Reading × List Char}
    (is : Reading.flagged.part length c cs = .ok read)
    (uncounted : c = '\x7b' → ∀ bounds, readBounds .start cs ≠ .ok (some bounds)) :
    Reading.lined.part length c cs = .ok read := by
  revert is
  unfold Reading.part
  split
  case h_3 | h_4 | h_5 =>
    intro is
    cases is
  case h_6 =>
    intro is
    obtain ⟨bounds, counted, later⟩ := bind_eq_ok.1 is
    have counted' : readBounds .lined cs = .ok bounds := counted
    rw [counted']
    cases bounds with
    | none => exact later
    | some bounds => exact absurd counted (uncounted rfl bounds)
  all_goals exact id

theorem part_counted {bounds : (Nat × Option Nat) × List Char}
    (counted : readBounds .start cs = .ok (some bounds)) :
    Reading.lined.part length '\x7b' cs = .error .nothingToRepeat := by
  have counted' : readBounds .lined cs = .ok (some bounds) := counted
  rw [Reading.part, counted']
  rfl

end Flagged

def Reading.finish (r : Reading) : Except Problem Node := do
  if r.outer ≠ [] then throw .unclosedGroup
  r.checkNames
  return r.level.node

theorem parse_eq_finish (source : List Char) :
    Node.parse source =
      readParts (String.ofList source).utf8ByteSize (source.length + 1) .start source >>=
        Reading.finish := rfl

theorem finish_alike {r r' : Reading} (same : r.inText = r'.inText) :
    r.finish.map Node.inText = r'.finish.map Node.inText := by
  have finish_inText (r : Reading) : r.inText.finish = r.finish.map Node.inText := by
    unfold Reading.finish
    rw [Reading.checkNames_inText]
    simp only [Reading.inText, ne_eq, List.map_eq_nil_iff, Level.node_inText]
    split
    · rfl
    · cases r.checkNames <;> rfl
  rw [← finish_inText, same, finish_inText]

section Source

variable {source : List Char}

theorem lineFlag_longer (source : List Char) :
    (String.ofList source).utf8ByteSize ≤ (String.ofList (lineFlag ++ source)).utf8ByteSize := by
  rw [String.ofList_append, String.utf8ByteSize_append]
  exact Nat.le_add_left _ _

/-- The flag before a source leaves its tree as it is, but for the edges. -/
theorem parse_lineFlag {tree : Node} (parsed : Node.parse source = .ok tree)
    (uncounted : opensCounted source = false) :
    ∃ tree', Node.parse (lineFlag ++ source) = .ok tree' ∧ tree.inText = tree'.inText := by
  have longer := lineFlag_longer source
  rw [parse_eq_finish] at parsed ⊢
  generalize (String.ofList source).utf8ByteSize = length at parsed longer
  generalize (String.ofList (lineFlag ++ source)).utf8ByteSize = length' at longer
  obtain ⟨last, read, finished⟩ := bind_eq_ok.1 parsed
  rw [show (lineFlag ++ source).length + 1 = source.length + 3 + 1 + 1 from rfl, readParts_lineFlag]
  obtain ⟨behind, skipped, read⟩ := bind_eq_ok.1 read
  have shorter := (Reading.skip_suffix skipped).length_le
  have skipped' : Reading.lined.skip source = .ok behind := skipped
  cases behind with
  | nil =>
    cases read
    exact ⟨tree, bind_eq_ok.2 ⟨_, bind_eq_ok.2 ⟨[], skipped', rfl⟩, finished⟩, rfl⟩
  | cons c rest =>
    obtain ⟨⟨next, later⟩, part, read⟩ := bind_eq_ok.1 read
    have bare : Reading.start.inText = Reading.flagged.inText := rfl
    obtain ⟨next', part', alike⟩ := Reading.part_behind bare longer part
    have less : later.length ≤ rest.length := (Reading.part_suffix part).length_le
    rw [List.length_cons] at shorter
    have lined := part_lined part' fun same bounds counted => by
      subst same
      simp [opensCounted, skipped, counted] at uncounted
    obtain ⟨last', read', same⟩ : ∃ last',
        readParts length' (source.length + 3) next' later = .ok last' ∧
          last.inText = last'.inText :=
      readParts_alike alike longer (by omega) (by omega) read
    have finishes := (finish_alike same).symm.trans (congrArg _ finished)
    obtain ⟨tree', finished', trees⟩ := map_eq_ok.1 finishes
    exact ⟨tree', bind_eq_ok.2 ⟨last', bind_eq_ok.2 ⟨_, skipped', bind_eq_ok.2 ⟨_, lined, read'⟩⟩,
      finished'⟩, trees.symm⟩

theorem parse_lineFlag_counted (counted : opensCounted source = true) :
    Node.parse (lineFlag ++ source) = .error .nothingToRepeat := by
  rw [parse_eq_finish, show (lineFlag ++ source).length + 1 = source.length + 3 + 1 + 1 from rfl,
    readParts_lineFlag]
  unfold opensCounted at counted
  split at counted
  · rename_i rest skipped
    split at counted
    · rename_i bounds bounded
      have skipped' : Reading.lined.skip source = .ok ('\x7b' :: rest) := skipped
      rw [readParts, skipped']
      show (Reading.lined.part _ '\x7b' rest >>= _) >>= Reading.finish = _
      rw [part_counted bounded]
      rfl
    · cases counted
  · cases counted

/-- A source that can be read can be read behind the flag too, with the same tree but for the edges,
as long as it does not begin with a number of repetitions. -/
theorem read_lineFlag {regex : Regex} (read : Regex.read source = .ok regex)
    (uncounted : opensCounted source = false) :
    ∃ lined, Regex.read (lineFlag ++ source) = .ok lined ∧
      lined.tree.inText = regex.tree.inText := by
  obtain ⟨tree, whole, rfl⟩ := map_eq_ok.1 read
  obtain ⟨parsed, parse, look⟩ := bind_eq_ok.1 whole
  obtain ⟨parsed', parse', same⟩ := parse_lineFlag parse uncounted
  have looks : parsed'.lookable.map Node.inText = parsed.lookable.map Node.inText := by
    rw [← Node.lookable_inText, ← same, Node.lookable_inText]
  cases lookable : parsed.lookable with
  | none => simp [lookable] at look
  | some node =>
    rw [lookable] at look looks
    cases look
    obtain ⟨node', lookable', trees⟩ := Option.map_eq_some_iff.1 looks
    refine ⟨⟨node'⟩, map_eq_ok.2 ⟨node', bind_eq_ok.2 ⟨parsed', parse', ?_⟩, rfl⟩, trees⟩
    rw [lookable']
    rfl

theorem read_lineFlag_counted (counted : opensCounted source = true) :
    Regex.read (lineFlag ++ source) = .error .nothingToRepeat := by
  rw [Regex.read, Node.read, parse_lineFlag_counted counted]
  rfl

end Source

end ScopeGrammar.Regex
