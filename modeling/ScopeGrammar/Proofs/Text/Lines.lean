import ScopeGrammar.Text.Basic

set_option autoImplicit false

namespace ScopeGrammar.Text

def chomp (line : List Char) : List Char :=
  if line.getLast? = some '\r' then line.dropLast else line

theorem chomp_cases (line : List Char) : chomp line = line ∨ line = chomp line ++ ['\r'] := by
  unfold chomp
  split
  · rename_i last
    right
    obtain ⟨front, rfl⟩ := List.getLast?_eq_some_iff.1 last
    simp
  · exact .inl rfl

theorem splitAt_of_not_mem {separator : Char} {cs : List Char} (without : separator ∉ cs) :
    splitAt separator cs = [cs] := by
  induction cs with
  | nil => rfl
  | cons c rest ih =>
    simp only [List.mem_cons, not_or] at without
    rw [splitAt, if_neg (Ne.symm without.1), ih without.2]

theorem splitAt_append {separator : Char} {cs : List Char} (without : separator ∉ cs)
    (rest : List Char) :
    splitAt separator (cs ++ separator :: rest) = cs :: splitAt separator rest := by
  induction cs with
  | nil => simp [splitAt]
  | cons c cs ih =>
    simp only [List.mem_cons, not_or] at without
    rw [List.cons_append, splitAt, if_neg (Ne.symm without.1), ih without.2]

theorem lines_of_not_mem {cs : List Char} (without : '\n' ∉ cs) :
    lines cs = if cs = [] then [] else [cs] := by
  unfold lines
  rw [splitAt_of_not_mem without]
  rfl

theorem lines_append {cs : List Char} (without : '\n' ∉ cs) (rest : List Char) :
    lines (cs ++ '\n' :: rest) = chomp cs :: lines rest := by
  unfold lines
  rw [splitAt_append without, List.reverse_cons]
  cases reversed : (splitAt '\n' rest).reverse with
  | nil => simp [splitAt_ne_nil] at reversed
  | cons last ended =>
    simp only [List.cons_append, List.reverse_append, List.reverse_cons, List.reverse_nil,
      List.nil_append, List.map_cons, chomp]
    split <;> rfl

theorem exists_piece (separator : Char) (cs : List Char) :
    separator ∉ cs ∨ ∃ piece rest, cs = piece ++ separator :: rest ∧ separator ∉ piece := by
  by_cases member : separator ∈ cs
  · obtain ⟨piece, rest, same, without⟩ := List.eq_append_cons_of_mem member
    exact .inr ⟨piece, rest, same, without⟩
  · exact .inl member

/-- To show something of every text, show it of a text without separators and of a piece before a
separator. -/
theorem splitAt_induction (separator : Char) {motive : List Char → Prop}
    (last : ∀ cs, separator ∉ cs → motive cs)
    (cons : ∀ piece rest, separator ∉ piece → motive rest → motive (piece ++ separator :: rest))
    (cs : List Char) : motive cs := by
  rcases exists_piece separator cs with without | ⟨piece, rest, same, without⟩
  · exact last cs without
  · have shorter : rest.length < cs.length := by simp [same]; omega
    rw [same]
    exact cons piece rest without (splitAt_induction separator last cons rest)
termination_by cs.length

theorem exists_line (cs : List Char) :
    '\n' ∉ cs ∨ ∃ line rest, cs = line ++ '\n' :: rest ∧ '\n' ∉ line :=
  exists_piece '\n' cs

theorem chomp_begins (line : List Char) : chomp line <+: line := by
  unfold chomp
  split
  · exact List.dropLast_prefix line
  · exact List.prefix_rfl

theorem prefix_of_head_lines {cs line : List Char} (first : (lines cs).head? = some line) :
    line <+: cs ∧ '\n' ∉ line := by
  rcases exists_line cs with without | ⟨front, rest, rfl, without⟩
  · rw [lines_of_not_mem without] at first
    split at first
    · simp at first
    · cases first
      exact ⟨List.prefix_rfl, without⟩
  · rw [lines_append without] at first
    cases first
    exact ⟨(chomp_begins front).trans (List.prefix_append _ _),
      fun member => without ((chomp_begins front).subset member)⟩

theorem prefix_head_lines {cs front line : List Char} (begins : front <+: cs)
    (noFeed : '\n' ∉ front) (noReturn : '\r' ∉ front) (first : (lines cs).head? = some line) :
    front <+: line := by
  rcases exists_line cs with without | ⟨whole, rest, rfl, without⟩
  · rw [lines_of_not_mem without] at first
    split at first
    · simp at first
    · cases first
      exact begins
  · rw [lines_append without] at first
    cases first
    have inside : front <+: whole := by
      have ended : whole ++ ['\n'] <+: whole ++ '\n' :: rest :=
        (List.prefix_append_right_inj _).2 (by simp)
      rcases List.prefix_or_prefix_of_prefix begins ended with le | ge
      · rcases List.prefix_concat_iff.1 le with same | le
        · exact absurd (by simp [same]) noFeed
        · exact le
      · exact absurd (ge.subset (by simp)) noFeed
    rcases chomp_cases whole with same | same
    · rwa [same]
    · have inside' : front <+: chomp whole ++ ['\r'] := by rwa [← same]
      rcases List.prefix_concat_iff.1 inside' with equal | le
      · exact absurd (by simp [equal]) noReturn
      · exact le

/-- To show something of every text and its lines, show it of the last line and of a line before a
line feed. -/
theorem lines_induction {motive : List Char → List (List Char) → Prop} (nil : motive [] [])
    (last : ∀ line, line ≠ [] → '\n' ∉ line → motive line [line])
    (cons : ∀ line rest, '\n' ∉ line → motive rest (lines rest) →
      motive (line ++ '\n' :: rest) (chomp line :: lines rest))
    (cs : List Char) : motive cs (lines cs) := by
  rcases exists_line cs with without | ⟨line, rest, same, without⟩
  · rw [lines_of_not_mem without]
    by_cases empty : cs = []
    · simpa [empty] using nil
    · simpa [empty] using last cs empty without
  · have shorter : rest.length < cs.length := by simp [same]; omega
    rw [same, lines_append without]
    exact cons line rest without (lines_induction nil last cons rest)
termination_by cs.length

section Run

variable {p : Char → Bool}

theorem span_append {run : List Char} (all : ∀ c ∈ run, p c = true) (rest : List Char)
    (stops : ∀ c ∈ rest.head?, p c = false) :
    (run ++ rest).takeWhile p = run ∧ (run ++ rest).dropWhile p = rest := by
  rw [List.takeWhile_append_of_pos all, List.dropWhile_append_of_pos all]
  cases rest with
  | nil => simp
  | cons c rest => simp [stops c rfl]

theorem split_span (p : Char → Bool) (cs : List Char) :
    cs = cs.takeWhile p ++ cs.dropWhile p ∧ ∀ c ∈ cs.takeWhile p, p c = true :=
  ⟨List.takeWhile_append_dropWhile.symm, List.all_eq_true.1 List.all_takeWhile⟩

end Run

end ScopeGrammar.Text
