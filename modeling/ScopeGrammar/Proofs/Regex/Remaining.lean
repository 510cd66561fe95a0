import ScopeGrammar.Proofs.Regex.Consumed
import ScopeGrammar.Regex.Reader

set_option autoImplicit false

namespace ScopeGrammar.Regex

variable {cs rest : List Char} {r r' : Reading}

theorem skipComment_suffix (read : skipComment cs = .ok rest) : rest <:+ cs := by
  fun_induction skipComment cs with
  | case1 => simp at read
  | case2 behind =>
    cases read
    exact List.suffix_cons ..
  | case3 c behind ih => exact (ih read).trans ((List.suffix_cons ..).trans (List.suffix_cons ..))
  | case4 c behind _ _ ih => exact (ih read).trans (List.suffix_cons ..)

theorem skipBlanks_suffix {spaced : Bool} {fuel : Nat}
    (read : skipBlanks spaced fuel cs = .ok rest) : rest <:+ cs := by
  induction fuel generalizing cs with
  | zero =>
    cases read
    exact List.suffix_refl _
  | succ fuel ih =>
    unfold skipBlanks at read
    split at read
    · obtain ⟨behind, comment, later⟩ := bind_eq_ok.1 read
      exact (ih later).trans ((skipComment_suffix comment).trans (List.suffix_append [_, _, _] _))
    · split at read
      · exact (ih read).trans ((List.drop_suffix ..).trans
          ((List.dropWhile_suffix _).trans (List.suffix_cons ..)))
      · split at read
        · exact (ih read).trans (List.suffix_cons ..)
        · cases read
          exact List.suffix_refl _
    · cases read
      exact List.suffix_refl _

theorem Reading.skip_suffix (read : r.skip cs = .ok rest) : rest <:+ cs := skipBlanks_suffix read

theorem readBounds_suffix {bounds : Nat × Option Nat}
    (read : readBounds r cs = .ok (some (bounds, rest))) : rest <:+ cs := by
  unfold readBounds at read
  obtain ⟨a, first, read⟩ := bind_eq_ok.1 read
  obtain ⟨b, second, read⟩ := bind_eq_ok.1 read
  have low : b <:+ cs := (Reading.skip_suffix second).trans
    ((List.dropWhile_suffix _).trans (Reading.skip_suffix first))
  split at read
  · rename_i behind
    split at read
    · cases read
    · cases read
      exact (List.suffix_cons ..).trans low
  · rename_i behind
    obtain ⟨c, third, read⟩ := bind_eq_ok.1 read
    obtain ⟨d, fourth, read⟩ := bind_eq_ok.1 read
    have high : d <:+ behind := (Reading.skip_suffix fourth).trans
      ((List.dropWhile_suffix _).trans (Reading.skip_suffix third))
    split at read
    · cases read
      exact (List.suffix_cons ..).trans (high.trans ((List.suffix_cons ..).trans low))
    · cases read
  · cases read

theorem cutMark_suffix (mark : Char) (cs : List Char) : (cutMark mark cs).2 <:+ cs := by
  unfold cutMark
  split
  · exact List.suffix_refl _
  · split
    · exact List.suffix_cons ..
    · exact List.suffix_refl _

theorem Reading.quantify_suffix {least : Nat} {most : Option Nat}
    (read : r.quantify least most cs = .ok (r', rest)) : rest <:+ cs := by
  unfold Reading.quantify at read
  split at read
  · simp at read
  · split at read
    · simp at read
    · split at read
      · simp at read
      · obtain ⟨behind, skipped, read⟩ := bind_eq_ok.1 read
        cases read
        exact (cutMark_suffix ..).trans ((cutMark_suffix ..).trans (Reading.skip_suffix skipped))

theorem readFlags_suffix {flags flags' : Flags} {on lead grouped : Bool}
    (read : readFlags flags on lead cs = .ok (flags', grouped, rest)) : rest <:+ cs := by
  fun_induction readFlags flags on lead cs with
  | case1 => simp at read
  | case2 => simp at read
  | case3 =>
    cases read
    exact List.suffix_cons ..
  | case4 => simp at read
  | case5 =>
    cases read
    exact List.suffix_cons ..
  | case6 _ _ _ _ _ ih => exact (ih read).trans (List.suffix_cons ..)
  | case7 => simp at read
  | case8 => simp at read
  | case9 _ _ _ _ _ _ _ _ _ _ ih => exact (ih read).trans (List.suffix_cons ..)

theorem readName_suffix (read : readName cs = .ok rest) : rest <:+ cs := by
  unfold readName at read
  dsimp only at read
  split at read
  · rename_i behind _ cut
    cases read
    exact (List.suffix_cons ..).trans (cut ▸ List.drop_suffix ..)
  · simp at read

theorem Reading.group_suffix (read : r.group cs = .ok (r', rest)) : rest <:+ cs := by
  unfold Reading.group at read
  split at read
  · simp [throw, throwThe, MonadExceptOf.throw, bind, Except.bind] at read
  · obtain ⟨behind, skipped, read⟩ := bind_eq_ok.1 read
    refine List.IsSuffix.trans ?_ (Reading.skip_suffix skipped)
    split at read
    · cases read
      exact List.suffix_append [_, _] _
    · cases read
      exact List.suffix_append [_, _] _
    · cases read
      exact List.suffix_append [_, _, _] _
    · cases read
      exact List.suffix_append [_, _, _] _
    · obtain ⟨named, name, read⟩ := bind_eq_ok.1 read
      cases read
      exact (readName_suffix name).trans (List.suffix_append [_, _] _)
    · obtain ⟨named, name, read⟩ := bind_eq_ok.1 read
      cases read
      exact (readName_suffix name).trans (List.suffix_append [_, _, _] _)
    · cases read
      exact List.suffix_append [_, _] _
    · obtain ⟨⟨flags, grouped, later⟩, letters, read⟩ := bind_eq_ok.1 read
      cases read
      exact (readFlags_suffix letters).trans (List.suffix_cons ..)
    · cases read
      exact List.suffix_refl _

theorem readClass_suffix {anyCase : Bool} {s : CharSet}
    (read : readClass anyCase cs = .ok (s, rest)) : rest <:+ cs := by
  unfold readClass at read
  obtain ⟨⟨parts, behind⟩, cut, read⟩ := bind_eq_ok.1 read
  obtain ⟨set, -, read⟩ := bind_eq_ok.1 read
  cases read
  obtain ⟨text, rfl, -⟩ := cutClass_text cut
  exact List.suffix_append ..

theorem readEscape_suffix {inClass : Bool} {escape : Escape}
    (read : readEscape inClass cs = .ok (escape, rest)) : rest <:+ cs := by
  unfold readEscape at read
  split at read
  · simp at read
  · rename_i c behind
    split at read
    · cases read
      exact (List.dropWhile_suffix _).trans (List.suffix_cons ..)
    · split at read
      · cases read
        exact List.suffix_cons ..
      · split at read
        · cases read
          exact List.suffix_cons ..
        · obtain ⟨⟨d, later⟩, code, read⟩ := bind_eq_ok.1 read
          cases read
          obtain ⟨text, rfl, -⟩ := readCode_text code
          exact (List.suffix_append ..).trans (List.suffix_cons ..)
        · simp at read

theorem Reading.part_suffix {length : Nat} {c : Char} (read : r.part length c cs = .ok (r', rest)) :
    rest <:+ cs := by
  unfold Reading.part at read
  split at read
  · cases read
    exact List.suffix_refl _
  · obtain ⟨closed, -, read⟩ := bind_eq_ok.1 read
    cases read
    exact List.suffix_refl _
  · exact quantify_suffix read
  · exact quantify_suffix read
  · exact quantify_suffix read
  · obtain ⟨bounds, counted, read⟩ := bind_eq_ok.1 read
    split at read
    · exact (quantify_suffix read).trans (readBounds_suffix counted)
    · cases read
      exact List.suffix_refl _
  · exact group_suffix read
  · obtain ⟨⟨s, behind⟩, read', read⟩ := bind_eq_ok.1 read
    cases read
    exact readClass_suffix read'
  · cases read
    exact List.suffix_refl _
  · cases read
    exact List.suffix_refl _
  · cases read
    exact List.suffix_refl _
  · obtain ⟨⟨escape, behind⟩, escaped, read⟩ := bind_eq_ok.1 read
    refine List.IsSuffix.trans ?_ (readEscape_suffix escaped)
    cases escape with
    | char | set | anchor =>
      cases read
      exact List.suffix_refl _
    | back n =>
      dsimp only at read
      split at read
      · cases read
        exact List.suffix_refl _
      · cases read
  · cases read
    exact List.suffix_refl _

end ScopeGrammar.Regex
