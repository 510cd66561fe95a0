import Mathlib.Data.String.Basic
import Mathlib.Data.Nat.Notation
import Mathlib.Tactic.SplitIfs
import ScopeGrammar.Text.Basic

set_option autoImplicit false

namespace ScopeGrammar.Text

theorem digits_lt {m n : Nat} (below : m < n) :
    m / 64 < n / 64 ∨ m / 64 = n / 64 ∧ m % 64 < n % 64 := by
  omega

/-- The bytes of two characters part before either of them ends, whatever stands behind them. -/
theorem encodeChar_append_lt {c d : Char} (below : c < d) (s t : List UInt8) :
    String.utf8EncodeChar c ++ s < String.utf8EncodeChar d ++ t := by
  have order : c.val.toNat < d.val.toNat := below
  have last : d.val.toNat < 1114112 := by
    have valid := d.valid
    simp only [UInt32.isValidChar, Nat.isValidChar] at valid
    omega
  unfold String.utf8EncodeChar
  generalize c.val.toNat = m at order
  generalize d.val.toNat = n at order last
  dsimp only
  have third (k : Nat) : k / 4096 = k / 64 / 64 := by omega
  have fourth (k : Nat) : k / 262144 = k / 64 / 64 / 64 := by omega
  have digits : m / 64 / 64 / 64 < n / 64 / 64 / 64 ∨ m / 64 / 64 / 64 = n / 64 / 64 / 64 ∧
      (m / 64 / 64 % 64 < n / 64 / 64 % 64 ∨ m / 64 / 64 % 64 = n / 64 / 64 % 64 ∧
        (m / 64 % 64 < n / 64 % 64 ∨ m / 64 % 64 = n / 64 % 64 ∧ m % 64 < n % 64)) := by
    rcases digits_lt order with order | ⟨same, order⟩
    · rcases digits_lt order with order | ⟨same, order⟩
      · exact (digits_lt order).imp_right fun ⟨same, order⟩ => ⟨same, .inl order⟩
      · exact .inr ⟨by rw [same], .inr ⟨by rw [same], .inl order⟩⟩
    · exact .inr ⟨by rw [same], .inr ⟨by rw [same], .inr ⟨by rw [same], order⟩⟩⟩
  split_ifs <;>
    simp only [List.cons_append, List.nil_append, List.cons_lt_cons_iff, UInt8.lt_iff_toNat_lt,
      ← UInt8.toNat_inj, UInt8.toNat_ofNat', third, fourth] <;>
    omega

theorem encode_lt {cs ds : List Char} (below : cs < ds) :
    cs.flatMap String.utf8EncodeChar < ds.flatMap String.utf8EncodeChar := by
  induction cs generalizing ds with
  | nil =>
    cases ds with
    | nil => cases below
    | cons d ds =>
      rw [List.flatMap_nil, List.flatMap_cons]
      cases bytes : String.utf8EncodeChar d with
      | nil => simp [String.utf8EncodeChar_ne_nil] at bytes
      | cons byte rest => exact List.nil_lt_cons ..
  | cons c cs ih =>
    cases ds with
    | nil => cases below
    | cons d ds =>
      rw [List.flatMap_cons, List.flatMap_cons]
      rcases List.cons_lt_cons_iff.1 below with first | ⟨rfl, later⟩
      · exact encodeChar_append_lt first _ _
      · exact List.append_left_lt (ih later)

theorem bytes_lt {a b : String} (below : a < b) : bytes a < bytes b := by
  rw [bytes_eq, bytes_eq]
  exact encode_lt (String.lt_iff_toList_lt.1 below)

end ScopeGrammar.Text
