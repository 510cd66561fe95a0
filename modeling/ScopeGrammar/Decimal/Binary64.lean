set_option autoImplicit false

namespace ScopeGrammar

/-- The number `significand * 2 ^ exponent`, negative or not; there are two zeros. -/
structure Binary64 where
  negative : Bool
  significand : Nat
  exponent : Int
  deriving DecidableEq, Repr, Inhabited

namespace Binary64

def leastExponent : Int := -1074

def roundQuotient (num den : Nat) : Nat :=
  let q := num / den
  let r := num % den
  if 2 * r < den || (2 * r = den && q % 2 = 0) then q else q + 1

def power (base : Nat) (n : Int) : Nat × Nat :=
  if n < 0 then (1, base.pow n.natAbs) else (base.pow n.natAbs, 1)

def ofFraction (negative : Bool) (num den : Nat) : Binary64 :=
  let bits : Int := (num.log2 : Int) - den.log2
  let scaled (e : Int) : Nat × Nat :=
    let (up, down) := power 2 (-e)
    (num * up, den * down)
  let guess := max leastExponent (bits - 53)
  let exponent :=
    let (n, d) := scaled guess
    if n / d < 1 <<< 53 then guess else guess + 1
  let (n, d) := scaled exponent
  let q := roundQuotient n d
  if q < 1 <<< 53 then ⟨negative, q, exponent⟩ else ⟨negative, 1 <<< 52, exponent + 1⟩

def ofDecimal (negative : Bool) (digits : Nat) (scale : Int) : Binary64 :=
  if digits = 0 then ⟨negative, 0, leastExponent⟩
  else if scale < -400 && (Nat.toDigits 10 digits).length < -scale - 400 then
    ⟨negative, 0, leastExponent⟩
  else
    let (up, down) := power 10 scale
    ofFraction negative (digits * up) down

end Binary64

end ScopeGrammar
