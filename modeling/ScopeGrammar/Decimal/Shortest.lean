import ScopeGrammar.Decimal.Binary64

set_option autoImplicit false

namespace ScopeGrammar.Binary64

/-- Digits and the power of ten that they are multiplied with. -/
structure Decimal where
  digits : Nat
  scale : Int
  deriving DecidableEq, Repr

/-- The number and the ends of the interval that rounds to it, as multiples of a quarter of its last
bit. The number below a power of two is nearer than the one above. -/
def interval (x : Binary64) : Nat × Nat × Nat :=
  let m := 4 * x.significand
  let below := if x.significand = 1 <<< 52 && leastExponent < x.exponent then 1 else 2
  (m - below, m, m + 2)

/-- The nearest multiple of `10 ^ scale` among those that round to the number. -/
def onGrid (x : Binary64) (scale : Int) : Option Decimal :=
  let (low, value, high) := x.interval
  -- in units that make both a quarter of the last bit and a step of the grid integers
  let (bitUp, bitDown) := power 2 (x.exponent - 2)
  let (gridUp, gridDown) := power 10 scale
  let unit := bitUp * gridDown
  let stride := gridUp * bitDown
  let inside (n : Nat) : Bool :=
    let p := n * stride
    if x.significand % 2 = 0 then low * unit ≤ p && p ≤ high * unit
    else low * unit < p && p < high * unit
  let floor := value * unit / stride
  let rest := value * unit - floor * stride
  let nearest := if 2 * rest < stride then [floor, floor + 1] else [floor + 1, floor]
  (nearest.find? inside).map (⟨·, scale⟩)

/-- The power of ten that the first digit of a fraction counts. -/
def topPower (num den : Nat) : Int :=
  if den ≤ num then ((Nat.toDigits 10 (num / den)).length : Int) - 1
  else
    -- the fraction is below one: so many zeros stand in front, and perhaps one less
    let n : Nat := (Nat.toDigits 10 (den / num)).length
    if Nat.pow 10 (n - 1) * num < den then -n else -(n - 1 : Nat)

/-- The shortest decimal that rounds to a number other than zero. The grids go from the power of ten
above the number to the 17th digit, which always is enough. -/
def shortest (x : Binary64) : Decimal :=
  let (up, down) := power 2 x.exponent
  let above := topPower (x.significand * up) down + 1
  ((List.range 18).findSome? fun (n : Nat) => x.onGrid (above - n)).getD ⟨0, 0⟩

/-- Digits with a point among them, or zeros behind or in front of them. -/
def Decimal.text (d : Decimal) : List Char :=
  let digits := Nat.toDigits 10 d.digits
  let places := (-d.scale).toNat
  if d.scale ≥ 0 then digits ++ List.replicate d.scale.toNat '0'
  else if places < digits.length then
    digits.take (digits.length - places) ++ '.' :: digits.drop (digits.length - places)
  else ['0', '.'] ++ List.replicate (places - digits.length) '0' ++ digits

def text (x : Binary64) : String :=
  let magnitude := if x.significand = 0 then ['0'] else x.shortest.text
  String.ofList (if x.negative then '-' :: magnitude else magnitude)

end ScopeGrammar.Binary64
