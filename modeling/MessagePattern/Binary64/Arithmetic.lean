import MessagePattern.Binary64

/-!
# Correctly rounded arithmetic

A product or a quotient of doubles is an exact fraction of units. Rounding
that fraction to the nearest double, a tie going to the even significand, is
one function, and multiplication, division and conversion only say which
fraction they mean.
-/

set_option autoImplicit false

namespace MessagePattern

def roundHalfEven (numerator denominator : Nat) : Nat :=
  let floor := numerator / denominator
  let twice := 2 * (numerator % denominator)
  if twice < denominator ∨ (twice = denominator ∧ floor % 2 = 0) then floor else floor + 1

theorem roundHalfEven_mul_right (n d : Nat) (hd : 0 < d) : roundHalfEven (n * d) d = n := by
  simp [roundHalfEven, Nat.mul_div_cancel _ hd, hd]

namespace Binary64

def scaled (negative : Bool) (significand exponent : Nat) (h : significand < 1 <<< 53) : Binary64 :=
  if he : exponent ≤ 2045 then
    .finite negative (significand <<< exponent) (representable_scale h he)
  else .infinite negative

/-- The double nearest to a fraction of units, a tie going to the even significand. -/
def nearest (negative : Bool) (numerator denominator : Nat) : Binary64 :=
  let exponent := (numerator / denominator).log2 - 52
  let significand := roundHalfEven numerator (denominator <<< exponent)
  if h : significand < 1 <<< 53 then scaled negative significand exponent h
  else scaled negative (1 <<< 52) (exponent + 1) (by decide)

def ofInt (i : Int) : Binary64 := nearest (decide (i < 0)) (i.natAbs * unit) 1

def one : Binary64 := ofInt 1

def ten : Binary64 := ofInt 10

def mul : Binary64 → Binary64 → Binary64
  | .nan, _ | _, .nan => .nan
  | .infinite s, .infinite t => .infinite (s != t)
  | .infinite s, .finite t u _ | .finite s u _, .infinite t =>
    if u = 0 then .nan else .infinite (s != t)
  | .finite s u _, .finite t v _ => nearest (s != t) (u * v) unit

def div : Binary64 → Binary64 → Binary64
  | .nan, _ | _, .nan => .nan
  | .infinite _, .infinite _ => .nan
  | .infinite s, .finite t _ _ => .infinite (s != t)
  | .finite s _ _, .infinite t => nearest (s != t) 0 1
  | .finite s u _, .finite t v _ =>
    if v = 0 then (if u = 0 then .nan else .infinite (s != t))
    else nearest (s != t) (u * unit) v

def round : Binary64 → Binary64
  | .finite s u _ => nearest s ((2 * u + unit) / (2 * unit) * unit) 1
  | x => x

def truncate : Binary64 → Int64
  | .nan => 0
  | .infinite negative => if negative then .minValue else .maxValue
  | .finite negative units _ =>
    let whole := units / unit
    if negative then .ofInt (max Int64.minValue.toInt (-whole))
    else .ofInt (min Int64.maxValue.toInt whole)

def squaredTen : Nat → Binary64
  | 0 => ten
  | k + 1 => mul (squaredTen k) (squaredTen k)

/-- A power of ten as the product of the squares that the bits of `n` select,
the smallest first. Up to `10 ^ 22` every step is exact. -/
def powTen (n : Nat) : Binary64 :=
  (List.range (n.log2 + 1)).foldl (fun r k => if n.testBit k then mul r (squaredTen k) else r) one

end Binary64

end MessagePattern
