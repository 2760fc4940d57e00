import MessagePattern.Binary64.Arithmetic

/-!
# Rounding to decimal places

A number is rounded half away from zero at a decimal place. It is first
settled to fifteen significant digits, so that a number written `1.005` rounds
up at two places although its double lies just below the midpoint. A number
too large for any of the steps is left as it is.
-/

set_option autoImplicit false

namespace MessagePattern.Binary64

/-- The largest power of ten that is not above a positive magnitude. Below one
it is counted on the reciprocal. -/
def decimalExponent (units : Nat) : Int :=
  if unit ≤ units then ((Nat.toDigits 10 (units / unit)).length : Int) - 1
  else -((Nat.toDigits 10 ((unit - 1) / units)).length : Int)

/-- Rounds to fifteen significant digits, the first of which stands at the
given power of ten. -/
def settleAt (magnitude : Int) (x : Binary64) : Binary64 :=
  if 15 ≤ magnitude then x
  else
    let precision := powTen (14 - magnitude).toNat
    let shifted := mul x precision
    if precision.isFinite && shifted.isFinite then div shifted.round precision else x

def settle : Binary64 → Binary64
  | .finite negative units h =>
    if units = 0 then .finite negative units h
    else settleAt (decimalExponent units) (.finite negative units h)
  | x => x

def roundPlaces (places : Nat) (x : Binary64) : Binary64 :=
  let factor := powTen places
  let shifted := mul x factor
  if factor.isFinite && shifted.isFinite then div (settle shifted).round factor else x

theorem settle_zero (negative : Bool) (h : Representable 0) :
    settle (.finite negative 0 h) = .finite negative 0 h := by
  simp [settle]

end MessagePattern.Binary64
