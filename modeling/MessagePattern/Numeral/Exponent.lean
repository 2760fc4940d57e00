import MessagePattern.Numeral.Decimal

/-!
# Exponent numerals

One digit, a point, a fixed number of further digits and a power of ten with
its sign always written. The point is not subject to the options.
-/

set_option autoImplicit false

namespace MessagePattern.Numeral

/-- A number `n` with `n / 10 ^ places` in `[1, 10)` or zero, and a power of ten. -/
structure Scientific where
  significand : Nat
  exponent : Int
  deriving DecidableEq

def Scientific.ofUnits (places units : Nat) : Scientific :=
  if units = 0 then ⟨0, 0⟩
  else
    let exponent := Binary64.decimalExponent units
    let shift := (places : Int) - exponent
    let significand :=
      roundHalfEven (units * Nat.pow 10 shift.toNat)
        (Binary64.unit * Nat.pow 10 (-shift).toNat)
    if significand < Nat.pow 10 (places + 1) then ⟨significand, exponent⟩
    else ⟨significand / 10, exponent + 1⟩

def Scientific.write (places : Nat) (number : Scientific) : List Char :=
  let digits := Digits.ofNat places number.significand
  digits.whole ++ '.' :: digits.fraction ++ 'e' ::
    (if number.exponent < 0 then '-' else '+') :: Nat.toDigits 10 number.exponent.natAbs

def exponent (plus : Bool) (places : Nat) (x : Binary64) : List Char :=
  let places := if places = 0 then 6 else places
  let forced := if plus && x.isNonNegative then ['+'] else []
  match x with
  | .nan => "NaN".toList
  | .infinite negative => forced ++ (if negative then ['-'] else []) ++ "inf".toList
  | .finite negative units _ =>
    forced ++ (if negative then ['-'] else []) ++ (Scientific.ofUnits places units).write places

end MessagePattern.Numeral
