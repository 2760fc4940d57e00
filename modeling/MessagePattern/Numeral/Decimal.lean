import MessagePattern.Numeral.Magnitude
import MessagePattern.Options

/-!
# Decimal numerals

A numeral has a sign or none, the digits of its whole part, grouped in threes,
and a fixed number of digits behind the decimal point.
-/

set_option autoImplicit false

namespace MessagePattern.Numeral

structure Digits where
  whole : List Char
  fraction : List Char
  deriving DecidableEq

/-- A whole number of units of `10 ^ (-places)`. -/
def Digits.ofNat (places n : Nat) : Digits :=
  ⟨Nat.toDigits 10 (n / Nat.pow 10 places),
    if places = 0 then [] else (Nat.toDigits 10 (n % Nat.pow 10 places)).leftpad places '0'⟩

def Digits.isZero (digits : Digits) : Bool :=
  (digits.whole ++ digits.fraction).all (· == '0')

def grouped (separator : Char) : List Char → List Char
  | [] => []
  | d :: ds =>
    if ds.length % 3 = 0 ∧ ds ≠ [] then d :: separator :: grouped separator ds
    else d :: grouped separator ds

def Digits.write (options : Options) (digits : Digits) : List Char :=
  let whole := match options.thousandsSeparator with
    | some separator => grouped separator digits.whole
    | none => digits.whole
  if digits.fraction.isEmpty then whole
  else whole ++ options.decimalPoint :: digits.fraction

def sign (plus negative nonNegative : Bool) : List Char :=
  if negative then ['-'] else if plus && nonNegative then ['+'] else []

def decimalOfInt (plus : Bool) (places : Nat) (options : Options) (i : Int) : List Char :=
  sign plus (i < 0) (0 ≤ i) ++
    (Digits.ofNat places (i.natAbs * Nat.pow 10 places)).write options

def digitsOfUnits (places units : Nat) : Digits :=
  Digits.ofNat places (roundHalfEven (units * Nat.pow 10 places) Binary64.unit)

/-- A numeral of zeros carries no minus. Infinities and NaN, which rounding
leaves as they are, are written by name. -/
def decimalOfFloat (plus : Bool) (places : Nat) (options : Options) (x : Binary64) : List Char :=
  match x.roundPlaces places with
  | .nan => "nan".toList
  | .infinite negative => sign plus negative (!negative) ++ "inf".toList
  | .finite _ units _ =>
    let digits := digitsOfUnits places units
    sign plus (x.isNegative && !digits.isZero) x.isNonNegative ++ digits.write options

end MessagePattern.Numeral
