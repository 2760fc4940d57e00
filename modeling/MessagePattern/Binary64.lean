/-!
# Double-precision numbers as whole numbers of units

Every finite double is a whole number of units of `2 ^ (-1074)`, the smallest
positive double. A magnitude is therefore one natural number, which makes
comparison and exact arithmetic questions about natural numbers. The sign is
kept apart, so that the two zeros stay distinct, and the payload of a NaN is
not recorded.
-/

set_option autoImplicit false

namespace MessagePattern

def Representable (units : Nat) : Prop :=
  ∃ significand exponent,
    significand < 1 <<< 53 ∧ exponent ≤ 2045 ∧ units = significand <<< exponent

theorem representable_scale {significand exponent : Nat} (hs : significand < 1 <<< 53)
    (he : exponent ≤ 2045) : Representable (significand <<< exponent) :=
  ⟨significand, exponent, hs, he, rfl⟩

theorem representable_of_lt {units : Nat} (h : units < 1 <<< 53) : Representable units :=
  ⟨units, 0, h, by decide, rfl⟩

inductive Binary64 where
  | nan
  | infinite (negative : Bool)
  | finite (negative : Bool) (units : Nat) (representable : Representable units)
  deriving DecidableEq

namespace Binary64

def unit : Nat := 1 <<< 1074

def zero : Binary64 := .finite false 0 (representable_of_lt (by decide))

/-- Reads the interchange encoding: sign, eleven bits of exponent, 52 bits of fraction. -/
def ofBits (bits : UInt64) : Binary64 :=
  let negative := decide (1 <<< 63 ≤ bits.toNat)
  let exponent := (bits.toNat >>> 52) % 2048
  let fraction := bits.toNat % (1 <<< 52)
  have hf : fraction < 1 <<< 52 := Nat.mod_lt _ (by decide)
  have hx : exponent < 2048 := Nat.mod_lt _ (by decide)
  if he : exponent = 2047 then
    if fraction = 0 then .infinite negative else .nan
  else if exponent = 0 then
    .finite negative fraction (representable_of_lt (by omega))
  else
    .finite negative (((1 <<< 52) + fraction) <<< (exponent - 1))
      (representable_scale (by omega) (by omega))

def ofSingleBits (bits : UInt32) : Binary64 :=
  let negative := decide (1 <<< 31 ≤ bits.toNat)
  let exponent := (bits.toNat >>> 23) % 256
  let fraction := bits.toNat % (1 <<< 23)
  have hf : fraction < 1 <<< 23 := Nat.mod_lt _ (by decide)
  have he : exponent < 256 := Nat.mod_lt _ (by decide)
  if exponent = 255 then
    if fraction = 0 then .infinite negative else .nan
  else if exponent = 0 then
    .finite negative (fraction <<< 925) (representable_scale (by omega) (by decide))
  else
    .finite negative (((1 <<< 23) + fraction) <<< (exponent + 924))
      (representable_scale (by omega) (by omega))

def toBits? : Binary64 → Option UInt64
  | .nan => none
  | .infinite negative => some (.ofNat ((negative.toNat <<< 63) + (2047 <<< 52)))
  | .finite negative units _ =>
    let shift := units.log2 - 52
    let exponent := if units < 1 <<< 52 then 0 else shift + 1
    some (.ofNat ((negative.toNat <<< 63) + (exponent <<< 52) + (units >>> shift) % (1 <<< 52)))

def isFinite : Binary64 → Bool
  | .finite .. => true
  | _ => false

def isZero : Binary64 → Bool
  | .finite _ units _ => units == 0
  | _ => false

def isNonNegative : Binary64 → Bool
  | .nan => false
  | .infinite negative => !negative
  | .finite negative units _ => !negative || units == 0

def isNegative : Binary64 → Bool
  | .nan => false
  | .infinite negative => negative
  | .finite negative units _ => negative && units != 0

def equal : Binary64 → Binary64 → Bool
  | .infinite s, .infinite t => s == t
  | .finite s u _, .finite t v _ => u == v && (s == t || u == 0)
  | _, _ => false

theorem equal_self (x : Binary64) : x.equal x = true ↔ x ≠ .nan := by
  cases x <;> simp [equal]

end Binary64

end MessagePattern
