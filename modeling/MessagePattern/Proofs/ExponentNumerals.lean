import Mathlib.Algebra.Order.Field.Power
import Mathlib.Tactic.FieldSimp
import Mathlib.Tactic.Linarith
import MessagePattern.Proofs.DecimalNumerals
import MessagePattern.Proofs.EqualValues
import MessagePattern.Proofs.Rounding

/-!
# Exponent numerals of numbers

The power of ten that is found for a magnitude leaves one digit in front of the
point, also where rounding reaches ten. The signs in front are those of the number,
but a negative zero, which is at least zero and has a negative sign, can have both.
-/

set_option autoImplicit false

namespace MessagePattern

open Numeral

def Binary64.value : Binary64 → ℚ
  | .finite negative units _ => signed negative (units / unit)
  | _ => 0

namespace Number

def value : Number → ℚ
  | .integer i => i.toInt
  | .float x => x.value

def IsFinite : Number → Prop
  | .integer _ => True
  | .float x => x.isFinite = true

def IsNegativeZero (n : Number) : Prop := ∃ h, n = .float (.finite true 0 h)

end Number

namespace Binary64

theorem unit_pos_rat : (0 : ℚ) < unit := by exact_mod_cast unit_pos

theorem magnitude_nonneg (u : Nat) : (0 : ℚ) ≤ u / unit :=
  div_nonneg (Nat.cast_nonneg u) unit_pos_rat.le

theorem magnitude_pos_iff {u : Nat} : (0 : ℚ) < u / unit ↔ u ≠ 0 := by
  rw [lt_div_iff₀ unit_pos_rat, zero_mul, Nat.cast_pos, Nat.pos_iff_ne_zero]

theorem value_neg_iff {s : Bool} {u : Nat} (h : Representable u) :
    (finite s u h).value < 0 ↔ s = true ∧ u ≠ 0 := by
  cases s with
  | false => simpa [value, signed] using magnitude_nonneg u
  | true => simp [value, signed, magnitude_pos_iff]

theorem abs_value (s : Bool) {u : Nat} (h : Representable u) :
    |(finite s u h).value| = u / unit := by
  cases s with
  | false => exact abs_of_nonneg (magnitude_nonneg u)
  | true => exact (abs_neg _).trans (abs_of_nonneg (magnitude_nonneg u))

/-- The double nearest to a 64-bit integer is finite, with the sign of the integer. -/
theorem ofInt_toInt (i : Int64) :
    ∃ u h, ofInt i.toInt = .finite (decide (i.toInt < 0)) u h ∧ (u = 0 ↔ i.toInt = 0) := by
  have hlow := i.le_toInt
  have hhigh := i.toInt_lt
  have hmax : Representable (1 * 2 ^ 63 * unit) :=
    representable_whole Nat.one_le_two_pow (by decide)
  have hle : i.toInt.natAbs * unit ≤ 1 * 2 ^ 63 * unit * 1 := by
    rw [mul_one]
    exact Nat.mul_le_mul_right _ (by omega)
  obtain ⟨h, he⟩ := nearest_finite (decide (i.toInt < 0)) one_pos hmax hle
  refine ⟨_, h, he, ?_⟩
  constructor
  · intro hzero
    obtain ⟨k, hk, hpos⟩ := rounded_whole (n := i.toInt.natAbs) one_pos
    rw [mul_one, hzero] at hk
    by_contra hne
    have hkpos := Nat.mul_pos (hpos (Int.natAbs_pos.mpr hne)) unit_pos
    omega
  · intro hzero
    rw [hzero, Int.natAbs_zero, Nat.zero_mul]
    exact rounded_mul (u := 0) one_pos (dvd_zero _)

end Binary64

/-- The double that an exponent numeral is written for has the sign of the number, and the sign
of a zero is negative in doubles only. -/
theorem Number.finite_cases {n : Number} (hn : n.IsFinite) :
    ∃ s u h, n.toBinary64 = .finite s u h ∧ (n.value < 0 ↔ s = true ∧ u ≠ 0) ∧
      (n.IsNegativeZero ↔ s = true ∧ u = 0) := by
  cases n with
  | integer i =>
    obtain ⟨u, h, he, hu⟩ := Binary64.ofInt_toInt i
    refine ⟨_, u, h, he, ?_, ?_⟩
    · simp only [value, decide_eq_true_eq, ne_eq, hu, Int.cast_lt_zero]
      omega
    · simp only [IsNegativeZero, reduceCtorEq, exists_false, decide_eq_true_eq, hu, false_iff]
      omega
  | float x =>
    cases x with
    | nan => cases hn
    | infinite s => cases hn
    | finite s u h =>
      refine ⟨s, u, h, rfl, Binary64.value_neg_iff h, ?_⟩
      constructor
      · rintro ⟨h', he⟩
        cases he
        exact ⟨rfl, rfl⟩
      · rintro ⟨rfl, rfl⟩
        exact ⟨h, rfl⟩

namespace Binary64

theorem decimalExponent_bounds {u : Nat} (hu : 0 < u) :
    (10 : ℚ) ^ decimalExponent u ≤ u / unit ∧ (u : ℚ) / unit < 10 ^ (decimalExponent u + 1) := by
  have hunit := unit_pos
  rw [le_div_iff₀ unit_pos_rat, div_lt_iff₀ unit_pos_rat, decimalExponent]
  split
  · rename_i hle
    obtain ⟨l, hl, hlow, hhigh⟩ := exists_length_toDigits (Nat.div_pos hle hunit)
    rw [hl]
    have hmul : 10 ^ l * unit ≤ u := (Nat.le_div_iff_mul_le hunit).mp hlow
    have hlt : u < 10 ^ (l + 1) * unit := (Nat.div_lt_iff_lt_mul hunit).mp hhigh
    have he : ((l + 1 : Nat) : Int) - 1 = l := by omega
    rw [he]
    constructor
    · exact_mod_cast hmul
    · exact_mod_cast hlt
  · rename_i hle
    -- the reciprocal, rounded down and one short of a whole number, has as many digits
    have hq : 0 < (unit - 1) / u := Nat.div_pos (by omega) hu
    obtain ⟨l, hl, hlow, hhigh⟩ := exists_length_toDigits hq
    rw [hl]
    have hmul : 10 ^ l * u < unit := by
      have hle := (Nat.le_div_iff_mul_le hu).mp hlow
      omega
    have hlt : unit ≤ 10 ^ (l + 1) * u := by
      have hlt := (Nat.div_lt_iff_lt_mul hu).mp hhigh
      omega
    have he : -((l + 1 : Nat) : Int) + 1 = -l := by omega
    rw [he, zpow_neg, zpow_neg, zpow_natCast, zpow_natCast]
    constructor
    · rw [inv_mul_le_iff₀ (by positivity)]
      exact_mod_cast hlt
    · rw [lt_inv_mul_iff₀ (by positivity)]
      exact_mod_cast hmul

end Binary64

theorem abs_roundHalfEven_sub_le (n : Nat) {d : Nat} (hd : 0 < d) :
    |(roundHalfEven n d : ℚ) - n / d| ≤ 1 / 2 := by
  have hpos : (0 : ℚ) < d := by exact_mod_cast hd
  have hlow : (2 : ℚ) * n ≤ 2 * (roundHalfEven n d * d) + d := by
    exact_mod_cast (roundHalfEven_bounds n hd).1
  have hhigh : (2 : ℚ) * (roundHalfEven n d * d) ≤ 2 * n + d := by
    exact_mod_cast (roundHalfEven_bounds n hd).2
  have hdiff : (roundHalfEven n d : ℚ) - n / d = (roundHalfEven n d * d - n) / d := by
    field_simp
  rw [hdiff, abs_div, abs_of_pos hpos, div_le_iff₀ hpos, abs_le]
  constructor
  · linarith
  · linarith

namespace Numeral.Scientific

theorem zpow_eq_div (z : ℤ) : (10 : ℚ) ^ z = 10 ^ z.toNat / 10 ^ (-z).toNat := by
  rcases le_total 0 z with h | h
  · have hneg : (-z).toNat = 0 := by omega
    rw [hneg, pow_zero, div_one, ← zpow_natCast, Int.toNat_of_nonneg h]
  · have hpos : z.toNat = 0 := by omega
    have hz : z = -((-z).toNat : ℤ) := by omega
    rw [hpos, pow_zero, one_div, ← zpow_natCast, ← zpow_neg, ← hz]

section
variable {places u : Nat} {shift : ℤ}

/-- The fraction that is rounded to a significand is the magnitude with the point moved. -/
theorem fraction_eq : ((u * 10 ^ shift.toNat : Nat) : ℚ) /
    (Binary64.unit * 10 ^ (-shift).toNat : Nat) = u / Binary64.unit * 10 ^ shift := by
  rw [zpow_eq_div]
  push_cast
  rw [mul_div_mul_comm]

theorem fraction_bounds (hu : 0 < u) (h : shift = places - Binary64.decimalExponent u) :
    10 ^ places * (Binary64.unit * 10 ^ (-shift).toNat) ≤ u * 10 ^ shift.toNat ∧
      u * 10 ^ shift.toNat < 10 ^ (places + 1) * (Binary64.unit * 10 ^ (-shift).toNat) := by
  have hden : (0 : ℚ) < (Binary64.unit * 10 ^ (-shift).toNat : Nat) := by
    exact_mod_cast Nat.mul_pos Binary64.unit_pos (by positivity)
  have hshift : (0 : ℚ) < 10 ^ shift := by positivity
  obtain ⟨hlow, hhigh⟩ := Binary64.decimalExponent_bounds hu
  have hp : (10 : ℚ) ^ places = 10 ^ Binary64.decimalExponent u * 10 ^ shift := by
    rw [← zpow_add₀ (by norm_num), h, add_sub_cancel, zpow_natCast]
  have hp1 : (10 : ℚ) ^ (places + 1) = 10 ^ (Binary64.decimalExponent u + 1) * 10 ^ shift := by
    rw [pow_succ, hp, zpow_add₀ (by norm_num)]
    ring
  constructor
  · have hle : (10 : ℚ) ^ places ≤
        ((u * 10 ^ shift.toNat : Nat) : ℚ) / (Binary64.unit * 10 ^ (-shift).toNat : Nat) := by
      rw [fraction_eq, hp]
      exact mul_le_mul_of_nonneg_right hlow hshift.le
    rw [le_div_iff₀ hden] at hle
    exact_mod_cast hle
  · have hlt : ((u * 10 ^ shift.toNat : Nat) : ℚ) / (Binary64.unit * 10 ^ (-shift).toNat : Nat) <
        (10 : ℚ) ^ (places + 1) := by
      rw [fraction_eq, hp1]
      exact mul_lt_mul_of_pos_right hhigh hshift
    rw [div_lt_iff₀ hden] at hlt
    exact_mod_cast hlt

/-- With the point moved back, what was rounded is off by half a unit. -/
theorem abs_rounded_sub_le (u : Nat) (shift : ℤ) :
    |(roundHalfEven (u * 10 ^ shift.toNat) (Binary64.unit * 10 ^ (-shift).toNat) : ℚ) *
        10 ^ (-shift) - u / Binary64.unit| ≤ 10 ^ (-shift) / 2 := by
  obtain ⟨r, hr⟩ : ∃ r, r = roundHalfEven (u * 10 ^ shift.toNat)
      (Binary64.unit * 10 ^ (-shift).toNat) := ⟨_, rfl⟩
  have hden : 0 < Binary64.unit * 10 ^ (-shift).toNat :=
    Nat.mul_pos Binary64.unit_pos (by positivity)
  have hhalf := abs_roundHalfEven_sub_le (u * 10 ^ shift.toNat) hden
  rw [fraction_eq, ← hr] at hhalf
  have hpos : (0 : ℚ) < 10 ^ (-shift) := by positivity
  have hinv : (10 : ℚ) ^ shift * 10 ^ (-shift) = 1 := by
    rw [← zpow_add₀ (by norm_num), add_neg_cancel, zpow_zero]
  rw [← hr]
  calc |(r : ℚ) * 10 ^ (-shift) - u / Binary64.unit|
      = |((r : ℚ) - u / Binary64.unit * 10 ^ shift) * 10 ^ (-shift)| := by
        rw [sub_mul, mul_assoc, hinv, mul_one]
    _ = |(r : ℚ) - u / Binary64.unit * 10 ^ shift| * 10 ^ (-shift) := by
        rw [abs_mul, abs_of_pos hpos]
    _ ≤ 1 / 2 * 10 ^ (-shift) := mul_le_mul_of_nonneg_right hhalf hpos.le
    _ = 10 ^ (-shift) / 2 := by ring

end

/-- A significand has one digit in front of its places, which is no zero unless the number is
zero, and it is off by half a unit of its last place at most. -/
theorem ofUnits_spec (places u : Nat) :
    let number := ofUnits places u
    number.significand < 10 ^ (places + 1) ∧
      (10 ^ places ≤ number.significand ↔ u ≠ 0) ∧
      |(number.significand : ℚ) * 10 ^ (number.exponent - places) - u / Binary64.unit| ≤
        10 ^ (number.exponent - places) / 2 := by
  intro number
  have hten : 0 < 10 ^ places := by positivity
  rcases Nat.eq_zero_or_pos u with rfl | hu
  · have hnumber : number = ⟨0, 0⟩ := if_pos rfl
    rw [hnumber]
    refine ⟨by positivity, by simp, ?_⟩
    simp only [Nat.cast_zero, zero_mul, zero_div, sub_zero, abs_zero]
    positivity
  · obtain ⟨e, he⟩ : ∃ e, e = Binary64.decimalExponent u := ⟨_, rfl⟩
    obtain ⟨shift, hshift⟩ : ∃ shift, shift = (places : ℤ) - e := ⟨_, rfl⟩
    obtain ⟨r, hr⟩ : ∃ r, r = roundHalfEven (u * 10 ^ shift.toNat)
        (Binary64.unit * 10 ^ (-shift).toNat) := ⟨_, rfl⟩
    have hnumber : number = if r < 10 ^ (places + 1) then ⟨r, e⟩ else ⟨r / 10, e + 1⟩ := by
      subst hr hshift he
      show ofUnits places u = _
      rw [ofUnits, if_neg hu.ne']
      rfl
    have hden : 0 < Binary64.unit * 10 ^ (-shift).toNat :=
      Nat.mul_pos Binary64.unit_pos (by positivity)
    obtain ⟨hlow, hhigh⟩ := fraction_bounds hu (hshift.trans (by rw [he]))
    have hrlow : 10 ^ places ≤ r := hr ▸ le_roundHalfEven hden hlow
    have hrhigh : r ≤ 10 ^ (places + 1) := hr ▸ roundHalfEven_le hden hhigh.le
    have hclose : |(r : ℚ) * 10 ^ (e - places) - u / Binary64.unit| ≤ 10 ^ (e - places) / 2 := by
      have he' : e - places = -shift := by rw [hshift, neg_sub]
      rw [he', hr]
      exact abs_rounded_sub_le u shift
    rw [hnumber]
    split
    · rename_i hlt
      exact ⟨hlt, iff_of_true hrlow hu.ne', hclose⟩
    · rename_i hge
      -- rounded up to ten, which is one with the next power of ten
      have hrten : r = 10 ^ places * 10 := le_antisymm hrhigh (Nat.le_of_not_lt hge)
      have hnext : (10 : ℚ) ^ (e + 1 - places) = 10 * 10 ^ (e - places) := by
        rw [add_sub_right_comm, zpow_add_one₀ (by norm_num), mul_comm]
      have hvalue : ((10 ^ places : Nat) : ℚ) * 10 ^ (e + 1 - places) =
          r * 10 ^ (e - places) := by
        rw [hnext, hrten]
        push_cast
        ring
      have hpos : (0 : ℚ) < 10 ^ (e - places) := by positivity
      dsimp only
      rw [hrten, Nat.mul_div_cancel _ (by decide), hvalue, hnext]
      exact ⟨Nat.pow_lt_pow_right (by decide) (Nat.lt_succ_self _),
        iff_of_true le_rfl hu.ne', hclose.trans (by linarith)⟩

end Numeral.Scientific

namespace Numeral

def IsExponential (places : Nat) (magnitude : ℚ) (text : List Char) : Prop :=
  ∃ (d : Char) (fraction exponent : List Char) (e : ℤ),
    text = d :: '.' :: fraction ++ 'e' :: (if e < 0 then '-' else '+') :: exponent ∧
      d.isDigit = true ∧ fraction.length = places ∧ (∀ c ∈ fraction, c.isDigit = true) ∧
      Canonical exponent e.natAbs ∧ (d ≠ '0' ↔ magnitude ≠ 0) ∧
      |(Nat.ofDigitChars 10 (d :: fraction) 0 : ℚ) * 10 ^ (e - places) - magnitude| ≤
        10 ^ (e - places) / 2

theorem isExponential_write (places u : Nat) :
    IsExponential places (u / Binary64.unit) ((Scientific.ofUnits places u).write places) := by
  obtain ⟨hlt, hlow, hclose⟩ := Scientific.ofUnits_spec places u
  obtain ⟨number, hnumber⟩ : ∃ number, number = Scientific.ofUnits places u := ⟨_, rfl⟩
  rw [← hnumber] at hlt hlow hclose ⊢
  obtain ⟨q, hq⟩ : ∃ q, q = number.significand / 10 ^ places := ⟨_, rfl⟩
  have hten : 0 < 10 ^ places := by positivity
  have hq10 : q < 10 := by
    rw [hq, Nat.div_lt_iff_lt_mul hten, ← pow_succ']
    exact hlt
  have hwhole : (Digits.ofNat places number.significand).whole = [Nat.digitChar q] := by
    rw [hq] at hq10 ⊢
    exact Nat.toDigits_of_lt_base hq10
  have hcanonical := canonical_whole places number.significand
  have hvalue := value_ofNat places number.significand
  rw [hwhole] at hcanonical hvalue
  have hzero : Nat.digitChar q = '0' ↔ q = 0 := by
    constructor
    · intro h
      have hv := hcanonical.value
      rw [h, ← hq] at hv
      exact hv.symm
    · rintro rfl
      rfl
  refine ⟨Nat.digitChar q, (Digits.ofNat places number.significand).fraction,
    Nat.toDigits 10 number.exponent.natAbs, number.exponent, ?_,
    hcanonical.isDigit _ List.mem_cons_self, length_fraction _ _, isDigit_fraction _ _,
    canonical_toDigits _, ?_, ?_⟩
  · rw [Scientific.write, hwhole]
    rfl
  · rw [ne_eq, hzero, hq, Nat.div_eq_zero_iff_lt hten, Nat.not_lt, hlow,
      ← Binary64.magnitude_pos_iff, (Binary64.magnitude_nonneg u).lt_iff_ne, ne_comm]
  · rw [List.singleton_append] at hvalue
    rwa [hvalue]

def exponentSigns (plus negative : Bool) (units : Nat) : List Char :=
  (if plus && (!negative || units == 0) then ['+'] else []) ++ (if negative then ['-'] else [])

theorem exponent_finite (plus : Bool) (places : Nat) (negative : Bool) {units : Nat}
    (h : Representable units) :
    exponent plus places (.finite negative units h) =
      exponentSigns plus negative units ++
        (Scientific.ofUnits (if places = 0 then 6 else places) units).write
          (if places = 0 then 6 else places) := rfl

theorem exponentSigns_spec (plus negative : Bool) (units : Nat) :
    let signs := exponentSigns plus negative units
    (∀ c ∈ signs, c = '+' ∨ c = '-') ∧
      (signs.head? = some '+' ↔ plus = true ∧ ¬ (negative = true ∧ units ≠ 0)) ∧
      ('-' ∈ signs ↔ negative = true) ∧
      (1 < signs.length ↔ plus = true ∧ negative = true ∧ units = 0) := by
  intro signs
  by_cases hu : units = 0 <;> cases plus <;> cases negative <;> simp [signs, exponentSigns, hu]

end Numeral

/-- An exponent numeral is normalized, with as many places as were asked for. A plus stands in
front of it if one is asked for and the number is at least zero, and a minus if the number is
below zero or a negative zero. Nothing but a negative zero, with a plus asked for, has both. -/
theorem write_exponent (n : Number) (hn : n.IsFinite) (plus : Bool) (places : Nat)
    (options : Options) :
    ∃ signs numeral,
      n.write plus places (some .exponent) options = signs ++ numeral ∧
        IsExponential (if places = 0 then 6 else min places 500) |n.toBinary64.value| numeral ∧
        (∀ c ∈ signs, c = '+' ∨ c = '-') ∧
        (signs.head? = some '+' ↔ plus = true ∧ 0 ≤ n.value) ∧
        ('-' ∈ signs ↔ n.value < 0 ∨ n.IsNegativeZero) ∧
        (1 < signs.length ↔ plus = true ∧ n.IsNegativeZero) := by
  obtain ⟨s, u, h, hx, hneg, hzero⟩ := Number.finite_cases hn
  have hp : (if min places Number.maxPlaces = 0 then 6 else min places Number.maxPlaces) =
      if places = 0 then 6 else min places 500 := by
    rw [Number.maxPlaces]
    by_cases h0 : places = 0
    · simp [h0]
    · rw [if_neg h0, if_neg (by omega)]
  have hwrite : n.write plus places (some .exponent) options =
      Numeral.exponent plus (min places Number.maxPlaces) n.toBinary64 := rfl
  obtain ⟨hsigns, hplus, hminus, hboth⟩ := exponentSigns_spec plus s u
  rw [hx, exponent_finite, hp] at hwrite
  refine ⟨_, _, hwrite, ?_, hsigns, ?_, ?_, ?_⟩
  · rw [hx, Binary64.abs_value]
    exact isExponential_write _ u
  · rw [hplus, ← hneg, not_lt]
  · rw [hminus, hneg, hzero]
    by_cases hu : u = 0 <;> simp [hu]
  · rw [hboth, hzero]

/-- A number that is rounded up to the next power of ten. -/
theorem write_exponent_carried :
    let n := Number.integer 99999999
    n.write true 2 (some .exponent) .standard = "+1.00e+8".toList ∧
      ∃ signs numeral, "+1.00e+8".toList = signs ++ numeral ∧
        IsExponential 2 |n.toBinary64.value| numeral ∧ signs.head? = some '+' ∧
        '-' ∉ signs := by
  intro n
  have hvalue : n.value = 99999999 := by
    have hi : (99999999 : Int64).toInt = 99999999 := by decide
    simp [n, Number.value, hi]
  obtain ⟨signs, numeral, hwrite, hnumeral, -, hplus, hminus, -⟩ :=
    write_exponent n trivial true 2 .standard
  have htext : n.write true 2 (some .exponent) .standard = "+1.00e+8".toList := by decide +kernel
  refine ⟨htext, signs, numeral, htext.symm.trans hwrite, hnumeral, ?_, ?_⟩
  · exact hplus.mpr ⟨rfl, by rw [hvalue]; norm_num⟩
  · have hlt : ¬ n.value < 0 := by
      rw [hvalue]
      norm_num
    simp [hminus, hlt, n, Number.IsNegativeZero]

/-- A negative zero has both signs in an exponent numeral, and no minus in a decimal one. -/
theorem write_exponent_negative_zero :
    let n := Number.float (.finite true 0 Binary64.representable_zero)
    n.IsFinite ∧ n.write true 0 (some .exponent) .standard = "+-0.000000e+0".toList ∧
      n.write true 0 none .standard = "+0".toList := by
  refine ⟨rfl, ?_, ?_⟩
  · decide +kernel
  · decide +kernel

end MessagePattern
