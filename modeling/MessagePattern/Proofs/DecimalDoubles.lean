import MessagePattern.Proofs.ExponentNumerals
import MessagePattern.Proofs.WholeDoubles

/-!
# Decimal numerals of doubles

A finite double is finite at every step of its rounding, whatever is taken for the
power of ten that is not above it. What is written is then a numeral with as many
places as were asked for, and with a minus only if it shows a number below zero.
-/

set_option autoImplicit false

namespace MessagePattern

open Numeral

namespace Binary64

variable (log : ℕ → ℤ)

/-- Rounds to fifteen significant digits, counted from the power of ten that an estimate gives for
the magnitude. -/
def settleBy : Binary64 → Binary64
  | .finite negative units h =>
    if units = 0 then .finite negative units h
    else settleAt (log units) (.finite negative units h)
  | x => x

def roundPlacesBy (places : Nat) (x : Binary64) : Binary64 :=
  let factor := powTen places
  let shifted := mul x factor
  if factor.isFinite && shifted.isFinite then div (settleBy log shifted).round factor else x

theorem roundPlaces_eq (places : Nat) (x : Binary64) :
    x.roundPlaces places = x.roundPlacesBy decimalExponent places := by
  have hs : ∀ y, settle y = settleBy decimalExponent y := by
    intro y
    cases y <;> rfl
  rw [roundPlaces, roundPlacesBy]
  simp only [hs]

theorem eq_finite {x : Binary64} (h : x.isFinite = true) : ∃ s u hu, x = .finite s u hu := by
  cases x with
  | nan => cases h
  | infinite s => cases h
  | finite s u hu => exact ⟨s, u, hu, rfl⟩

/-- A double that is not below `2 ^ 53` is a whole number. -/
theorem unit_dvd_of_le {u : Nat} (hu : Representable u) (h : 2 ^ 53 * unit ≤ u) : unit ∣ u := by
  obtain ⟨b, -, hunit⟩ := unit_eq
  have hlog : 53 + b ≤ u.log2 := by
    have hm := log2_mono h
    rwa [hunit, ← pow_add, Nat.log2_two_pow] at hm
  have hs : unit ∣ spacing u := by
    rw [hunit, spacing]
    exact pow_dvd_pow 2 (by omega)
  exact hs.trans (representable_iff.mp hu).1

section
variable (s : Bool) {u : Nat} (hu : Representable u)

theorem round_finite : ∃ v hv, round (.finite s u hu) = .finite s v hv := by
  have hpos := unit_pos
  -- a large double is whole, so that rounding does not take it past itself, even at the end of the
  -- range
  obtain ⟨k, hk, hle⟩ : ∃ k, Representable k ∧ (2 * u + unit) / (2 * unit) * unit ≤ k * 1 := by
    by_cases h : 2 ^ 53 * unit ≤ u
    · refine ⟨u, hu, ?_⟩
      obtain ⟨n, rfl⟩ := unit_dvd_of_le hu h
      have hdiv : (2 * (unit * n) + unit) / (2 * unit) = n := by
        apply Nat.div_eq_of_lt_le <;> linarith
      rw [hdiv, mul_one, mul_comm]
    · refine ⟨2 ^ 53 * unit, representable_mul_unit le_rfl, ?_⟩
      have hdiv : (2 * u + unit) / (2 * unit) < 2 ^ 53 + 1 := by
        rw [Nat.div_lt_iff_lt_mul (by omega)]
        linarith
      rw [mul_one]
      exact Nat.mul_le_mul_right unit (by omega)
  obtain ⟨hv, he⟩ := nearest_finite s one_pos hk hle
  exact ⟨_, hv, he⟩

theorem settleAt_finite (magnitude : ℤ) :
    ∃ v hv, settleAt magnitude (.finite s u hu) = .finite s v hv := by
  rw [settleAt]
  split
  · exact ⟨u, hu, rfl⟩
  · exact rescaled_finite round (fun _ => round_finite s) (isScale_powTen _) hu

theorem settleBy_finite : ∃ v hv, settleBy log (.finite s u hu) = .finite s v hv := by
  rw [settleBy]
  split
  · exact ⟨u, hu, rfl⟩
  · exact settleAt_finite s hu _

/-- Neither scaling nor rounding makes an infinity or a NaN of a finite double. -/
theorem roundPlacesBy_finite (places : Nat) :
    ∃ v hv, roundPlacesBy log places (.finite s u hu) = .finite s v hv := by
  have hsettled : ∀ v hv, ∃ w hw, (settleBy log (.finite s v hv)).round = .finite s w hw := by
    intro v hv
    obtain ⟨w, hw, hsettle⟩ := settleBy_finite log s hv
    rw [hsettle]
    exact round_finite s hw
  exact rescaled_finite (fun x => (settleBy log x).round) hsettled (isScale_powTen places) hu

end

theorem roundPlacesBy_infinite (places : Nat) (s : Bool) :
    roundPlacesBy log places (.infinite s) = .infinite s := by
  have hm : ∀ y, (mul (.infinite s) y).isFinite = false := by
    intro y
    cases y with
    | nan => rfl
    | infinite t => rfl
    | finite t v hv =>
      rw [mul]
      split <;> rfl
  rw [roundPlacesBy]
  simp [hm]

theorem roundPlacesBy_nan (places : Nat) : roundPlacesBy log places .nan = .nan := by
  have hm : ∀ y, mul .nan y = .nan := by
    intro y
    cases y <;> rfl
  rw [roundPlacesBy]
  simp [hm, isFinite]

end Binary64

theorem Binary64.isNegative_iff (s : Bool) {u : Nat} (hu : Representable u) :
    (finite s u hu).isNegative = true ↔ (finite s u hu).value < 0 := by
  simp [isNegative, value_neg_iff]

theorem Binary64.isNonNegative_iff (s : Bool) {u : Nat} (hu : Representable u) :
    (finite s u hu).isNonNegative = true ↔ 0 ≤ (finite s u hu).value := by
  rw [← not_lt, value_neg_iff]
  simp [isNonNegative, or_iff_not_imp_left]

namespace Numeral

theorem sign_spec (plus : Bool) {negative nonNegative : Bool}
    (h : negative = true → nonNegative = false) :
    (sign plus negative nonNegative).length ≤ 1 ∧
      (∀ c ∈ sign plus negative nonNegative, c = '+' ∨ c = '-') ∧
      ('-' ∈ sign plus negative nonNegative ↔ negative = true) ∧
      ('+' ∈ sign plus negative nonNegative ↔ plus = true ∧ nonNegative = true) := by
  cases plus <;> cases negative <;> cases nonNegative <;> simp_all [sign]

theorem isZero_eq_false_iff (digits : Digits) :
    digits.isZero = false ↔ ∃ c ∈ digits.whole ++ digits.fraction, c ≠ '0' := by
  rw [Digits.isZero, List.all_eq_false]
  simp only [beq_iff_eq, ne_eq]

structure IsDecimal (plus : Bool) (places : Nat) (options : Options) (x rounded : ℚ)
    (text signs whole fraction : List Char) : Prop where
  text_eq : text = signs ++
    (match options.thousandsSeparator with
      | some separator => separated separator whole
      | none => whole) ++
    (if places = 0 then [] else options.decimalPoint :: fraction)
  whole_canonical : ∃ n, Canonical whole n
  fraction_length : fraction.length = min places 500
  fraction_digits : ∀ c ∈ fraction, c.isDigit = true
  one_sign : signs.length ≤ 1
  sign_chars : ∀ c ∈ signs, c = '+' ∨ c = '-'
  minus_iff : '-' ∈ signs ↔ x < 0 ∧ ∃ c ∈ whole ++ fraction, c ≠ '0'
  plus_iff : '+' ∈ signs ↔ plus = true ∧ 0 ≤ x
  value_close : |(Nat.ofDigitChars 10 (whole ++ fraction) 0 : ℚ) - |rounded| * 10 ^ fraction.length|
    ≤ 1 / 2

def decimalBy (log : ℕ → ℤ) (plus : Bool) (places : Nat) (options : Options) (x : Binary64) :
    List Char :=
  match x.roundPlacesBy log places with
  | .nan => "nan".toList
  | .infinite negative => sign plus negative (!negative) ++ "inf".toList
  | .finite _ units _ =>
    let digits := digitsOfUnits places units
    sign plus (x.isNegative && !digits.isZero) x.isNonNegative ++ digits.write options

theorem decimalOfFloat_eq_decimalBy (plus : Bool) (places : Nat) (options : Options)
    (x : Binary64) :
    decimalOfFloat plus places options x =
      decimalBy Binary64.decimalExponent plus places options x := by
  cases hr : x.roundPlacesBy Binary64.decimalExponent places <;>
    simp only [decimalOfFloat, decimalBy, Binary64.roundPlaces_eq, hr]

theorem digitsOfUnits_close (places v : Nat) :
    let digits := digitsOfUnits places v
    |(Nat.ofDigitChars 10 (digits.whole ++ digits.fraction) 0 : ℚ) -
      v / Binary64.unit * 10 ^ places| ≤ 1 / 2 := by
  intro digits
  have hclose := abs_roundHalfEven_sub_le (v * 10 ^ places) Binary64.unit_pos
  have hdiv : ((v * 10 ^ places : Nat) : ℚ) / Binary64.unit = v / Binary64.unit * 10 ^ places := by
    push_cast
    ring
  rw [hdiv] at hclose
  have hdigits : digits = Digits.ofNat places (roundHalfEven (v * 10 ^ places) Binary64.unit) := rfl
  rw [hdigits, value_ofNat]
  exact hclose

/-- The text of a numeral whose fraction has so many digits, with the marks of the options. -/
theorem write_eq_separated (options : Options) (places : Nat) {digits : Digits}
    (h : digits.fraction.length = min places 500) :
    digits.write options =
      (match options.thousandsSeparator with
        | some separator => separated separator digits.whole
        | none => digits.whole) ++
      (if places = 0 then [] else options.decimalPoint :: digits.fraction) := by
  have hempty : digits.fraction.isEmpty = true ↔ places = 0 := by
    rw [List.isEmpty_iff_length_eq_zero, h]
    omega
  rw [write_eq]
  simp only [hempty]
  cases options.thousandsSeparator with
  | none => rfl
  | some separator => rw [Option.elim, grouped_eq_separated]

theorem isDecimal_decimalBy (log : ℕ → ℤ) (plus : Bool) (places : Nat) (options : Options)
    {x : Binary64} (hx : x.isFinite = true) :
    (x.roundPlacesBy log (min places 500)).isFinite = true ∧
      ∃ signs whole fraction,
        IsDecimal plus places options x.value (x.roundPlacesBy log (min places 500)).value
          (decimalBy log plus (min places 500) options x) signs whole fraction := by
  obtain ⟨s, u, hu, rfl⟩ := Binary64.eq_finite hx
  obtain ⟨v, hv, hround⟩ := Binary64.roundPlacesBy_finite log s hu (min places 500)
  obtain ⟨digits, hdigits⟩ : ∃ digits, digits = digitsOfUnits (min places 500) v := ⟨_, rfl⟩
  have hlength : digits.fraction.length = min places 500 := by
    rw [hdigits]
    exact length_fraction _ _
  have hsigns : ((Binary64.finite s u hu).isNegative && !digits.isZero) = true →
      (Binary64.finite s u hu).isNonNegative = false := by
    rw [Bool.and_eq_true, Binary64.isNegative_iff, ← Bool.not_eq_true, Binary64.isNonNegative_iff]
    rintro ⟨hneg, -⟩
    exact not_le.mpr hneg
  obtain ⟨hone, hchars, hminus, hplus⟩ := sign_spec plus hsigns
  rw [decimalBy, hround]
  refine ⟨rfl, _, digits.whole, digits.fraction, ?_, ?_, hlength, ?_, hone, hchars, ?_, ?_, ?_⟩
  · rw [List.append_assoc, ← write_eq_separated options places hlength, hdigits]
  · rw [hdigits]
    exact ⟨_, canonical_whole _ _⟩
  · rw [hdigits]
    exact isDigit_fraction _ _
  · rw [hminus, Bool.and_eq_true, Binary64.isNegative_iff, Bool.not_eq_true', isZero_eq_false_iff]
  · rw [hplus, Binary64.isNonNegative_iff]
  · rw [Binary64.abs_value, hlength, hdigits]
    exact digitsOfUnits_close (min places 500) v

theorem decimalBy_infinite (log : ℕ → ℤ) (plus : Bool) (places : Nat) (options : Options)
    (negative : Bool) :
    decimalBy log plus places options (.infinite negative) =
      (if negative then "-inf" else if plus then "+inf" else "inf").toList := by
  rw [decimalBy, Binary64.roundPlacesBy_infinite]
  cases negative <;> cases plus <;> rfl

theorem decimalBy_nan (log : ℕ → ℤ) (plus : Bool) (places : Nat) (options : Options) :
    decimalBy log plus places options .nan = "nan".toList := by
  rw [decimalBy, Binary64.roundPlacesBy_nan]

end Numeral

/-- A finite double stays finite when it is rounded and its numeral is well formed, even if the
power of ten is estimated by another number. Infinities and NaN are written by name. -/
theorem write_double (x : Binary64) (plus : Bool) (places : Nat) (options : Options) :
    let numeral := (Number.float x).write plus places none options
    let p := min places 500
    (x.isFinite = true →
        (x.roundPlaces p).isFinite = true ∧
          ∃ signs whole fraction,
            IsDecimal plus places options x.value (x.roundPlaces p).value numeral
              signs whole fraction) ∧
      (∀ negative, x = .infinite negative →
        numeral = (if negative then "-inf" else if plus then "+inf" else "inf").toList) ∧
      (x = .nan → numeral = "nan".toList) ∧
      numeral = decimalBy Binary64.decimalExponent plus p options x ∧
      ∀ log : ℕ → ℤ, x.isFinite = true →
        (x.roundPlacesBy log p).isFinite = true ∧
          ∃ signs whole fraction,
            IsDecimal plus places options x.value (x.roundPlacesBy log p).value
              (decimalBy log plus p options x) signs whole fraction := by
  intro numeral p
  have hnumeral : numeral = decimalBy Binary64.decimalExponent plus p options x :=
    decimalOfFloat_eq_decimalBy plus p options x
  refine ⟨?_, ?_, ?_, hnumeral, ?_⟩
  · intro hx
    rw [hnumeral, Binary64.roundPlaces_eq]
    exact isDecimal_decimalBy _ plus places options hx
  · rintro negative rfl
    rw [hnumeral, decimalBy_infinite]
  · rintro rfl
    rw [hnumeral, decimalBy_nan]
  · intro log hx
    exact isDecimal_decimalBy log plus places options hx

/-- A small negative number, of which no digit but zeros is left. -/
theorem write_double_zeros :
    let x := Binary64.div (.ofInt (-1)) (.ofInt 1000)
    x.isFinite = true ∧ (Number.float x).write true 2 none .standard = "0.00".toList ∧
      (∃ signs whole fraction,
        IsDecimal true 2 .standard x.value (x.roundPlaces 2).value "0.00".toList
          signs whole fraction) ∧
      (x.roundPlacesBy (fun _ => -400) 2).isFinite = true := by
  intro x
  have hx : x.isFinite = true := by decide +kernel
  have htext : (Number.float x).write true 2 none .standard = "0.00".toList := by decide +kernel
  obtain ⟨hfinite, -, -, -, hlog⟩ := write_double x true 2 .standard
  obtain ⟨-, hdecimal⟩ := hfinite hx
  rw [htext] at hdecimal
  exact ⟨hx, htext, hdecimal, (hlog (fun _ => -400) hx).1⟩

end MessagePattern
