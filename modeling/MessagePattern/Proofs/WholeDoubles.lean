import Mathlib.Tactic.Linarith
import MessagePattern.Proofs.DecimalNumerals
import MessagePattern.Proofs.Rounding

/-!
# Whole numbers held as doubles

Settling a whole number to fifteen digits leaves it as it is. What can move it is
the scaling by a power of ten and back, both of which round once the scaled number
needs more than 53 bits. A number that is moved is written with other digits.
-/

set_option autoImplicit false

namespace MessagePattern

open Numeral

namespace Binary64

theorem representable_mul_pow {n places : Nat} (h : n * 5 ^ places ≤ 2 ^ 53)
    (hp : places ≤ 900) : Representable (n * 10 ^ places * unit) := by
  have hten : n * 10 ^ places = n * 5 ^ places * 2 ^ places := by
    rw [mul_assoc, ← mul_pow]
    norm_num
  rw [hten]
  exact representable_whole h hp

theorem ofInt_exact {i : Int} (h : Representable (i.natAbs * unit)) :
    ofInt i = .finite (decide (i < 0)) (i.natAbs * unit) h :=
  nearest_exact _ one_pos (mul_one _).symm h

theorem ofInt_natCast {n : Nat} (h : Representable (n * unit)) :
    ofInt n = .finite false (n * unit) h := by
  have hneg : decide ((n : Int) < 0) = false := by simp
  have hi := ofInt_exact (i := n) h
  rwa [hneg] at hi

section
variable (s : Bool) {m n : Nat} (hm : Representable (m * unit)) (hn : Representable (n * unit))

theorem mul_positive {u v : Nat} (hu : Representable u) (hv : Representable v) :
    mul (.finite s u hu) (.finite false v hv) = nearest s (u * v) unit := by
  rw [mul, Bool.bne_false]

theorem div_positive {u v : Nat} (hu : Representable u) (hv : Representable v) (hpos : 0 < v) :
    div (.finite s u hu) (.finite false v hv) = nearest s (u * unit) v := by
  rw [div, if_neg hpos.ne', Bool.bne_false]

/-- Dividing by a number that is at least one does not leave the range. -/
theorem div_finite {u : Nat} (hu : Representable u) (hpos : 0 < m) :
    ∃ v hv, div (.finite s u hu) (.finite false (m * unit) hm) = .finite s v hv := by
  have hmu : 0 < m * unit := Nat.mul_pos hpos unit_pos
  have hle : u * unit ≤ u * (m * unit) :=
    Nat.mul_le_mul_left u (Nat.le_mul_of_pos_left unit hpos)
  obtain ⟨hv, he⟩ := nearest_finite s hmu hu hle
  exact ⟨_, hv, (div_positive s hu hm hmu).trans he⟩

theorem mul_exact (h : Representable (n * m * unit)) :
    mul (.finite s (n * unit) hn) (.finite false (m * unit) hm) = .finite s (n * m * unit) h := by
  rw [mul_positive]
  exact nearest_exact s unit_pos (by ring) h

theorem div_exact (h : Representable (n * m * unit)) (hpos : 0 < m) :
    div (.finite s (n * m * unit) h) (.finite false (m * unit) hm) = .finite s (n * unit) hn := by
  have hmu : 0 < m * unit := Nat.mul_pos hpos unit_pos
  rw [div_positive s h hm hmu]
  exact nearest_exact s hmu (by ring) hn

theorem round_whole : round (.finite s (n * unit) hn) = .finite s (n * unit) hn := by
  have hdiv : (2 * (n * unit) + unit) / (2 * unit) = n := by
    have hu := unit_pos
    apply Nat.div_eq_of_lt_le
    · linarith
    · linarith
  rw [round, hdiv]
  exact nearest_exact _ one_pos (mul_one _).symm hn

/-- A product of whole numbers is a whole number or out of range. -/
theorem mul_whole :
    (∃ k h, (0 < n → 0 < m → 0 < k) ∧
        mul (.finite s (n * unit) hn) (.finite false (m * unit) hm) = .finite s (k * unit) h) ∨
      mul (.finite s (n * unit) hn) (.finite false (m * unit) hm) = .infinite s := by
  have hprod : n * unit * (m * unit) = n * m * unit * unit := by ring
  obtain ⟨k, hk, hpos⟩ := rounded_whole (n := n * m) unit_pos
  have hc := nearest_cases s (n := n * m * unit * unit) unit_pos
  rw [hk] at hc
  rw [mul_positive, hprod]
  rcases hc with ⟨h, he⟩ | ⟨-, he⟩
  · exact .inl ⟨k, h, fun hn0 hm0 => hpos (Nat.mul_pos hn0 hm0), he⟩
  · exact .inr he

end

def IsScale (x : Binary64) : Prop :=
  x = .infinite false ∨ ∃ n h, 0 < n ∧ x = .finite false (n * unit) h

theorem isScale_ofInt {n : Nat} (hn : 0 < n) (h : n ≤ 2 ^ 53) : IsScale (ofInt n) :=
  .inr ⟨n, representable_mul_unit h, hn, ofInt_natCast _⟩

theorem IsScale.mul {x y : Binary64} (hx : IsScale x) (hy : IsScale y) : IsScale (mul x y) := by
  have hne : ∀ {n}, 0 < n → n * unit ≠ 0 := fun hn => (Nat.mul_pos hn unit_pos).ne'
  rcases hx with rfl | ⟨n, hn, hn0, rfl⟩ <;> rcases hy with rfl | ⟨m, hm, hm0, rfl⟩
  · exact .inl rfl
  · exact .inl (if_neg (hne hm0))
  · exact .inl (if_neg (hne hn0))
  · rcases mul_whole false hm hn with ⟨k, h, hk, he⟩ | he
    · exact .inr ⟨k, h, hk hn0 hm0, he⟩
    · exact .inl he

theorem isScale_squaredTen (k : Nat) : IsScale (squaredTen k) := by
  induction k with
  | zero => exact isScale_ofInt (n := 10) (by decide) (by norm_num)
  | succ k ih => exact ih.mul ih

theorem isScale_powTen (k : Nat) : IsScale (powTen k) := by
  unfold powTen
  refine List.foldlRecOn (motive := IsScale) _ _ ?_ ?_
  · exact isScale_ofInt (n := 1) (by decide) (by norm_num)
  · intro r hr j _
    split
    · exact hr.mul (isScale_squaredTen j)
    · exact hr

/-- A finite double that is scaled up, changed and scaled back, or left as it is where the scaled
number is out of range, is finite with its sign, if the change alone keeps it so. -/
theorem rescaled_finite (f : Binary64 → Binary64) {s : Bool}
    (hf : ∀ v hv, ∃ w hw, f (.finite s v hv) = .finite s w hw)
    {factor : Binary64} (hfactor : IsScale factor) {u : Nat} (hu : Representable u) :
    let shifted := mul (.finite s u hu) factor
    ∃ v hv, (if factor.isFinite && shifted.isFinite then div (f shifted) factor
      else .finite s u hu) = .finite s v hv := by
  intro shifted
  rcases hfactor with rfl | ⟨m, hm, hpos, rfl⟩
  · exact ⟨u, hu, rfl⟩
  · have hshifted : shifted = nearest s (u * (m * unit)) unit := mul_positive s hu hm
    rcases nearest_cases s (n := u * (m * unit)) unit_pos with ⟨hr, he⟩ | ⟨-, he⟩
    · obtain ⟨v, hv, hchanged⟩ := hf _ hr
      obtain ⟨w, hw, hd⟩ := div_finite s hm hv hpos
      rw [hshifted, he, hchanged, hd]
      exact ⟨w, hw, rfl⟩
    · rw [hshifted, he]
      exact ⟨u, hu, rfl⟩

/-- The powers of ten whose odd part fits into a significand. -/
theorem powTen_exact {k : Nat} (hk : k ≤ 22) (h : Representable (10 ^ k * unit)) :
    powTen k = .finite false (10 ^ k * unit) h := by
  have hpow : ∀ k < 23, powTen k = ofInt ((10 ^ k : Nat) : Int) := by decide +kernel
  rw [hpow k (by omega)]
  exact ofInt_natCast h

/-- Fifteen significant digits are enough for a whole number below `10 ^ 15`, and a larger one is
not settled. -/
theorem settle_whole (s : Bool) {n : Nat} (hn : Representable (n * unit)) :
    settle (.finite s (n * unit) hn) = .finite s (n * unit) hn := by
  rcases Nat.eq_zero_or_pos n with rfl | hpos
  · simp [settle]
  · obtain ⟨l, hl, -, hhigh⟩ := exists_length_toDigits hpos
    have hne : n * unit ≠ 0 := (Nat.mul_pos hpos unit_pos).ne'
    have hexp : decimalExponent (n * unit) = l := by
      rw [decimalExponent, if_pos (Nat.le_mul_of_pos_left unit hpos),
        Nat.mul_div_cancel n unit_pos, hl]
      omega
    rw [settle, if_neg hne, hexp, settleAt]
    split
    · rfl
    · rename_i hlt
      have hk : (14 - (l : Int)).toNat = 14 - l := by omega
      have hfit : n * 10 ^ (14 - l) ≤ 2 ^ 53 := by
        calc n * 10 ^ (14 - l) ≤ 10 ^ (l + 1) * 10 ^ (14 - l) := Nat.mul_le_mul_right _ hhigh.le
          _ = 10 ^ 15 := by rw [← pow_add]; congr 1; omega
          _ ≤ 2 ^ 53 := by norm_num
      have hten : 10 ^ (14 - l) ≤ 2 ^ 53 := (Nat.le_mul_of_pos_left _ hpos).trans hfit
      have hshift := mul_exact s (representable_mul_unit hten) hn (representable_mul_unit hfit)
      have hback := div_exact s (representable_mul_unit hten) hn (representable_mul_unit hfit)
        (by positivity)
      simp only [hk, powTen_exact (k := 14 - l) (by omega) (representable_mul_unit hten), hshift,
        round_whole, hback]
      rfl

def scaledBack (places : Nat) (x : Binary64) : Binary64 :=
  let factor := powTen places
  let shifted := mul x factor
  if factor.isFinite && shifted.isFinite then div shifted factor else x

/-- Nothing but the scaling has an effect on a whole number. -/
theorem roundPlaces_whole (places : Nat) (s : Bool) {n : Nat} (hn : Representable (n * unit)) :
    roundPlaces places (.finite s (n * unit) hn) = scaledBack places (.finite s (n * unit) hn) := by
  rcases isScale_powTen places with hf | ⟨m, hm, -, hf⟩
  · simp [roundPlaces, scaledBack, hf, isFinite]
  · simp only [roundPlaces, scaledBack, hf]
    rcases mul_whole s hm hn with ⟨k, hk, -, he⟩ | he
    · rw [he, settle_whole, round_whole]
    · rw [he]
      rfl

/-- What comes back has the sign that was scaled, and is finite. -/
theorem scaledBack_finite (places : Nat) (s : Bool) {u : Nat} (hu : Representable u) :
    ∃ v hv, scaledBack places (.finite s u hu) = .finite s v hv :=
  rescaled_finite id (fun v hv => ⟨v, hv, rfl⟩) (isScale_powTen places) hu

theorem scaledBack_of_exact {places m n : Nat} (s : Bool) (hn : Representable (n * unit))
    (hm : Representable (m * unit)) (hpos : 0 < m) (h : Representable (n * m * unit))
    (hf : powTen places = .finite false (m * unit) hm) :
    scaledBack places (.finite s (n * unit) hn) = .finite s (n * unit) hn := by
  simp only [scaledBack, hf, mul_exact s hm hn h, div_exact s hm hn h hpos]
  rfl

/-- A number whose scaled value fits into a significand comes back as it was. -/
theorem scaledBack_exact (places : Nat) (s : Bool) {n : Nat} (hn : Representable (n * unit))
    (h : n * 5 ^ places ≤ 2 ^ 53) :
    scaledBack places (.finite s (n * unit) hn) = .finite s (n * unit) hn := by
  rcases Nat.eq_zero_or_pos n with rfl | hpos
  · rcases isScale_powTen places with hf | ⟨m, hm, hm0, hf⟩
    · simp [scaledBack, hf, isFinite]
    · exact scaledBack_of_exact s hn hm hm0 (by simpa using hn) hf
  · have hfive : 1 * 5 ^ places ≤ 2 ^ 53 := (Nat.mul_le_mul_right _ hpos).trans h
    have hp : places ≤ 22 := by
      by_contra hlt
      have hpow : 5 ^ 23 ≤ 5 ^ places := Nat.pow_le_pow_right (by decide) (by omega)
      have h23 : 2 ^ 53 < 5 ^ 23 := by norm_num
      omega
    have hten := representable_mul_pow hfive (by omega)
    rw [one_mul] at hten
    exact scaledBack_of_exact s hn hten (by positivity) (representable_mul_pow h (by omega))
      (powTen_exact hp hten)

/-- Where the scaled number does not fit, another double differs in the digits that are written. -/
theorem roundHalfEven_ne {n v places : Nat} (hn : Representable (n * unit))
    (hv : Representable v) (hne : v ≠ n * unit) (h : 2 ^ 53 < n * 5 ^ places) :
    roundHalfEven (v * 10 ^ places) unit ≠ n * 10 ^ places := by
  intro he
  have hu := unit_pos
  have hb := roundHalfEven_bounds (v * 10 ^ places) hu
  rw [he] at hb
  -- a distance that the digits do not show is too small a part of the number
  have hpart : ∀ d, n * unit ≤ 2 ^ 54 * d → unit < 2 * (d * 10 ^ places) := by
    intro d hd
    have hfive : n * 5 ^ places ≤ n * 10 ^ places :=
      Nat.mul_le_mul_left n (Nat.pow_le_pow_left (by decide) places)
    apply lt_of_mul_lt_mul_left (a := 2 ^ 54) _ (Nat.zero_le _)
    calc 2 ^ 54 * unit < 2 * (n * 10 ^ places) * unit :=
          Nat.mul_lt_mul_of_pos_right (by omega) hu
      _ = n * unit * (2 * 10 ^ places) := by ring
      _ ≤ 2 ^ 54 * d * (2 * 10 ^ places) := Nat.mul_le_mul_right _ hd
      _ = 2 ^ 54 * (2 * (d * 10 ^ places)) := by ring
  have hswap : n * 10 ^ places * unit = n * unit * 10 ^ places := by ring
  rcases lt_or_gt_of_ne hne with hlt | hgt
  · have hd := hpart (n * unit - v)
      (le_mul_sub (representable_iff.mp hv).1 (representable_iff.mp hn).1 hlt)
    rw [Nat.sub_mul] at hd
    omega
  · have hd := hpart (v - n * unit)
      (hgt.le.trans (le_mul_sub (representable_iff.mp hn).1 (representable_iff.mp hv).1 hgt))
    rw [Nat.sub_mul] at hd
    omega

end Binary64

theorem isZero_ofNat {places n : Nat} (h : (Digits.ofNat places n).isZero = true) : n = 0 := by
  have hz : ∀ c ∈ (Digits.ofNat places n).whole ++ (Digits.ofNat places n).fraction, c = '0' := by
    intro c hc
    exact eq_of_beq (List.all_eq_true.mp h c hc)
  have hv := value_ofNat places n
  rw [List.eq_replicate_of_mem hz, Nat.ofDigitChars_replicate_zero] at hv
  simpa using hv.symm

theorem decimalOfFloat_eq {plus : Bool} {places : Nat} {options : Options} {x : Binary64}
    {s : Bool} {v : Nat} {hv : Representable v} (h : x.roundPlaces places = .finite s v hv) :
    decimalOfFloat plus places options x =
      sign plus (x.isNegative && !(digitsOfUnits places v).isZero) x.isNonNegative ++
        (digitsOfUnits places v).write options := by
  rw [decimalOfFloat, h]

/-- The signs of the two numerals agree, since the digits of a negative integer are not zeros. -/
theorem decimalOfFloat_of_unmoved {i : Int} (hi : i.natAbs ≤ 2 ^ 53) (plus : Bool) (places : Nat)
    (options : Options)
    (h : (Binary64.ofInt i).roundPlaces places = Binary64.ofInt i) :
    decimalOfFloat plus places options (.ofInt i) = decimalOfInt plus places options i := by
  have hr := Binary64.representable_mul_unit hi
  have hx := Binary64.ofInt_exact hr
  have hdigits : digitsOfUnits places (i.natAbs * Binary64.unit) =
      Digits.ofNat places (i.natAbs * Nat.pow 10 places) := by
    rw [digitsOfUnits, Nat.mul_right_comm, roundHalfEven_mul_right _ _ Binary64.unit_pos]
  rw [decimalOfFloat_eq (h.trans hx), hdigits, decimalOfInt, hx]
  have hpos : (i.natAbs * Binary64.unit == 0) = decide (i = 0) := by
    rw [Bool.eq_iff_iff]
    simp [Binary64.unit_pos.ne']
  have hzero : i < 0 → (Digits.ofNat places (i.natAbs * Nat.pow 10 places)).isZero = false := by
    intro hlt
    rw [Bool.eq_false_iff]
    intro hz
    have hn := isZero_ofNat hz
    simp at hn
    omega
  congr 2
  · by_cases hlt : i < 0
    · rw [hzero hlt]
      simp [Binary64.isNegative, hlt, hlt.ne, Binary64.unit_pos.ne']
    · simp [Binary64.isNegative, hlt]
  · rw [Bool.eq_iff_iff]
    simp only [Binary64.isNonNegative, hpos, Bool.or_eq_true, Bool.not_eq_true',
      decide_eq_false_iff_not, decide_eq_true_eq]
    omega

/-- An integer that is a double has the numeral of that double exactly if it is brought back by
its scaling. -/
theorem decimal_eq_iff {i : Int} (hi : i.natAbs ≤ 2 ^ 53) (plus : Bool) (places : Nat)
    (options : Options) :
    decimalOfFloat plus places options (.ofInt i) = decimalOfInt plus places options i ↔
      (Binary64.ofInt i).scaledBack places = .ofInt i := by
  have hr := Binary64.representable_mul_unit hi
  have hx := Binary64.ofInt_exact hr
  have hround : (Binary64.ofInt i).roundPlaces places = (Binary64.ofInt i).scaledBack places := by
    rw [hx]
    exact Binary64.roundPlaces_whole places _ hr
  constructor
  · intro heq
    by_contra hmoved
    obtain ⟨v, hv, hback⟩ := Binary64.scaledBack_finite places (decide (i < 0)) hr
    rw [← hx] at hback
    have hne : v ≠ i.natAbs * Binary64.unit := by
      rintro rfl
      exact hmoved (hback.trans hx.symm)
    have hlarge : 2 ^ 53 < i.natAbs * 5 ^ places := by
      by_contra hle
      have hexact := Binary64.scaledBack_exact places (decide (i < 0)) hr (Nat.le_of_not_lt hle)
      rw [← hx] at hexact
      exact hmoved hexact
    rw [decimalOfFloat_eq (hround.trans hback)] at heq
    exact Binary64.roundHalfEven_ne hr hv hne hlarge (ofNat_of_write heq)
  · intro hback
    exact decimalOfFloat_of_unmoved hi plus places options (hround.trans hback)

/-- In a decimal style, a whole number held as a double has the numeral of the integer exactly if
scaling it by the places and back gives that double again, as it does if the scaled number fits
into the 53 bits of a significand. -/
theorem write_whole_double (i : Int64) (hi : i.toInt.natAbs ≤ 2 ^ 53) (plus : Bool)
    (places : Nat) (options : Options) :
    let x := Binary64.ofInt i.toInt
    let p := min places 500
    x.roundPlaces p = x.scaledBack p ∧
      ((Number.float x).write plus places none options =
          (Number.integer i).write plus places none options ↔ x.scaledBack p = x) ∧
      (i.toInt.natAbs * 5 ^ p ≤ 2 ^ 53 →
        (Number.float x).write plus places none options =
          (Number.integer i).write plus places none options) := by
  intro x p
  have hr := Binary64.representable_mul_unit hi
  have hiff := decimal_eq_iff hi plus p options
  refine ⟨?_, hiff, fun h => hiff.mpr ?_⟩
  · show Binary64.roundPlaces p (Binary64.ofInt _) = Binary64.scaledBack p (Binary64.ofInt _)
    rw [Binary64.ofInt_exact hr]
    exact Binary64.roundPlaces_whole p _ hr
  · rw [Binary64.ofInt_exact hr]
    exact Binary64.scaledBack_exact p _ hr h

/-- A negative integer at two places, with a sign asked for. -/
theorem write_whole_double_negative :
    let x := Binary64.ofInt (-1234567)
    (Number.float x).write true 2 none .standard = "-1,234,567.00".toList ∧
      x.roundPlaces 2 = x ∧ x.scaledBack 2 = x := by
  intro x
  have hi : (-1234567 : Int64).toInt.natAbs ≤ 2 ^ 53 := by decide +kernel
  obtain ⟨hround, hiff, hfits⟩ := write_whole_double (-1234567) hi true 2 .standard
  have hwrite := hfits (by decide +kernel)
  have hback : x.scaledBack 2 = x := hiff.mp hwrite
  have hinteger : (Number.integer (-1234567)).write true 2 none .standard =
      "-1,234,567.00".toList := by decide +kernel
  exact ⟨hwrite.trans hinteger, hround.trans hback, hback⟩

/-- A whole number of sixteen digits that one place is too much for. -/
theorem write_whole_double_moved :
    (Number.float (.ofInt 1801439850948199)).write false 1 none .standard =
        "1,801,439,850,948,199.2".toList ∧
      (Number.integer 1801439850948199).write false 1 none .standard =
        "1,801,439,850,948,199.0".toList := by
  decide +kernel

end MessagePattern
