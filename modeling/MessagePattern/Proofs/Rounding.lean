import Mathlib.Data.Nat.Log
import Mathlib.Tactic.Positivity
import Mathlib.Tactic.Ring
import MessagePattern.Binary64.Arithmetic

/-!
# Rounding to the nearest double

A magnitude is a double as far as it is a multiple of the spacing at its size and
not too large. Rounding keeps every double, does not cross one, and moves a whole
number to a whole number.
-/

set_option autoImplicit false

namespace MessagePattern

/-- What is rounded to an integer is moved by half of one at most. -/
theorem roundHalfEven_bounds (n : Nat) {d : Nat} (hd : 0 < d) :
    2 * n ≤ 2 * (roundHalfEven n d * d) + d ∧ 2 * (roundHalfEven n d * d) ≤ 2 * n + d := by
  have hn := Nat.div_add_mod n d
  have hr := Nat.mod_lt n hd
  rw [mul_comm] at hn
  simp only [roundHalfEven]
  split
  · omega
  · rw [add_one_mul]
    omega

/-- Rounding does not cross an integer. -/
theorem le_roundHalfEven {k n d : Nat} (hd : 0 < d) (h : k * d ≤ n) : k ≤ roundHalfEven n d := by
  have hb := roundHalfEven_bounds n hd
  by_contra hlt
  have hk : (roundHalfEven n d + 1) * d ≤ k * d := Nat.mul_le_mul_right d (by omega)
  rw [add_one_mul] at hk
  omega

theorem roundHalfEven_le {k n d : Nat} (hd : 0 < d) (h : n ≤ k * d) : roundHalfEven n d ≤ k := by
  have hb := roundHalfEven_bounds n hd
  by_contra hlt
  have hk : (k + 1) * d ≤ roundHalfEven n d * d := Nat.mul_le_mul_right d (by omega)
  rw [add_one_mul] at hk
  omega

namespace Binary64

/-- The distance to the next larger double, in units. -/
def spacing (units : Nat) : Nat := 2 ^ (units.log2 - 52)

theorem spacing_pos (u : Nat) : 0 < spacing u := Nat.two_pow_pos _

theorem lt_mul_spacing (u : Nat) : u < 2 ^ 53 * spacing u := by
  rw [spacing, ← pow_add]
  exact Nat.lt_log2_self.trans_le (Nat.pow_le_pow_right (by decide) (by omega))

/-- A spacing of more than one is that of a full significand. -/
theorem mul_spacing_le {u : Nat} (h : 52 ≤ u.log2) : 2 ^ 52 * spacing u ≤ u := by
  have hu : u ≠ 0 := by
    rintro rfl
    simp at h
  rw [spacing, ← pow_add, Nat.add_sub_cancel' h]
  exact Nat.log2_self_le hu

theorem log2_mono {u v : Nat} (h : u ≤ v) : u.log2 ≤ v.log2 := by
  simpa only [Nat.log2_eq_log_two] using Nat.log_mono_right h

theorem spacing_dvd_spacing {u v : Nat} (h : u ≤ v) : spacing u ∣ spacing v :=
  pow_dvd_pow 2 (Nat.sub_le_sub_right (log2_mono h) 52)

theorem spacing_dvd_shift {s : Nat} (hs : s ≤ 2 ^ 53) (x : Nat) :
    spacing (s * 2 ^ x) ∣ s * 2 ^ x := by
  rcases hs.lt_or_eq with hlt | rfl
  · rcases Nat.eq_zero_or_pos s with rfl | hpos
    · simp
    · have hne : s * 2 ^ x ≠ 0 := by positivity
      have hl : (s * 2 ^ x).log2 < 53 + x := by
        rw [Nat.log2_lt hne, pow_add]
        exact Nat.mul_lt_mul_of_pos_right hlt (Nat.two_pow_pos x)
      exact (pow_dvd_pow 2 (by omega)).trans (Dvd.intro_left s rfl)
  · rw [spacing, ← pow_add, Nat.log2_two_pow]
    exact pow_dvd_pow 2 (by omega)

/-- The doubles are the multiples of their spacing below the range. -/
theorem representable_iff {u : Nat} : Representable u ↔ spacing u ∣ u ∧ u < 2 ^ (53 + 2045) := by
  have h53 : 1 <<< 53 = 2 ^ 53 := by decide
  constructor
  · rintro ⟨s, x, hs, hx, rfl⟩
    rw [h53] at hs
    rw [Nat.shiftLeft_eq]
    generalize 2045 = m at hx ⊢
    refine ⟨spacing_dvd_shift hs.le x, ?_⟩
    rw [pow_add]
    exact Nat.mul_lt_mul_of_lt_of_le hs (Nat.pow_le_pow_right (by decide) hx) (Nat.two_pow_pos _)
  · rintro ⟨hd, hu⟩
    refine ⟨u / spacing u, u.log2 - 52, ?_, ?_, ?_⟩
    · rw [h53, Nat.div_lt_iff_lt_mul (spacing_pos u)]
      exact lt_mul_spacing u
    · by_cases h0 : u = 0
      · simp [h0]
      · have hl := (Nat.log2_lt h0).mpr hu
        omega
    · rw [Nat.shiftLeft_eq]
      exact (Nat.div_mul_cancel hd).symm

/-- Two doubles lie apart by no less than a part of the larger one. -/
theorem le_mul_sub {u v : Nat} (hu : spacing u ∣ u) (hv : spacing v ∣ v) (h : u < v) :
    v ≤ 2 ^ 54 * (v - u) := by
  have hd : spacing u ≤ v - u :=
    Nat.le_of_dvd (by omega) (Nat.dvd_sub ((spacing_dvd_spacing h.le).trans hv) hu)
  by_cases hl : v.log2 - 52 ≤ u.log2 - 52 + 1
  · have hs : spacing v ≤ 2 * spacing u := by
      rw [spacing, spacing, ← pow_succ']
      exact Nat.pow_le_pow_right (by decide) hl
    have hlt := lt_mul_spacing v
    omega
  · -- two spacings further down, the smaller one is below half of the larger one
    have hu2 : 2 * u < v := by
      have hv0 : v ≠ 0 := by omega
      calc 2 * u < 2 * 2 ^ (u.log2 + 1) := by
            have := Nat.lt_log2_self (n := u)
            omega
        _ = 2 ^ (u.log2 + 2) := by rw [pow_succ 2 (u.log2 + 1), mul_comm]
        _ ≤ 2 ^ v.log2 := Nat.pow_le_pow_right (by decide) (by omega)
        _ ≤ v := Nat.log2_self_le hv0
    omega

def rounded (numerator denominator : Nat) : Nat :=
  roundHalfEven numerator (denominator * spacing (numerator / denominator)) *
    spacing (numerator / denominator)

theorem roundHalfEven_spacing_le {n d : Nat} (hd : 0 < d) :
    roundHalfEven n (d * spacing (n / d)) ≤ 2 ^ 53 := by
  apply roundHalfEven_le (Nat.mul_pos hd (spacing_pos _))
  have hlt := (Nat.div_lt_iff_lt_mul hd).mp (lt_mul_spacing (n / d))
  rw [mul_comm d, ← mul_assoc]
  exact hlt.le

theorem le_roundHalfEven_spacing {n d : Nat} (hd : 0 < d) (h : 52 ≤ (n / d).log2) :
    2 ^ 52 ≤ roundHalfEven n (d * spacing (n / d)) := by
  apply le_roundHalfEven (Nat.mul_pos hd (spacing_pos _))
  calc 2 ^ 52 * (d * spacing (n / d)) = 2 ^ 52 * spacing (n / d) * d := by ring
    _ ≤ n := (Nat.le_div_iff_mul_le hd).mp (mul_spacing_le h)

theorem spacing_dvd_rounded {n d : Nat} (hd : 0 < d) : spacing (rounded n d) ∣ rounded n d :=
  spacing_dvd_shift (roundHalfEven_spacing_le hd) _

theorem not_representable_shift {s x : Nat} (hs : 2 ^ 52 ≤ s) (hx : 2045 < x) :
    ¬ Representable (s <<< x) := by
  intro h
  have hlt := (representable_iff.mp h).2
  generalize 2045 = m at hx hlt
  have hle : 2 ^ (53 + m) ≤ s <<< x := by
    calc 2 ^ (53 + m) ≤ 2 ^ (52 + x) := Nat.pow_le_pow_right (by decide) (by omega)
      _ = 2 ^ 52 * 2 ^ x := pow_add 2 52 x
      _ ≤ s * 2 ^ x := Nat.mul_le_mul_right _ hs
      _ = s <<< x := (Nat.shiftLeft_eq s x).symm
  omega

theorem scaled_cases (negative : Bool) {s x : Nat} (h : s < 1 <<< 53)
    (hfull : 2045 < x → 2 ^ 52 ≤ s) :
    (∃ h', scaled negative s x h = .finite negative (s <<< x) h') ∨
      ¬ Representable (s <<< x) ∧ scaled negative s x h = .infinite negative := by
  by_cases hx : x ≤ 2045
  · exact .inl ⟨representable_scale h hx, dif_pos hx⟩
  · have hlt : 2045 < x := by omega
    exact .inr ⟨not_representable_shift (hfull hlt) hlt, dif_neg hx⟩

/-- A fraction is rounded to a magnitude of the format, or is out of its range. -/
theorem nearest_cases (negative : Bool) {n d : Nat} (hd : 0 < d) :
    (∃ h, nearest negative n d = .finite negative (rounded n d) h) ∨
      ¬ Representable (rounded n d) ∧ nearest negative n d = .infinite negative := by
  obtain ⟨e, he⟩ : ∃ e, e = (n / d).log2 - 52 := ⟨_, rfl⟩
  obtain ⟨s, hs⟩ : ∃ s, s = roundHalfEven n (d <<< e) := ⟨_, rfl⟩
  have hspacing : d <<< e = d * spacing (n / d) := by rw [Nat.shiftLeft_eq, he, spacing]
  have hr : rounded n d = s <<< e := by
    rw [rounded, ← hspacing, ← hs, Nat.shiftLeft_eq, he, spacing]
  have hle : s ≤ 1 <<< 53 := by
    rw [hs, hspacing]
    exact roundHalfEven_spacing_le hd
  have hn : nearest negative n d =
      if h : s < 1 <<< 53 then scaled negative s e h
      else scaled negative (1 <<< 52) (e + 1) (by decide) := by
    subst hs he
    rfl
  rw [hn, hr]
  split
  · rename_i h
    apply scaled_cases negative h
    intro hx
    rw [hs, hspacing]
    exact le_roundHalfEven_spacing hd (by omega)
  · rename_i h
    -- a significand rounded up to a power of two is written with the next exponent
    have hshift : s <<< e = (1 <<< 52) <<< (e + 1) := by
      rw [le_antisymm hle (Nat.le_of_not_lt h), ← Nat.shiftLeft_add, ← Nat.shiftLeft_add]
      congr 1
      omega
    rw [hshift]
    exact scaled_cases negative _ fun _ => by decide

/-- Rounding does not cross a double. -/
theorem rounded_le {k n d : Nat} (hd : 0 < d) (hk : spacing k ∣ k) (h : n ≤ k * d) :
    rounded n d ≤ k := by
  have hq : n / d ≤ k := Nat.div_le_of_le_mul (by rwa [mul_comm])
  obtain ⟨t, ht⟩ := (spacing_dvd_spacing hq).trans hk
  have hs : roundHalfEven n (d * spacing (n / d)) ≤ t := by
    apply roundHalfEven_le (Nat.mul_pos hd (spacing_pos _))
    calc n ≤ k * d := h
      _ = t * (d * spacing (n / d)) := by
        nth_rewrite 1 [ht]
        ring
  calc rounded n d ≤ t * spacing (n / d) := Nat.mul_le_mul_right _ hs
    _ = k := by rw [mul_comm]; exact ht.symm

theorem le_rounded {k n d : Nat} (hd : 0 < d) (hk : spacing k ∣ k) (h : k * d ≤ n) :
    k ≤ rounded n d := by
  have hq : k ≤ n / d := (Nat.le_div_iff_mul_le hd).mpr h
  by_cases hl : (n / d).log2 - 52 ≤ k.log2 - 52
  · have hdvd : spacing (n / d) ∣ k := (pow_dvd_pow 2 hl).trans hk
    obtain ⟨t, ht⟩ := hdvd
    have hs : t ≤ roundHalfEven n (d * spacing (n / d)) := by
      apply le_roundHalfEven (Nat.mul_pos hd (spacing_pos _))
      calc t * (d * spacing (n / d)) = spacing (n / d) * t * d := by ring
        _ ≤ n := ht ▸ h
    calc k = t * spacing (n / d) := by rw [mul_comm]; exact ht
      _ ≤ rounded n d := Nat.mul_le_mul_right _ hs
  · have hs : 2 * spacing k ≤ spacing (n / d) := by
      rw [spacing, spacing, ← pow_succ']
      exact Nat.pow_le_pow_right (by decide) (by omega)
    have hfull := Nat.mul_le_mul_right (spacing (n / d))
      (le_roundHalfEven_spacing (n := n) hd (by omega))
    have hlt := lt_mul_spacing k
    rw [rounded]
    omega

theorem rounded_mul {u d : Nat} (hd : 0 < d) (h : spacing u ∣ u) : rounded (u * d) d = u :=
  le_antisymm (rounded_le hd h le_rfl) (le_rounded hd h le_rfl)

theorem representable_rounded {k n d : Nat} (hd : 0 < d) (hk : Representable k) (h : n ≤ k * d) :
    Representable (rounded n d) := by
  obtain ⟨hdvd, hlt⟩ := representable_iff.mp hk
  exact representable_iff.mpr ⟨spacing_dvd_rounded hd, (rounded_le hd hdvd h).trans_lt hlt⟩

theorem nearest_finite (negative : Bool) {k n d : Nat} (hd : 0 < d) (hk : Representable k)
    (h : n ≤ k * d) : ∃ h', nearest negative n d = .finite negative (rounded n d) h' := by
  rcases nearest_cases negative hd with hf | ⟨hno, -⟩
  · exact hf
  · exact absurd (representable_rounded hd hk h) hno

/-- A double is rounded to itself. -/
theorem nearest_exact (negative : Bool) {u n d : Nat} (hd : 0 < d) (hn : n = u * d)
    (h : Representable u) : nearest negative n d = .finite negative u h := by
  subst hn
  have hr : rounded (u * d) d = u := rounded_mul hd (representable_iff.mp h).1
  obtain ⟨h', he⟩ := nearest_finite negative hd h le_rfl
  simp only [he, hr]

theorem unit_eq : ∃ b, b = 1074 ∧ unit = 2 ^ b := by
  obtain ⟨b, hb⟩ : ∃ b, b = 1074 := ⟨_, rfl⟩
  exact ⟨b, hb, by rw [unit, ← hb, Nat.one_shiftLeft]⟩

theorem unit_pos : 0 < unit := by
  obtain ⟨b, -, hb⟩ := unit_eq
  exact hb ▸ Nat.two_pow_pos b

theorem representable_whole {s x : Nat} (hs : s ≤ 2 ^ 53) (hx : x ≤ 900) :
    Representable (s * 2 ^ x * unit) := by
  obtain ⟨b, hb, hunit⟩ := unit_eq
  rw [hunit, mul_assoc, ← pow_add]
  refine representable_iff.mpr ⟨spacing_dvd_shift hs _, ?_⟩
  have hlt : x + b < 2045 := by omega
  generalize 2045 = m at hlt
  rw [pow_add 2 53]
  exact Nat.mul_lt_mul_of_le_of_lt hs (Nat.pow_lt_pow_right one_lt_two hlt) (Nat.two_pow_pos _)

theorem representable_mul_unit {n : Nat} (h : n ≤ 2 ^ 53) : Representable (n * unit) := by
  simpa only [pow_zero, mul_one] using representable_whole h (Nat.zero_le 900)

theorem unit_dvd_rounded {n d : Nat} (hd : 0 < d) : unit ∣ rounded (n * unit * d) d := by
  obtain ⟨b, -, hunit⟩ := unit_eq
  rcases le_total b ((n * unit).log2 - 52) with h | h
  · have hs : unit ∣ spacing (n * unit) := by
      rw [spacing]
      nth_rewrite 1 [hunit]
      exact pow_dvd_pow 2 h
    rw [rounded, Nat.mul_div_cancel _ hd]
    exact hs.trans (Dvd.intro_left _ rfl)
  · -- below the size at which whole numbers are skipped
    have hs : spacing (n * unit) ∣ unit := by
      rw [spacing]
      nth_rewrite 2 [hunit]
      exact pow_dvd_pow 2 h
    rw [rounded_mul hd (hs.trans (Dvd.intro_left n rfl))]
    exact Dvd.intro_left n rfl

/-- A whole number is rounded to a whole number, and a positive one to a positive one. -/
theorem rounded_whole {n d : Nat} (hd : 0 < d) :
    ∃ k, rounded (n * unit * d) d = k * unit ∧ (0 < n → 0 < k) := by
  obtain ⟨k, hk⟩ := unit_dvd_rounded (n := n) hd
  refine ⟨k, hk.trans (mul_comm unit k), ?_⟩
  intro hn
  have hone : spacing (1 * unit) ∣ 1 * unit :=
    (representable_iff.mp (representable_mul_unit Nat.one_le_two_pow)).1
  have hle : 1 * unit ≤ rounded (n * unit * d) d :=
    le_rounded hd hone (Nat.mul_le_mul_right d (Nat.mul_le_mul_right unit hn))
  have hu := unit_pos
  rw [one_mul, hk] at hle
  exact Nat.pos_of_mul_pos_left (hu.trans_le hle)

end Binary64

end MessagePattern
