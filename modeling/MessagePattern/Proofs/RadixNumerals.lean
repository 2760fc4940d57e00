import Mathlib.Data.Rat.Floor
import MessagePattern.Proofs.ExponentNumerals

/-!
# Radix numerals of numbers

A radix numeral is the mark of its style and the digits of the 64-bit word that
holds the integer, with no zero in front of others. Read as a word, the digits
give the integer again. Nothing but the style has a say in the numeral, and of a
double only the integer part is seen, as far as it is a 64-bit integer.
-/

set_option autoImplicit false

namespace MessagePattern

def Style.base? : Style → Option Nat
  | .binary => some 2
  | .octal => some 8
  | .hex => some 16
  | _ => none

namespace Numeral

def digitsOf (base : Nat) : List Char := "0123456789ABCDEF".toList.take base

def readIn? (base n : Nat) : List Char → Option Nat
  | [] => some n
  | c :: digits => do
    let d ← (digitsOf base).idxOf? c
    readIn? base (base * n + d) digits

structure CanonicalIn (base n : Nat) (digits : List Char) : Prop where
  ne_nil : digits ≠ []
  lead : digits.head? = some '0' → digits = ['0']
  value : readIn? base 0 digits = some n

theorem readIn?_append (base n : Nat) (digits rest : List Char) :
    readIn? base n (digits ++ rest) = (readIn? base n digits).bind (readIn? base · rest) := by
  induction digits generalizing n with
  | nil => rfl
  | cons c digits ih => simp [readIn?, ih, Option.bind_assoc]

def radixDigits (base n : Nat) : List Char := (Nat.toDigits base n).map Char.toUpper

theorem radixDigits_of_lt {base n : Nat} (h : n < base) :
    radixDigits base n = [(Nat.digitChar n).toUpper] := by
  rw [radixDigits, Nat.toDigits_of_lt_base h, List.map_singleton]

theorem radixDigits_of_le {base n : Nat} (hb : 1 < base) (h : base ≤ n) :
    radixDigits base n = radixDigits base (n / base) ++ [(Nat.digitChar (n % base)).toUpper] := by
  rw [radixDigits, Nat.toDigits_of_base_le hb h, List.map_append, List.map_singleton]
  rfl

theorem radixDigits_ne_nil (base n : Nat) : radixDigits base n ≠ [] := by
  rw [radixDigits, ne_eq, List.map_eq_nil_iff]
  exact Nat.toDigits_ne_nil

/-- In a base up to ten there are no letters. -/
theorem radixDigits_eq_toDigits {base : Nat} (hb : 0 < base) (h : base ≤ 10) (n : Nat) :
    radixDigits base n = Nat.toDigits base n := by
  have hdigit : ∀ c ∈ Nat.toDigits base n, c.toUpper = id c := by
    intro c hc
    have hd := Nat.isDigit_of_mem_toDigits hb h hc
    simp only [Char.isDigit, Bool.and_eq_true, decide_eq_true_eq, UInt32.le_iff_toNat_le] at hd
    have hnine : '9'.val.toNat < 'a'.val.toNat := by decide
    have hsmall : ¬ (c.val ≥ 'a'.val ∧ c.val ≤ 'z'.val) := by
      simp only [UInt32.le_iff_toNat_le]
      omega
    exact dif_neg hsmall
  rw [radixDigits, List.map_congr_left hdigit, List.map_id]

structure IsBase (base : Nat) : Prop where
  one_lt : 1 < base
  digit : ∀ d < base, (digitsOf base).idxOf? (Nat.digitChar d).toUpper = some d

theorem isBase_of_style {style : Style} {base : Nat} (h : style.base? = some base) :
    IsBase base := by
  cases style <;> cases h <;> exact ⟨by decide, by decide⟩

theorem readIn?_radixDigits {base : Nat} (hb : IsBase base) (n : Nat) :
    readIn? base 0 (radixDigits base n) = some n := by
  induction n using Nat.strongRecOn with
  | ind n ih =>
    by_cases hn : n < base
    · simp [radixDigits_of_lt hn, readIn?, hb.digit n hn]
    · have hle : base ≤ n := Nat.le_of_not_lt hn
      have hpos : 0 < base := Nat.zero_lt_of_lt hb.one_lt
      have hlt : n / base < n := Nat.div_lt_self (Nat.lt_of_lt_of_le hpos hle) hb.one_lt
      rw [radixDigits_of_le hb.one_lt hle, readIn?_append, ih _ hlt]
      simp [readIn?, hb.digit _ (Nat.mod_lt n hpos), Nat.div_add_mod]

theorem head_radixDigits {base n : Nat} (hb : IsBase base) (hn : 0 < n) :
    (radixDigits base n).head? ≠ some '0' := by
  induction n using Nat.strongRecOn with
  | ind n ih =>
    have hpos : 0 < base := Nat.zero_lt_of_lt hb.one_lt
    by_cases hlt : n < base
    · rw [radixDigits_of_lt hlt, List.head?_singleton]
      intro h
      have hzero : (digitsOf base).idxOf? '0' = some 0 := hb.digit 0 hpos
      have hdigit := hb.digit n hlt
      rw [Option.some.inj h, hzero] at hdigit
      exact hn.ne (Option.some.inj hdigit)
    · have hle : base ≤ n := Nat.le_of_not_lt hlt
      have hi := ih (n / base) (Nat.div_lt_self hn hb.one_lt) (Nat.div_pos hle hpos)
      rw [radixDigits_of_le hb.one_lt hle, List.head?_append_of_ne_nil _ (radixDigits_ne_nil _ _)]
      exact hi

theorem canonicalIn_radixDigits {base : Nat} (hb : IsBase base) (n : Nat) :
    CanonicalIn base n (radixDigits base n) where
  ne_nil := radixDigits_ne_nil base n
  lead h := by
    rcases Nat.eq_zero_or_pos n with rfl | hn
    · exact radixDigits_of_lt (Nat.zero_lt_of_lt hb.one_lt)
    · exact absurd h (head_radixDigits hb hn)
  value := readIn?_radixDigits hb n

def readRadix? : List Char → Option Int64
  | '0' :: mark :: digits => do
    let style ← Style.ofLetter? mark
    let base ← style.base?
    let n ← readIn? base 0 digits
    if digits ≠ [] ∧ n < UInt64.size then return (UInt64.ofNat n).toInt64 else none
  | _ => none

/-- A negative integer is held by the word that is larger by `2 ^ 64`. -/
theorem word_eq_emod (i : Int64) : (word i : ℤ) = i.toInt % 2 ^ 64 := by
  have hb : i.toInt = (word i : ℤ).bmod (2 ^ 64) := BitVec.toInt_eq_toNat_bmod i.toBitVec
  have hlt : (word i : ℤ) < 2 ^ 64 := by exact_mod_cast word_lt i
  have hc : (2 : ℤ) ^ 64 = (2 ^ 64 : ℕ) := by norm_num
  rw [hc] at hlt ⊢
  rw [hb, Int.bmod_emod, Int.emod_eq_of_lt (Int.natCast_nonneg _) hlt]

theorem readRadix?_word {style : Style} {base : Nat} (h : style.base? = some base) (i : Int64) :
    readRadix? ('0' :: style.letter :: radixDigits base (word i)) = some i := by
  have hr := readIn?_radixDigits (isBase_of_style h) (word i)
  have hw : (UInt64.ofNat (word i)).toInt64 = i := by
    rw [word, UInt64.ofNat_toNat]
    exact Int64.toInt64_toUInt64 i
  simp only [readRadix?, Style.ofLetter?_letter, Option.bind_eq_bind, Option.bind_some, h, hr]
  rw [if_pos ⟨radixDigits_ne_nil _ _, word_lt i⟩, hw]
  rfl

theorem write_radix {style : Style} {base : Nat} (h : style.base? = some base) (plus : Bool)
    (places : Nat) (options : Options) (n : Number) :
    n.write plus places (some style) options =
      '0' :: style.letter :: radixDigits base (word n.toInt64) := by
  cases style with
  | binary | octal =>
    cases h
    rw [radixDigits_eq_toDigits (by decide) (by decide)]
    rfl
  | hex =>
    cases h
    rfl
  | _ => cases h

end Numeral

open Numeral

def towardZero (q : ℚ) : ℤ := if q < 0 then ⌈q⌉ else ⌊q⌋

def saturate (n : ℤ) : ℤ := max (-2 ^ 63) (min (2 ^ 63 - 1) n)

theorem saturate_natCast (n : ℕ) : saturate n = min (2 ^ 63 - 1) (n : ℤ) := by
  unfold saturate
  omega

theorem saturate_neg_natCast (n : ℕ) : saturate (-n) = max (-2 ^ 63) (-n : ℤ) := by
  unfold saturate
  omega

theorem saturate_range (n : ℤ) : -2 ^ 63 ≤ saturate n ∧ saturate n < 2 ^ 63 := by
  unfold saturate
  omega

namespace Binary64

/-- A finite double lies between whole numbers of units. -/
theorem towardZero_value (s : Bool) {u : Nat} (h : Representable u) :
    towardZero (finite s u h).value = if s then -((u / unit : Nat) : ℤ) else (u / unit : Nat) := by
  have hfloor : ⌊(u : ℚ) / unit⌋ = ((u / unit : Nat) : ℤ) := Rat.floor_natCast_div_natCast u unit
  cases s with
  | false =>
    have hn : ¬ (finite false u h).value < 0 := not_lt.mpr (magnitude_nonneg u)
    rw [towardZero, if_neg hn]
    exact hfloor
  | true =>
    have hv : (finite true u h).value = -(u / unit) := rfl
    rw [towardZero, hv]
    split
    · rw [Int.ceil_neg, hfloor]
      rfl
    · rename_i hn
      have hz : (u : ℚ) / unit = 0 := le_antisymm (by linarith) (magnitude_nonneg u)
      rw [hz] at hfloor ⊢
      rw [neg_zero, if_pos rfl, ← hfloor, Int.floor_zero, neg_zero]

theorem truncate_finite (s : Bool) {u : Nat} (h : Representable u) :
    (truncate (.finite s u h)).toInt = saturate (towardZero (finite s u h).value) := by
  have hmin : Int64.minValue.toInt = -2 ^ 63 := by decide
  have hmax : Int64.maxValue.toInt = 2 ^ 63 - 1 := by decide
  have ht : truncate (.finite s u h) = .ofInt (saturate (towardZero (finite s u h).value)) := by
    rw [towardZero_value, truncate]
    generalize u / unit = whole
    cases s with
    | false => rw [if_neg Bool.false_ne_true, if_neg Bool.false_ne_true, saturate_natCast, hmax]
    | true => rw [if_pos rfl, if_pos rfl, saturate_neg_natCast, hmin]
  obtain ⟨hlow, hhigh⟩ := saturate_range (towardZero (finite s u h).value)
  rw [ht, Int64.toInt_ofInt_of_le hlow hhigh]

end Binary64

/-- In a radix style an integer is written with the mark of the style and the canonical digits of
its residue modulo `2 ^ 64`, whatever else is asked for, and they are read as the integer again. A
double is written like its integer part, or like the nearest integer there is, and a NaN like
zero. -/
theorem render_radix {style : Style} {base : Nat} (hs : style.base? = some base) :
    (∀ i : Int64, ∃ (n : Nat) (digits : List Char),
      (n : ℤ) = i.toInt % 2 ^ 64 ∧ CanonicalIn base n digits ∧
        readRadix? ('0' :: style.letter :: digits) = some i ∧
        ∀ (m : Modifiers) (options : Options), m.style = some style → m.isTypeQuery = false →
          (Value.integer i).render m options = .ok ('0' :: style.letter :: digits)) ∧
      ∀ x : Binary64, ∃ i : Int64,
        (x.isFinite = true → i.toInt = saturate (towardZero x.value)) ∧
          (∀ negative, x = .infinite negative → i = if negative then .minValue else .maxValue) ∧
          (x = .nan → i = 0) ∧
          ∀ (m : Modifiers) (options : Options), m.style = some style → m.isTypeQuery = false →
            (Value.float x).render m options = (Value.integer i).render m options := by
  have hwrite : ∀ (m : Modifiers) (options : Options) (n : Number), m.style = some style →
      m.number options n = '0' :: style.letter :: radixDigits base (word n.toInt64) := by
    intro m options n hm
    rw [Modifiers.number, hm, write_radix hs]
  constructor
  · intro i
    refine ⟨word i, radixDigits base (word i), word_eq_emod i,
      canonicalIn_radixDigits (isBase_of_style hs) _, readRadix?_word hs i, ?_⟩
    intro m options hm hq
    simp only [Value.render, hq, Bool.false_eq_true, if_false, Value.renderPlain,
      hwrite m options _ hm, Number.toInt64]
  · intro x
    refine ⟨x.truncate, ?_, ?_, ?_, ?_⟩
    · intro hx
      cases x with
      | finite s u hu => exact Binary64.truncate_finite s hu
      | _ => cases hx
    · rintro negative rfl
      rfl
    · rintro rfl
      rfl
    · intro m options hm hq
      simp only [Value.render, hq, Bool.false_eq_true, if_false, Value.renderPlain,
        hwrite m options _ hm, Number.toInt64]

/-- A negative integer, and the infinity below all of them. -/
theorem render_radix_negative :
    let m : Modifiers :=
      { plus := true, decimals := 3, style := some .hex, conjunction := some "or" }
    Style.hex.base? = some 16 ∧ m.isTypeQuery = false ∧
      (Value.integer (-255)).render m .standard = .ok "0xFFFFFFFFFFFFFF01".toList ∧
      readRadix? "0xFFFFFFFFFFFFFF01".toList = some (-255) ∧
      (Value.float (.infinite true)).render m .standard = .ok "0x8000000000000000".toList := by
  intro m
  have hq : m.isTypeQuery = false := by decide
  have htext : (Value.integer (-255)).render m .standard = .ok "0xFFFFFFFFFFFFFF01".toList := by
    decide +kernel
  obtain ⟨hinteger, hdouble⟩ := @render_radix .hex 16 rfl
  obtain ⟨n, digits, -, -, hread, hrender⟩ := hinteger (-255)
  have hdigits := (hrender m .standard rfl hq).symm.trans htext
  rw [Except.ok.inj hdigits] at hread
  obtain ⟨i, -, hinfinite, -, hsame⟩ := hdouble (.infinite true)
  refine ⟨rfl, hq, htext, hread, ?_⟩
  rw [hsame m .standard rfl hq, hinfinite true rfl]
  decide +kernel

end MessagePattern
