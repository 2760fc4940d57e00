import Mathlib.Algebra.Field.Rat
import Mathlib.Data.List.TakeWhile
import Mathlib.Tactic.Positivity
import MessagePattern.Numeral
import MessagePattern.Proofs.Keys

/-!
# Decimal numerals of integers

The digits of a numeral are canonical and have the value that they are written
for. The separators between them are placed by counting the digits to the end,
so that they can be taken out again, and what is left is read as the number.
-/

set_option autoImplicit false

namespace MessagePattern

namespace Numeral

structure Canonical (digits : List Char) (n : Nat) : Prop where
  ne_nil : digits ≠ []
  isDigit : ∀ c ∈ digits, c.isDigit = true
  lead : digits.head? = some '0' → digits = ['0']
  value : Nat.ofDigitChars 10 digits 0 = n

theorem canonical_toDigits (n : Nat) : Canonical (Nat.toDigits 10 n) n where
  ne_nil := Nat.toDigits_ne_nil
  isDigit _ hc := Nat.isDigit_of_mem_toDigits (by decide) (by decide) hc
  lead h := by
    rcases Nat.eq_zero_or_pos n with rfl | hn
    · rfl
    · exact absurd h (head_toDigits hn)
  value := Nat.ofDigitChars_ten_toDigits

/-- The number of digits is told by the powers of ten around the number. -/
theorem exists_length_toDigits {n : Nat} (hn : 0 < n) :
    ∃ l, (Nat.toDigits 10 n).length = l + 1 ∧ 10 ^ l ≤ n ∧ n < 10 ^ (l + 1) := by
  obtain ⟨l, hl⟩ : ∃ l, (Nat.toDigits 10 n).length = l + 1 :=
    Nat.exists_eq_succ_of_ne_zero (List.length_pos_of_ne_nil Nat.toDigits_ne_nil).ne'
  refine ⟨l, hl, ?_, ?_⟩
  · rcases Nat.eq_zero_or_pos l with rfl | h0
    · exact hn
    · by_contra hlt
      have hle := (Nat.length_toDigits_le_iff (by decide) h0).mpr (Nat.lt_of_not_le hlt)
      omega
  · exact (Nat.length_toDigits_le_iff (by decide) (Nat.succ_pos l)).mp hl.le

theorem length_fraction (places n : Nat) : (Digits.ofNat places n).fraction.length = places := by
  by_cases hp : places = 0
  · simp [Digits.ofNat, hp]
  · have hlt : n % 10 ^ places < 10 ^ places := Nat.mod_lt _ (by positivity)
    have hl : (Nat.toDigits 10 (n % 10 ^ places)).length ≤ places :=
      (Nat.length_toDigits_le_iff (by decide) (Nat.pos_of_ne_zero hp)).mpr hlt
    have hf : (Digits.ofNat places n).fraction =
        (Nat.toDigits 10 (n % 10 ^ places)).leftpad places '0' := by simp [Digits.ofNat, hp]
    rw [hf, List.length_leftpad, max_eq_left hl]

theorem isDigit_fraction (places n : Nat) :
    ∀ c ∈ (Digits.ofNat places n).fraction, c.isDigit = true := by
  intro c hc
  by_cases hp : places = 0
  · simp [Digits.ofNat, hp] at hc
  · simp only [Digits.ofNat, hp, if_false, List.leftpad, List.mem_append, List.mem_replicate] at hc
    rcases hc with ⟨-, rfl⟩ | hc
    · rfl
    · exact Nat.isDigit_of_mem_toDigits (by decide) (by decide) hc

theorem canonical_whole (places n : Nat) :
    Canonical (Digits.ofNat places n).whole (n / 10 ^ places) :=
  canonical_toDigits _

/-- Whole part and fraction together are the digits of the number. -/
theorem value_ofNat (places n : Nat) :
    Nat.ofDigitChars 10 ((Digits.ofNat places n).whole ++ (Digits.ofNat places n).fraction) 0 =
      n := by
  have hf : Nat.ofDigitChars 10 (Digits.ofNat places n).fraction 0 = n % 10 ^ places := by
    by_cases hp : places = 0
    · simp [Digits.ofNat, hp, Nat.mod_one]
    · simp [Digits.ofNat, hp, List.leftpad, Nat.ofDigitChars_append,
        Nat.ofDigitChars_replicate_zero, Nat.ofDigitChars_ten_toDigits]
  rw [Nat.ofDigitChars_append, (canonical_whole places n).value,
    Nat.ofDigitChars_eq_ofDigitChars_zero, hf, length_fraction]
  exact Nat.div_add_mod n _

/-- A whole number has zeros behind the point. -/
theorem ofNat_mul_pow (places n : Nat) :
    Digits.ofNat places (n * Nat.pow 10 places) =
      ⟨Nat.toDigits 10 n, List.replicate places '0'⟩ := by
  have hpos : 0 < 10 ^ places := by positivity
  by_cases hp : places = 0
  · simp [Digits.ofNat, hp]
  · have hz : List.replicate (places - 1) '0' ++ ['0'] = List.replicate places '0' := by
      rw [← List.replicate_succ', Nat.sub_add_cancel (Nat.pos_of_ne_zero hp)]
    simp [Digits.ofNat, hp, Nat.mul_div_cancel _ hpos, hz]

def separated (separator : Char) (digits : List Char) : List Char :=
  digits.zipIdx.flatMap fun (d, k) =>
    if 0 < k ∧ (digits.length - k) % 3 = 0 then [separator, d] else [d]

theorem grouped_cons (separator d : Char) (ds : List Char) :
    grouped separator (d :: ds) =
      d :: ((if ds.length % 3 = 0 ∧ ds ≠ [] then [separator] else []) ++ grouped separator ds) := by
  rw [grouped]
  split <;> simp

/-- The rule for a digit looks ahead, and the recursion looks back. -/
theorem grouped_zipIdx (separator d : Char) (ds : List Char) (k : Nat) :
    ((d :: ds).zipIdx k).flatMap (fun (c, j) =>
        if 0 < j ∧ ((d :: ds).length + k - j) % 3 = 0 then [separator, c] else [c]) =
      (if 0 < k ∧ (d :: ds).length % 3 = 0 then [separator] else []) ++
        grouped separator (d :: ds) := by
  induction ds generalizing d k with
  | nil => simp [grouped]
  | cons e ds ih =>
    have hi := ih e (k + 1)
    have hl : (e :: ds).length + (k + 1) = (d :: e :: ds).length + k := by
      simp only [List.length_cons]
      omega
    rw [hl] at hi
    have hk : (d :: e :: ds).length + k - k = (d :: e :: ds).length := Nat.add_sub_cancel ..
    rw [List.zipIdx_cons, List.flatMap_cons, hi, grouped_cons separator d]
    simp only [hk, Nat.succ_pos, true_and, ne_eq, reduceCtorEq, not_false_eq_true, and_true]
    split <;> simp

theorem grouped_eq_separated (separator : Char) (digits : List Char) :
    grouped separator digits = separated separator digits := by
  cases digits with
  | nil => rfl
  | cons d ds =>
    have hz := grouped_zipIdx separator d ds 0
    simpa [separated] using hz.symm

theorem filter_grouped {separator : Char} {digits : List Char} (h : separator ∉ digits) :
    (grouped separator digits).filter (· != separator) = digits := by
  induction digits with
  | nil => rfl
  | cons d ds ih =>
    obtain ⟨hd, hds⟩ := not_or.mp (mt List.mem_cons.mpr h)
    have hne : (d != separator) = true := bne_iff_ne.mpr (Ne.symm hd)
    rw [grouped_cons]
    split <;> simp [hne, ih hds]

theorem length_grouped (separator : Char) (digits : List Char) :
    (grouped separator digits).length = digits.length + (digits.length - 1) / 3 := by
  induction digits with
  | nil => rfl
  | cons d ds ih =>
    rw [grouped_cons, List.length_cons, List.length_append, ih]
    cases ds with
    | nil => simp
    | cons e ds =>
      simp only [ne_eq, reduceCtorEq, not_false_eq_true, and_true, List.length_cons]
      split <;> simp only [List.length_cons, List.length_nil] <;> omega

theorem grouped_injective {separator : Char} {a b : List Char}
    (h : grouped separator a = grouped separator b) : a = b := by
  have hl : a.length = b.length := by
    have hg := congrArg List.length h
    rw [length_grouped, length_grouped] at hg
    omega
  induction a generalizing b with
  | nil => exact (List.eq_nil_of_length_eq_zero hl.symm).symm
  | cons d ds ih =>
    cases b with
    | nil => cases hl
    | cons e es =>
      have hls : ds.length = es.length := Nat.succ.inj hl
      have hgap : (if ds.length % 3 = 0 ∧ ds ≠ [] then [separator] else []) =
          if es.length % 3 = 0 ∧ es ≠ [] then [separator] else [] := by
        simp only [← List.length_pos_iff, hls]
      rw [grouped_cons, grouped_cons, hgap] at h
      obtain ⟨rfl, ht⟩ := List.cons.inj h
      rw [ih (List.append_cancel_left ht) hls]

def isMark (c : Char) : Bool := !(c.isDigit || c == '+' || c == '-')

def takeSign : List Char → Bool × List Char
  | '-' :: r => (true, r)
  | '+' :: r => (false, r)
  | r => (false, r)

def signed (negative : Bool) (x : ℚ) : ℚ := if negative then -x else x

/-- The number that a numeral without separators denotes: a sign or none, digits, and digits
behind a decimal point or no point. -/
def read? (point : Char) (text : List Char) : Option ℚ :=
  let (negative, body) := takeSign text
  let whole := body.takeWhile Char.isDigit
  match whole, body.dropWhile Char.isDigit with
  | [], _ => none
  | _, [] => some (signed negative (Nat.ofDigitChars 10 whole 0))
  | _, c :: fraction =>
    if c = point ∧ fraction ≠ [] ∧ fraction.all Char.isDigit then
      some (signed negative
        (Nat.ofDigitChars 10 (whole ++ fraction) 0 / 10 ^ fraction.length))
    else none

theorem takeSign_sign (plus negative nonNegative : Bool) {d : Char} (hd : d.isDigit = true)
    (r : List Char) :
    takeSign (sign plus negative nonNegative ++ d :: r) = (negative, d :: r) := by
  have hn : takeSign (d :: r) = (false, d :: r) := by
    unfold takeSign
    split
    · rename_i he
      cases he
      cases hd
    · rename_i he
      cases he
      cases hd
    · rfl
  cases negative with
  | true => rfl
  | false =>
    cases plus with
    | false => exact hn
    | true =>
      cases nonNegative with
      | false => exact hn
      | true => rfl

/-- The whole part of a numeral, and what is behind it. -/
theorem write_eq (options : Options) (digits : Digits) :
    digits.write options =
      options.thousandsSeparator.elim digits.whole (grouped · digits.whole) ++
        if digits.fraction.isEmpty then [] else options.decimalPoint :: digits.fraction := by
  cases hs : options.thousandsSeparator <;> simp only [Digits.write, hs, Option.elim] <;> split <;>
    simp

theorem write_ofNat_cons (options : Options) (places n : Nat) :
    ∃ d r, d.isDigit = true ∧ (Digits.ofNat places n).write options = d :: r := by
  have hw := canonical_whole places n
  obtain ⟨d, ds, hcons⟩ := List.exists_cons_of_ne_nil hw.ne_nil
  have hd : d.isDigit = true := hw.isDigit d (hcons ▸ List.mem_cons_self)
  refine ⟨d, ?_⟩
  rw [write_eq, hcons]
  cases options.thousandsSeparator with
  | none => exact ⟨_, hd, rfl⟩
  | some separator =>
    rw [Option.elim, grouped_cons]
    exact ⟨_, hd, rfl⟩

theorem write_injective {options : Options} {a b : Digits}
    (hl : a.fraction.length = b.fraction.length) (h : a.write options = b.write options) :
    a = b := by
  obtain ⟨v, fraction⟩ := a
  obtain ⟨w, fraction'⟩ := b
  have hempty : fraction'.isEmpty = fraction.isEmpty := by
    rw [Bool.eq_iff_iff, List.isEmpty_iff_length_eq_zero, List.isEmpty_iff_length_eq_zero]
    exact hl ▸ Iff.rfl
  simp only [write_eq, hempty] at h
  obtain ⟨hwhole, hrest⟩ := List.append_inj' h (by split <;> simp [hl])
  have hvw : v = w := by
    cases hs : options.thousandsSeparator with
    | none => simpa only [hs, Option.elim] using hwhole
    | some separator => exact grouped_injective (by simpa only [hs, Option.elim] using hwhole)
  split at hrest
  · rename_i hf
    rw [hvw, List.isEmpty_iff.mp hf, List.isEmpty_iff.mp (hempty.trans hf)]
  · rw [hvw, (List.cons.inj hrest).2]

/-- Numerals with one number of places tell their numbers apart, whatever their marks are. -/
theorem ofNat_of_write {options : Options} {places m n : Nat} {plus s s' t t' : Bool}
    (h : sign plus s s' ++ (Digits.ofNat places m).write options =
      sign plus t t' ++ (Digits.ofNat places n).write options) : m = n := by
  have htake : ∀ (negative nonNegative : Bool) (k : Nat),
      takeSign (sign plus negative nonNegative ++ (Digits.ofNat places k).write options) =
        (negative, (Digits.ofNat places k).write options) := by
    intro negative nonNegative k
    obtain ⟨d, r, hd, hw⟩ := write_ofNat_cons options places k
    rw [hw, takeSign_sign _ _ _ hd]
  have hw : (Digits.ofNat places m).write options = (Digits.ofNat places n).write options := by
    have ht := congrArg (fun r => (takeSign r).2) h
    simpa only [htake] using ht
  have hd : Digits.ofNat places m = Digits.ofNat places n :=
    write_injective (by rw [length_fraction, length_fraction]) hw
  rw [← value_ofNat places m, hd, value_ofNat]

theorem read?_write (options : Options) (hs : options.thousandsSeparator = none)
    (hp : isMark options.decimalPoint = true) (plus negative nonNegative : Bool)
    {digits : Digits} (hn : digits.whole ≠ []) (hw : ∀ c ∈ digits.whole, c.isDigit = true)
    (hf : ∀ c ∈ digits.fraction, c.isDigit = true) :
    read? options.decimalPoint (sign plus negative nonNegative ++ digits.write options) =
      some (signed negative (Nat.ofDigitChars 10 (digits.whole ++ digits.fraction) 0 /
        10 ^ digits.fraction.length)) := by
  obtain ⟨whole, fraction⟩ := digits
  dsimp only at hn hw hf ⊢
  have hpoint : options.decimalPoint.isDigit = false := by
    simp only [isMark, Bool.not_eq_true', Bool.or_eq_false_iff] at hp
    exact hp.1.1
  have htake : (whole ++ options.decimalPoint :: fraction).takeWhile Char.isDigit = whole := by
    rw [List.takeWhile_append_of_pos hw, List.takeWhile_cons_of_neg (by simp [hpoint]),
      List.append_nil]
  have hdrop : (whole ++ options.decimalPoint :: fraction).dropWhile Char.isDigit =
      options.decimalPoint :: fraction := by
    rw [List.dropWhile_append_of_pos hw, List.dropWhile_cons_of_neg (by simp [hpoint])]
  obtain ⟨d, ds, rfl⟩ := List.exists_cons_of_ne_nil hn
  have hd : d.isDigit = true := hw d List.mem_cons_self
  cases fraction with
  | nil =>
    have ht : (d :: ds).takeWhile Char.isDigit = d :: ds := List.takeWhile_eq_self_iff.mpr hw
    have hr : (d :: ds).dropWhile Char.isDigit = [] := List.dropWhile_eq_nil_iff.mpr hw
    simp [read?, Digits.write, hs, takeSign_sign plus negative nonNegative hd, ht, hr]
  | cons c r =>
    have hall : (c :: r).all Char.isDigit = true := List.all_eq_true.mpr hf
    have hsign := takeSign_sign plus negative nonNegative hd (ds ++ options.decimalPoint :: c :: r)
    rw [← List.cons_append] at hsign
    simp only [read?, Digits.write, hs, List.isEmpty_cons, Bool.false_eq_true, if_false, hsign,
      htake, hdrop, hall, ne_eq, reduceCtorEq, not_false_eq_true, and_self, if_true]

end Numeral

open Numeral

namespace Options

def Distinct (options : Options) : Prop :=
  isMark options.decimalPoint = true ∧
    ∀ separator ∈ options.thousandsSeparator,
      isMark separator = true ∧ separator ≠ options.decimalPoint

def ungroup (options : Options) (text : List Char) : List Char :=
  match options.thousandsSeparator with
  | some separator => text.filter (· != separator)
  | none => text

theorem ungroup_write {options : Options} (h : options.Distinct) (plus negative nonNegative : Bool)
    {digits : Digits} (hw : ∀ c ∈ digits.whole, c.isDigit = true)
    (hf : ∀ c ∈ digits.fraction, c.isDigit = true) :
    options.ungroup (sign plus negative nonNegative ++ digits.write options) =
      sign plus negative nonNegative ++ digits.write options.withoutGrouping := by
  cases hs : options.thousandsSeparator with
  | none => simp [ungroup, hs, Digits.write, withoutGrouping]
  | some separator =>
    obtain ⟨hmark, hpoint⟩ := h.2 separator hs
    simp only [isMark, Bool.not_eq_true', Bool.or_eq_false_iff, beq_eq_false_iff_ne] at hmark
    obtain ⟨⟨hdigit, hplus⟩, hminus⟩ := hmark
    have hnot : ∀ {text : List Char}, (∀ c ∈ text, c.isDigit = true) → separator ∉ text := by
      intro text ht hm
      rw [ht separator hm] at hdigit
      cases hdigit
    have hsign : (sign plus negative nonNegative).filter (· != separator) =
        sign plus negative nonNegative := by
      unfold sign
      split
      · simp [Ne.symm hminus]
      · split <;> simp [Ne.symm hplus]
    have hwhole := filter_grouped (hnot hw)
    have hfraction : digits.fraction.filter (· != separator) = digits.fraction := by
      apply List.filter_eq_self.mpr
      intro c hc
      exact bne_iff_ne.mpr fun he => hnot hf (he ▸ hc)
    rw [ungroup, hs]
    show List.filter _ _ = _
    rw [List.filter_append, hsign]
    congr 1
    simp only [Digits.write, hs, withoutGrouping]
    split
    · exact hwhole
    · rw [List.filter_append, hwhole, List.filter_cons, if_pos (bne_iff_ne.mpr hpoint.symm),
        hfraction]

end Options

namespace Number

theorem sign_integer (plus : Bool) (i : Int) :
    sign plus (i < 0) (0 ≤ i) = if i < 0 then ['-'] else if plus then ['+'] else [] := by
  by_cases h : i < 0
  · simp [sign, h]
  · simp [sign, h, Int.not_lt.mp h]

theorem signed_natAbs (i : Int) : signed (decide (i < 0)) (i.natAbs : ℚ) = i := by
  by_cases h : i < 0
  · have he : i = -(i.natAbs : ℤ) := by omega
    rw [signed, if_pos (decide_eq_true h), ← Int.cast_natCast, ← Int.cast_neg, ← he]
  · have he : (i.natAbs : ℤ) = i := by omega
    rw [signed, if_neg (by simpa using h), ← Int.cast_natCast, he]

def integerDigits (i : Int) (places : Nat) : Digits :=
  ⟨Nat.toDigits 10 i.natAbs, List.replicate places '0'⟩

theorem isDigit_integerDigits (i : Int) (places : Nat) :
    ∀ c ∈ (integerDigits i places).fraction, c.isDigit = true := by
  intro c hc
  rw [List.eq_of_mem_replicate hc]
  rfl

theorem write_eq_integerDigits (i : Int64) (plus : Bool) (places : Nat) (options : Options) :
    (integer i).write plus places none options =
      sign plus (i.toInt < 0) (0 ≤ i.toInt) ++
        (integerDigits i.toInt (min places maxPlaces)).write options := by
  rw [integerDigits, ← ofNat_mul_pow]
  rfl

/-- Without separators the numeral is read as the integer. -/
theorem read?_integerDigits (options : Options) (hs : options.thousandsSeparator = none)
    (hp : isMark options.decimalPoint = true) (plus : Bool) (i : Int) (places : Nat) :
    read? options.decimalPoint
        (sign plus (i < 0) (0 ≤ i) ++ (integerDigits i places).write options) = some (i : ℚ) := by
  have hcanonical := canonical_toDigits i.natAbs
  have hvalue : Nat.ofDigitChars 10
      ((integerDigits i places).whole ++ (integerDigits i places).fraction) 0 =
        10 ^ places * i.natAbs := by
    rw [integerDigits, Nat.ofDigitChars_append, hcanonical.value, Nat.ofDigitChars_replicate_zero]
  have hpow : (10 : ℚ) ^ places ≠ 0 := by positivity
  have hlength : (integerDigits i places).fraction.length = places := List.length_replicate
  rw [read?_write options hs hp plus _ _ hcanonical.ne_nil hcanonical.isDigit
      (isDigit_integerDigits i places), hvalue, hlength, Nat.cast_mul, Nat.cast_pow,
    Nat.cast_ofNat, mul_div_cancel_left₀ _ hpow, signed_natAbs]

end Number

/-- A decimal numeral of an integer is its sign and its canonical digits, grouped in threes from
the right, and zeros behind the point. If its marks are told apart it can be read back, and the
separators taken out of it leave the numeral that is not grouped. -/
theorem write_integer (i : Int64) (plus : Bool) (places : Nat) (options : Options) :
    let numeral := (Number.integer i).write plus places none options
    (∃ digits, Canonical digits i.toInt.natAbs ∧
      numeral =
        (if i.toInt < 0 then ['-'] else if plus then ['+'] else []) ++
          (match options.thousandsSeparator with
            | some separator => separated separator digits
            | none => digits) ++
          (if places = 0 then []
            else options.decimalPoint :: List.replicate (min places 500) '0')) ∧
      (options.Distinct →
        options.ungroup numeral =
            (Number.integer i).write plus places none options.withoutGrouping ∧
          read? options.decimalPoint (options.ungroup numeral) = some (i.toInt : ℚ)) := by
  intro numeral
  obtain ⟨digits, hdigits⟩ : ∃ digits : Digits,
      digits = Number.integerDigits i.toInt (min places Number.maxPlaces) := ⟨_, rfl⟩
  have hnumeral : ∀ marks, (Number.integer i).write plus places none marks =
      sign plus (i.toInt < 0) (0 ≤ i.toInt) ++ digits.write marks := by
    intro marks
    rw [hdigits]
    exact Number.write_eq_integerDigits i plus places marks
  have hcanonical : Canonical digits.whole i.toInt.natAbs := by
    rw [hdigits]
    exact canonical_toDigits _
  constructor
  · refine ⟨digits.whole, hcanonical, ?_⟩
    show (Number.integer i).write plus places none options = _
    rw [hnumeral, Number.sign_integer, List.append_assoc]
    congr 1
    cases hs : options.thousandsSeparator <;> by_cases hz : places = 0 <;>
      simp [Digits.write, hs, hz, hdigits, Number.integerDigits, grouped_eq_separated,
        Number.maxPlaces]
  · intro hd
    have hf : ∀ c ∈ digits.fraction, c.isDigit = true := by
      rw [hdigits]
      exact Number.isDigit_integerDigits _ _
    have hu : options.ungroup numeral =
        (Number.integer i).write plus places none options.withoutGrouping := by
      rw [hnumeral, ← options.ungroup_write hd plus _ _ hcanonical.isDigit hf, ← hnumeral]
    refine ⟨hu, ?_⟩
    rw [hu, hnumeral, hdigits]
    exact Number.read?_integerDigits options.withoutGrouping rfl hd.1 plus _ _

/-- The least integer, whose magnitude is no 64-bit integer itself. -/
theorem write_integer_least :
    let numeral := (Number.integer Int64.minValue).write true 2 none .standard
    numeral = "-9,223,372,036,854,775,808.00".toList ∧ Options.standard.Distinct ∧
      Options.standard.ungroup numeral = "-9223372036854775808.00".toList ∧
      read? '.' (Options.standard.ungroup numeral) = some (-9223372036854775808) := by
  intro numeral
  have hn : numeral = "-9,223,372,036,854,775,808.00".toList := by decide +kernel
  have hd : Options.standard.Distinct := by
    refine ⟨by decide, ?_⟩
    intro separator hs
    cases hs
    decide
  obtain ⟨-, hu⟩ := write_integer Int64.minValue true 2 .standard
  have hm : Int64.minValue.toInt = -9223372036854775808 := by decide
  obtain ⟨hplain, hread⟩ := hu hd
  rw [hm] at hread
  exact ⟨hn, hd, hplain.trans (by decide +kernel), by exact_mod_cast hread⟩

end MessagePattern
