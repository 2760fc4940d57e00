/-!
# Unsigned numbers in decimal digits

A run of digits is read as a 64-bit number, unless it denotes a larger one. A
number has one canonical numeral, which is the one written: it has no zero in
front of other digits.
-/

set_option autoImplicit false

namespace MessagePattern

def readDigits (digits : List Char) : Option UInt64 :=
  if Nat.ofDigitChars 10 digits 0 < UInt64.size then
    some (.ofNat (Nat.ofDigitChars 10 digits 0))
  else none

def writeDigits (n : UInt64) : List Char := Nat.toDigits 10 n.toNat

theorem readDigits_writeDigits (n : UInt64) : readDigits (writeDigits n) = some n := by
  have h : n.toNat < UInt64.size := n.toNat_lt
  rw [readDigits, writeDigits, Nat.ofDigitChars_ten_toDigits, if_pos h, UInt64.ofNat_toNat]

theorem readDigits_eq_some_iff (digits : List Char) (n : UInt64) :
    readDigits digits = some n ↔ Nat.ofDigitChars 10 digits 0 = n.toNat := by
  unfold readDigits
  constructor
  · intro h
    split at h
    · rename_i hlt
      cases h
      exact (UInt64.toNat_ofNat_of_lt' hlt).symm
    · cases h
  · intro h
    rw [h, if_pos n.toNat_lt, UInt64.ofNat_toNat]

theorem isDigit_of_mem_writeDigits {n : UInt64} {c : Char} (h : c ∈ writeDigits n) :
    c.isDigit = true :=
  Nat.isDigit_of_mem_toDigits (by decide) (by decide) h

theorem writeDigits_ne_nil (n : UInt64) : writeDigits n ≠ [] := Nat.toDigits_ne_nil

theorem digitChar_of_isDigit {c : Char} (h : c.isDigit = true) :
    Nat.digitChar (c.toNat - '0'.toNat) = c := by
  obtain ⟨h0, h9⟩ := Char.isDigit_iff_toNat.mp h
  have hz : '0'.toNat = 48 := rfl
  have hn : '9'.toNat = 57 := rfl
  apply Char.toNat_inj.mp
  rw [Nat.toNat_digitChar_of_lt_ten (by omega)]
  omega

/-- Digits read behind a positive number are appended to its numeral. -/
theorem toDigits_ofDigitChars {digits : List Char} (h : ∀ c ∈ digits, c.isDigit = true)
    {n : Nat} (hn : 0 < n) :
    Nat.toDigits 10 (Nat.ofDigitChars 10 digits n) = Nat.toDigits 10 n ++ digits := by
  induction digits generalizing n with
  | nil => simp
  | cons c r ih =>
    have hc := h c List.mem_cons_self
    obtain ⟨_, h9⟩ := Char.isDigit_iff_toNat.mp hc
    have hlt : c.toNat - '0'.toNat < 10 := by
      have : '9'.toNat = 57 := rfl
      have : '0'.toNat = 48 := rfl
      omega
    rw [Nat.ofDigitChars_cons, ih (fun d hd => h d (List.mem_cons_of_mem _ hd)) (by omega),
      ← Nat.toDigits_append_toDigits (by decide) hn hlt, Nat.toDigits_of_lt_base hlt,
      digitChar_of_isDigit hc]
    simp

/-- A numeral without a leading zero is the one that is written for its number. -/
theorem toDigits_ofDigitChars_cons {c : Char} {r : List Char} (hc : c.isDigit = true)
    (h0 : c ≠ '0') (h : ∀ d ∈ r, d.isDigit = true) :
    Nat.toDigits 10 (Nat.ofDigitChars 10 (c :: r) 0) = c :: r := by
  obtain ⟨hlo, hhi⟩ := Char.isDigit_iff_toNat.mp hc
  have hz : '0'.toNat = 48 := rfl
  have hn : '9'.toNat = 57 := rfl
  have hne : c.toNat ≠ '0'.toNat := fun he => h0 (Char.toNat_inj.mp he)
  rw [Nat.ofDigitChars_cons, toDigits_ofDigitChars h (by omega),
    Nat.toDigits_of_lt_base (by omega), Nat.mul_zero, Nat.zero_add, digitChar_of_isDigit hc]
  rfl

theorem writeDigits_of_readDigits {c : Char} {r : List Char} {n : UInt64}
    (hc : c.isDigit = true) (h0 : c ≠ '0') (h : ∀ d ∈ r, d.isDigit = true)
    (hn : readDigits (c :: r) = some n) : writeDigits n = c :: r := by
  rw [writeDigits, ← (readDigits_eq_some_iff _ n).mp hn]
  exact toDigits_ofDigitChars_cons hc h0 h

end MessagePattern
