import MessagePattern.Key

/-!
# Numerals and keys

The numeral written for a number is canonical, so that reading it as a key
gives the position again.
-/

set_option autoImplicit false

namespace MessagePattern

theorem head_toDigits {n : Nat} (hn : 0 < n) : (Nat.toDigits 10 n).head? ≠ some '0' := by
  induction n using Nat.strongRecOn with
  | ind n ih =>
    by_cases hlt : n < 10
    · rw [Nat.toDigits_of_lt_base hlt, List.head?_cons]
      intro h
      have hc := congrArg Char.toNat (Option.some.inj h)
      rw [Nat.toNat_digitChar_of_lt_ten hlt] at hc
      have hz : '0'.toNat = 48 := rfl
      omega
    · have hpos : 0 < n / 10 := by omega
      have hmod : n % 10 < 10 := Nat.mod_lt n (by decide)
      have happ := Nat.toDigits_append_toDigits (by decide) hpos hmod
      rw [Nat.div_add_mod] at happ
      obtain ⟨c, r, hc⟩ := List.exists_cons_of_ne_nil (Nat.toDigits_ne_nil (b := 10) (n := n / 10))
      have hi := ih (n / 10) (by omega) hpos
      rw [hc] at happ hi
      rw [← happ]
      exact hi

theorem head_writeDigits {n : UInt64} (hn : n ≠ 0) : (writeDigits n).head? ≠ some '0' := by
  apply head_toDigits
  have h0 : n.toNat ≠ 0 := fun h => hn (UInt64.toNat_inj.mp h)
  omega

namespace Key

theorem position_writeDigits (n : UInt64) : position? (writeDigits n) = some n := by
  have hd : (writeDigits n).all Char.isDigit = true := by
    rw [List.all_eq_true]
    intro c hc
    exact isDigit_of_mem_writeDigits hc
  have hz : (writeDigits n).head? = some '0' → writeDigits n = ['0'] := by
    intro h
    by_cases hn : n = 0
    · rw [hn]
      rfl
    · exact absurd h (head_writeDigits hn)
  rw [position?, if_pos ⟨writeDigits_ne_nil n, hd, hz⟩, readDigits_writeDigits]

theorem parse_writeDigits (n : UInt64) : parse (String.ofList (writeDigits n)) = .index n := by
  rw [parse, String.toList_ofList, position_writeDigits]

theorem toString_negSucc (n : Nat) :
    toString (Int.negSucc n) = String.ofList ('-' :: Nat.toDigits 10 (n + 1)) := by
  apply String.toList_injective
  show ("-" ++ String.ofList (Nat.toDigits 10 (n + 1))).toList = _
  simp

/-- The key of an integer is the one that its numeral names. -/
theorem ofInt_eq_parse {i : Int} (h : i < UInt64.size) : ofInt i = parse (toString i) := by
  cases i with
  | ofNat n =>
    have hn : n < UInt64.size := Int.ofNat_lt.mp h
    have hp := parse_writeDigits (.ofNat n)
    rw [writeDigits, UInt64.toNat_ofNat_of_lt' hn] at hp
    exact hp.symm
  | negSucc n =>
    have hd : position? ('-' :: Nat.toDigits 10 (n + 1)) = none := by
      simp [position?]
    rw [toString_negSucc, parse, String.toList_ofList, hd, ofInt, if_neg (by omega)]
    rfl

theorem parse_injective {s t : String} (h : parse s = parse t) : s = t := by
  apply String.toList_injective
  rw [← write_parse s, h, write_parse]

end Key

end MessagePattern
