import Mathlib.Data.Set.Function
import MessagePattern.Proofs.DecimalNumerals

/-!
# Canonical keys

A text is read as one key and written for that key again. The keys that texts are
read as are the positions, and the names that are not the numeral of a position.
-/

set_option autoImplicit false

namespace MessagePattern

open Numeral

namespace Key

def IsCanonical : Key → Prop
  | .index _ => True
  | .name text => ∀ n : UInt64, ¬ Canonical text.toList n.toNat

theorem position?_eq_some_iff (digits : List Char) (n : UInt64) :
    position? digits = some n ↔ Canonical digits n.toNat := by
  constructor
  · intro h
    unfold position? at h
    split at h
    · rename_i hd
      obtain ⟨hne, hall, hlead⟩ := hd
      exact ⟨hne, List.all_eq_true.mp hall, hlead, (readDigits_eq_some_iff digits n).mp h⟩
    · cases h
  · intro h
    rw [position?, if_pos ⟨h.ne_nil, List.all_eq_true.mpr h.isDigit, h.lead⟩]
    exact (readDigits_eq_some_iff digits n).mpr h.value

theorem parse_eq_index_iff (text : String) (n : UInt64) :
    parse text = .index n ↔ Canonical text.toList n.toNat := by
  rw [← position?_eq_some_iff, parse]
  cases position? text.toList <;> simp

theorem parse_eq_name_iff (text s : String) :
    parse text = .name s ↔ s = text ∧ (name text).IsCanonical := by
  simp only [IsCanonical, ← position?_eq_some_iff, parse]
  cases position? text.toList with
  | none => simp [eq_comm]
  | some n => simp

theorem isCanonical_parse (text : String) : (parse text).IsCanonical := by
  cases h : parse text with
  | index n => trivial
  | name s =>
    obtain ⟨rfl, hc⟩ := (parse_eq_name_iff text s).mp h
    exact hc

theorem display_parse (text : String) : (parse text).display = text := by
  rw [display, write_parse, String.ofList_toList]

theorem parse_display_iff (key : Key) : parse key.display = key ↔ key.IsCanonical := by
  constructor
  · intro h
    rw [← h]
    exact isCanonical_parse _
  · intro h
    cases key with
    | index n => exact parse_writeDigits n
    | name text =>
      have ht : (name text).display = text := String.ofList_toList
      rw [ht]
      exact (parse_eq_name_iff text text).mpr ⟨rfl, h⟩

theorem bijOn_parse : Set.BijOn parse Set.univ {key | key.IsCanonical} := by
  refine ⟨?_, ?_, ?_⟩
  · intro text _
    exact isCanonical_parse text
  · intro s _ t _ h
    exact parse_injective h
  · intro key h
    exact ⟨key.display, trivial, (parse_display_iff key).mpr h⟩

theorem ofNat_eq_parse {n : Nat} (h : n < UInt64.size) : ofNat n = parse (toString n) :=
  ofInt_eq_parse (i := n) (Int.ofNat_lt.mpr h)

/-- A text is a position if it is the numeral of a 64-bit number, without a zero in front of
others, and a name otherwise. No two texts are one key, each text is what is written for its key,
and the keys that are read again as they were are the positions and the names that are no such
numeral. An integer is the key that its numeral is. -/
theorem parse_canonical :
    (∀ (text : String) (n : UInt64), parse text = .index n ↔ Canonical text.toList n.toNat) ∧
      (∀ text s : String, parse text = .name s ↔
        s = text ∧ ∀ n : UInt64, ¬ Canonical text.toList n.toNat) ∧
      (∀ text, (parse text).display = text) ∧
      Function.Injective parse ∧
      (∀ key : Key, parse key.display = key ↔ key.IsCanonical) ∧
      Set.BijOn parse Set.univ {key | key.IsCanonical} ∧
      (∀ n : UInt64, ofNat n.toNat = parse (toString n)) ∧
      (∀ n : UInt32, ofNat n.toNat = parse (toString n)) ∧
      ∀ i : Int32, ofInt i.toInt = parse (toString i) := by
  refine ⟨parse_eq_index_iff, parse_eq_name_iff, display_parse, fun _ _ => parse_injective,
    parse_display_iff, bijOn_parse, ?_, ?_, ?_⟩
  · intro n
    exact ofNat_eq_parse n.toNat_lt
  · intro n
    exact ofNat_eq_parse (n.toNat_lt.trans (by decide))
  · intro i
    exact ofInt_eq_parse (i.toInt_lt.trans (by decide))

-- The last position, the number behind it, and numerals that are not canonical.
example :
    parse "18446744073709551615" = .index 18446744073709551615 ∧
      parse "18446744073709551616" = .name "18446744073709551616" ∧
      parse "007" = .name "007" ∧ parse "" = .name "" ∧ ofInt (-1) = .name "-1" := by
  decide +kernel

end Key

end MessagePattern
