import MessagePattern.Digits

/-!
# Keys

An argument is found by a position or by a name. A text names a position
exactly when it is the canonical decimal numeral of a 64-bit number; every
other text is a name. Positions come before names, and names are in the order
of their code points.
-/

set_option autoImplicit false

namespace MessagePattern

inductive Key where
  | index (position : UInt64)
  | name (text : String)
  deriving DecidableEq

namespace Key

def position? (digits : List Char) : Option UInt64 :=
  if digits ≠ [] ∧ digits.all Char.isDigit ∧ (digits.head? = some '0' → digits = ['0']) then
    readDigits digits
  else none

def parse (text : String) : Key :=
  match position? text.toList with
  | some n => .index n
  | none => .name text

def ofNat (n : Nat) : Key := .index (.ofNat n)

def ofInt (i : Int) : Key :=
  if 0 ≤ i then .ofNat i.toNat else .name (String.ofList ('-' :: Nat.toDigits 10 i.natAbs))

def index? : Key → Option UInt64
  | .index n => some n
  | .name _ => none

def write : Key → List Char
  | .index n => writeDigits n
  | .name text => text.toList

def display (key : Key) : String := String.ofList key.write

def le : Key → Key → Bool
  | .index m, .index n => m ≤ n
  | .index _, .name _ => true
  | .name _, .index _ => false
  | .name s, .name t => s ≤ t

def sort (keys : List Key) : List Key := (keys.mergeSort le).eraseReps

theorem writeDigits_of_position? {digits : List Char} {n : UInt64}
    (h : position? digits = some n) : writeDigits n = digits := by
  unfold position? at h
  split at h
  · rename_i hd
    obtain ⟨hne, hall, hz⟩ := hd
    cases digits with
    | nil => exact absurd rfl hne
    | cons c r =>
      rw [List.all_eq_true] at hall
      by_cases hc : c = '0'
      · subst hc
        rw [hz rfl] at h ⊢
        cases h
        rfl
      · exact writeDigits_of_readDigits (hall c List.mem_cons_self) hc
          (fun d hd => hall d (List.mem_cons_of_mem _ hd)) h
  · cases h

/-- No text is lost by reading it as a key. -/
theorem write_parse (text : String) : (parse text).write = text.toList := by
  unfold parse
  split
  · rename_i n h
    exact writeDigits_of_position? h
  · rfl

end Key

end MessagePattern
