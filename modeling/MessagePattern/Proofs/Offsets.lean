import MessagePattern.Proofs.SectionSpans
import MessagePattern.Proofs.Splicing

/-!
# Offsets

A scan counts its way through the bytes of a text. It may ask for a byte that
is not there, cut a slice that is out of order or ends inside a character, and
count on past the 64-bit range; each of these is a fault. An offset between two
characters is known by the text that stands behind it.
-/

set_option autoImplicit false

namespace MessagePattern.Offsets

/-- What may go wrong. A loop is stuck if it is about to go on where it has already been, or
outside of the text. -/
inductive Fault where
  | index
  | slice
  | range
  | stuck
  deriving DecidableEq

abbrev Checked := Except Fault

abbrev bytesOf (text : String) : List UInt8 := utf8 text.toList

def byteAt (bytes : List UInt8) (i : Nat) : Checked UInt8 :=
  match bytes[i]? with
  | some b => .ok b
  | none => .error .index

def peek (bytes : List UInt8) (i : Nat) : Option Char := bytes[i]?.map Char.ofUInt8

def within (n : Nat) : Checked Unit := if n < UInt64.size then .ok () else .error .range

def predecessor : Nat → Checked Nat
  | 0 => .error .range
  | n + 1 => .ok n

def cut (text : String) (start stop : Nat) : Checked String :=
  if start ≤ stop ∧ String.Pos.Raw.IsValid text ⟨start⟩ ∧ String.Pos.Raw.IsValid text ⟨stop⟩ then
    .ok (slice text start stop)
  else .error .slice

/-- No text in memory takes up more than half of the 64-bit range. -/
def Fits (text : String) : Prop := text.utf8ByteSize < 1 <<< 63

theorem ok_bind {α β : Type} (a : α) (f : α → Checked β) : (Except.ok a >>= f) = f a := rfl

theorem byteAt_eq_ok {bytes : List UInt8} {i : Nat} {b : UInt8} (h : bytes[i]? = some b) :
    byteAt bytes i = .ok b := by
  rw [byteAt, h]

theorem lt_of_peek {bytes : List UInt8} {i : Nat} {c : Char} (h : peek bytes i = some c) :
    i < bytes.length := by
  obtain ⟨b, hb, -⟩ := Option.map_eq_some_iff.mp h
  exact (List.getElem?_eq_some_iff.mp hb).1

theorem within_of_lt {n : Nat} (h : n < UInt64.size) : within n = .ok () := if_pos h

/-- A little past its end, a text is still in the 64-bit range. -/
theorem Fits.lt_size {text : String} (hs : Fits text) {n : Nat} (h : n ≤ text.utf8ByteSize + 2) :
    n < UInt64.size := by
  have h63 : (1 : Nat) <<< 63 = 9223372036854775808 := rfl
  have h64 : UInt64.size = 18446744073709551616 := rfl
  unfold Fits at hs
  omega

theorem within_of_fits {text : String} (hs : Fits text) {n : Nat} (h : n ≤ text.utf8ByteSize + 2) :
    within n = .ok () :=
  within_of_lt (hs.lt_size h)

theorem utf8ByteSize_eq (text : String) : text.utf8ByteSize = byteSize text.toList := by
  rw [← utf8ByteSize_ofList, String.ofList_toList]

theorem length_bytesOf (text : String) : (bytesOf text).length = text.utf8ByteSize := by
  rw [length_utf8, utf8ByteSize_eq]

/-- A number of bytes into the text stands another one. -/
def At (text : String) (i : Nat) (rest : List Char) : Prop :=
  ∃ before, text.toList = before ++ rest ∧ byteSize before = i

namespace At

variable {text : String} {i : Nat} {s rest : List Char}

theorem end_eq (h : At text i rest) : i + byteSize rest = text.utf8ByteSize := by
  obtain ⟨before, ht, rfl⟩ := h
  rw [utf8ByteSize_eq, ht, byteSize_append]

theorem within_ok (hs : Fits text) (h : At text i rest) {n : Nat} (hn : n ≤ 2) :
    within (i + n) = .ok () := by
  have he := h.end_eq
  exact within_of_fits hs (by omega)

theorem drop (h : At text i (s ++ rest)) : At text (i + byteSize s) rest := by
  obtain ⟨before, ht, rfl⟩ := h
  exact ⟨before ++ s, by rw [ht, List.append_assoc], byteSize_append before s⟩

theorem tail {c : Char} (h : At text i (c :: rest)) : At text (i + c.utf8Size) rest :=
  h.drop (s := [c])

theorem isValid (h : At text i rest) : String.Pos.Raw.IsValid text ⟨i⟩ := by
  obtain ⟨before, ht, rfl⟩ := h
  rw [String.Pos.Raw.isValid_iff_exists_append]
  refine ⟨String.ofList before, String.ofList rest, ?_, ?_⟩
  · rw [← String.ofList_append, ← ht, String.ofList_toList]
  · rw [String.Pos.Raw.ext_iff, String.byteIdx_rawEndPos, utf8ByteSize_ofList]

/-- A slice between two characters is the text that stands there. -/
theorem cut_eq (h : At text i (s ++ rest)) :
    cut text i (i + byteSize s) = .ok (String.ofList s) := by
  have hv := h.isValid
  have hw := h.drop.isValid
  obtain ⟨before, ht, rfl⟩ := h
  rw [cut, if_pos ⟨Nat.le_add_right _ _, hv, hw⟩, ← byteSize_append]
  have hl := slice_append before s rest
  rw [List.append_assoc, ← ht, String.ofList_toList] at hl
  rw [hl]

theorem cut_rest (h : At text i rest) :
    cut text i text.utf8ByteSize = .ok (String.ofList rest) := by
  have hr : At text i (rest ++ []) := by rwa [List.append_nil]
  rw [← h.end_eq]
  exact hr.cut_eq

/-- The text behind an offset is a matter of the offset. -/
theorem unique {j : Nat} {r : List Char} (h : At text i (s ++ r)) (hr : At text j r) :
    j = i + byteSize s := by
  have hi := h.end_eq
  have hj := hr.end_eq
  rw [byteSize_append] at hi
  omega

end At

namespace At

variable {α : Type} {text : String} {i : Nat} {c d : Char} {r rest : List Char}

/-- Behind an offset stand the bytes of the first character. -/
theorem byte (h : At text i (c :: r)) {k : Nat} (hk : k < c.utf8Size) :
    ∃ b, (bytesOf text)[i + k]? = some b ∧ Char.ofUInt8 b ∈ spread [c] := by
  obtain ⟨before, ht, rfl⟩ := h
  have hl : (spread [c]).length = c.utf8Size := length_spread [c]
  have hget : (bytesOf text)[byteSize before + k]? = (utf8 [c])[k]? := by
    show (utf8 text.toList)[_]? = _
    rw [ht, show before ++ c :: r = before ++ ([c] ++ r) from rfl, utf8_append, utf8_append,
      List.getElem?_append_right (by rw [length_utf8]; omega), length_utf8,
      Nat.add_sub_cancel_left, List.getElem?_append_left (by rw [length_utf8]; exact hk)]
  have hlt : k < (utf8 [c]).length := by rwa [length_utf8]
  refine ⟨(utf8 [c])[k], ?_, ?_⟩
  · rw [hget, List.getElem?_eq_getElem hlt]
  · exact List.mem_map_of_mem (List.getElem_mem hlt)

theorem peek_nil (h : At text i []) : peek (bytesOf text) i = none := by
  have hl := h.end_eq
  rw [byteSize, Nat.add_zero, ← length_bytesOf] at hl
  rw [peek, List.getElem?_eq_none (Nat.le_of_eq hl.symm), Option.map_none]

/-- The first byte says about the first character which ASCII character it is, if any. -/
theorem peek_map {f : Char → α} {a : α} (hf : ∀ c, 0x80 ≤ c.toNat → f c = a)
    (h : At text i rest) : (peek (bytesOf text) i).map f = rest.head?.map f := by
  cases rest with
  | nil => rw [h.peek_nil, List.head?_nil]
  | cons d r =>
    obtain ⟨b, hb, hm⟩ := h.byte d.utf8Size_pos
    rw [Nat.add_zero] at hb
    rw [peek, hb, Option.map_some, Option.map_some, List.head?_cons, Option.map_some,
      eq_of_mem_spread hf hm]

theorem peek_any {f : Char → Bool} (hf : ∀ c, 0x80 ≤ c.toNat → f c = false)
    (h : At text i rest) : (peek (bytesOf text) i).any f = rest.head?.any f := by
  have he : ∀ x : Option Char, x.any f = (x.map f).getD false := by
    intro x
    cases x <;> rfl
  rw [he, he, h.peek_map hf]

theorem peek_bind {f : Char → Option α} (hf : ∀ c, 0x80 ≤ c.toNat → f c = none)
    (h : At text i rest) : (peek (bytesOf text) i).bind f = rest.head?.bind f := by
  have he : ∀ x : Option Char, x.bind f = (x.map f).join := by
    intro x
    cases x <;> rfl
  rw [he, he, h.peek_map hf]

theorem peek_eq_some (h : At text i rest) (hc : c.toNat < 0x80) :
    peek (bytesOf text) i = some c ↔ rest.head? = some c := by
  have hm := h.peek_map fun d hd => beq_ascii hc hd
  have he : ∀ x : Option Char, x = some c ↔ x.map (· == c) = some true := by
    intro x
    cases x <;> simp
  rw [he, he, hm]

/-- A scan that takes no notice of the bytes of a character passes it. -/
theorem pass (h : At text i (c :: r)) (f : Nat → α)
    (hf : ∀ k d, peek (bytesOf text) k = some d → d ∈ spread [c] → f k = f (k + 1)) :
    f i = f (i + c.utf8Size) := by
  have hn : ∀ n, n ≤ c.utf8Size → f i = f (i + n) := by
    intro n
    induction n with
    | zero => exact fun _ => rfl
    | succ n ih =>
      intro hle
      obtain ⟨b, hb, hm⟩ := h.byte (k := n) (by omega)
      rw [ih (by omega), hf _ _ (by rw [peek, hb, Option.map_some]) hm, Nat.add_assoc]
  exact hn _ (Nat.le_refl _)

end At

theorem at_of_peek {text : String} {i : Nat} {c : Char} (hc : c.toNat < 0x80)
    (h : peek (bytesOf text) i = some c) : ∃ before r, text.toList = before ++ c :: r ∧
      byteSize before = i := by
  obtain ⟨b, hb, he⟩ := Option.map_eq_some_iff.mp h
  rw [(ofUInt8_iff hc b).mp he] at hb
  exact exists_split hc hb

def find (c : Char) : List Char → Option Nat
  | [] => none
  | d :: r => if d = c then some 0 else (find c r).map (d.utf8Size + ·)

theorem find_eq_none {c : Char} {text : List Char} (h : find c text = none) : c ∉ text := by
  induction text with
  | nil => exact List.not_mem_nil
  | cons d r ih =>
    by_cases hd : d = c
    · rw [find, if_pos hd] at h
      cases h
    · rw [find, if_neg hd, Option.map_eq_none_iff] at h
      rw [List.mem_cons, not_or]
      exact ⟨Ne.symm hd, ih h⟩

theorem find_eq_some {c : Char} {text : List Char} {n : Nat} (h : find c text = some n) :
    ∃ s r, text = s ++ c :: r ∧ c ∉ s ∧ n = byteSize s := by
  induction text generalizing n with
  | nil => cases h
  | cons d r ih =>
    by_cases hd : d = c
    · rw [find, if_pos hd] at h
      cases h
      exact ⟨[], r, by rw [hd]; rfl, List.not_mem_nil, rfl⟩
    · rw [find, if_neg hd, Option.map_eq_some_iff] at h
      obtain ⟨m, hm, rfl⟩ := h
      obtain ⟨s, t, rfl, hs, rfl⟩ := ih hm
      exact ⟨d :: s, t, rfl, by simp [Ne.symm hd, hs], rfl⟩

def skipWhile (test : Char → Bool) (bytes : List UInt8) (i : Nat) : Checked Nat :=
  if _h : i < bytes.length then do
    let b ← byteAt bytes i
    if test (Char.ofUInt8 b) then
      within (i + 1)
      skipWhile test bytes (i + 1)
    else return i
  else return i
termination_by bytes.length - i

/-- A run of ASCII characters ends between two characters. -/
theorem skipWhile_at {test : Char → Bool} (htest : ∀ c, 0x80 ≤ c.toNat → test c = false)
    {text : String} (hs : Fits text) {i : Nat} {rest : List Char} (h : At text i rest) :
    skipWhile test (bytesOf text) i = .ok (i + byteSize (rest.takeWhile test)) := by
  have hl := length_bytesOf text
  induction rest generalizing i with
  | nil =>
    have he := h.end_eq
    rw [byteSize] at he
    rw [skipWhile, dif_neg (by omega)]
    rfl
  | cons c r ih =>
    obtain ⟨b, hb, hm⟩ := h.byte c.utf8Size_pos
    rw [Nat.add_zero] at hb
    have hlt := (List.getElem?_eq_some_iff.mp hb).1
    rw [skipWhile, dif_pos hlt, byteAt_eq_ok hb, ok_bind, eq_of_mem_spread htest hm,
      List.takeWhile_cons]
    by_cases hc : test c = true
    · have hascii : c.toNat < 0x80 := by
        refine Nat.lt_of_not_le fun hle => ?_
        rw [htest c hle] at hc
        cases hc
      have h1 := utf8Size_of_ascii hascii
      have hr : At text (i + 1) r := h1 ▸ h.tail
      rw [if_pos hc, if_pos hc, within_of_fits hs (by omega), ok_bind, ih hr, byteSize, h1,
        Nat.add_assoc]
    · rw [if_neg hc, if_neg hc]
      rfl

end MessagePattern.Offsets
