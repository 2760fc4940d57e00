import MessagePattern.Placeholder.Pieces

/-!
# Texts

Positions in a text are counted in the bytes of its encoding. What a scan does
next may depend on the last character that it has passed.
-/

set_option autoImplicit false

namespace MessagePattern

/-- Whether the last character passed is `c`, given whether it was before the text. -/
def endsIn (c : Char) (flag : Bool) (text : List Char) : Bool :=
  text.foldl (fun _ d => d == c) flag

theorem endsIn_append (c : Char) (flag : Bool) (s t : List Char) :
    endsIn c flag (s ++ t) = endsIn c (endsIn c flag s) t :=
  List.foldl_append

theorem endsIn_concat (c : Char) (flag : Bool) (s : List Char) (d : Char) :
    endsIn c flag (s ++ [d]) = (d == c) := by
  rw [endsIn_append]
  rfl

theorem endsIn_false (c : Char) (text : List Char) :
    endsIn c false text = true ↔ text.getLast? = some c := by
  rcases List.eq_nil_or_concat text with rfl | ⟨s, d, rfl⟩
  · simp [endsIn]
  · rw [List.concat_eq_append, endsIn_concat, List.getLast?_concat]
    simp

theorem endsIn_not_mem {c : Char} {text : List Char} (h : c ∉ text) :
    endsIn c false text = false := by
  rw [← Bool.not_eq_true, endsIn_false]
  intro hl
  exact h (List.mem_of_getLast? hl)

theorem byteSize_append (s t : List Char) : byteSize (s ++ t) = byteSize s + byteSize t := by
  induction s with
  | nil => simp [byteSize]
  | cons c r ih => simp [byteSize, ih, Nat.add_assoc]

theorem byteSize_pos {s : List Char} (h : s ≠ []) : 0 < byteSize s := by
  cases s with
  | nil => exact absurd rfl h
  | cons c r =>
    have hc := c.utf8Size_pos
    simp only [byteSize]
    omega

theorem eq_nil_of_byteSize {s : List Char} (h : byteSize s = 0) : s = [] := by
  cases s with
  | nil => rfl
  | cons c r => exact absurd h (Nat.ne_of_gt (byteSize_pos (List.cons_ne_nil c r)))

theorem append_inj_of_byteSize {a b s t : List Char} (h : a ++ s = b ++ t)
    (hs : byteSize a = byteSize b) : a = b ∧ s = t := by
  rcases List.append_eq_append_iff.mp h with ⟨u, rfl, rfl⟩ | ⟨u, rfl, rfl⟩
  · rw [byteSize_append] at hs
    have hu := eq_nil_of_byteSize (s := u) (by omega)
    simp [hu]
  · rw [byteSize_append] at hs
    have hu := eq_nil_of_byteSize (s := u) (by omega)
    simp [hu]

theorem utf8ByteSize_ofList (s : List Char) : (String.ofList s).utf8ByteSize = byteSize s := by
  induction s with
  | nil => rfl
  | cons c r ih =>
    rw [String.ofList_cons, String.utf8ByteSize_append, String.utf8ByteSize_singleton, ih]
    rfl

def utf8 (text : List Char) : List UInt8 := text.flatMap String.utf8EncodeChar

def readBytes (bytes : List UInt8) : List Char := bytes.map Char.ofUInt8

def spread (text : List Char) : List Char := readBytes (utf8 text)

theorem utf8_append (s t : List Char) : utf8 (s ++ t) = utf8 s ++ utf8 t := by
  simp [utf8]

theorem spread_append (s t : List Char) : spread (s ++ t) = spread s ++ spread t := by
  simp [spread, readBytes, utf8_append]

theorem length_utf8 (text : List Char) : (utf8 text).length = byteSize text := by
  induction text with
  | nil => rfl
  | cons c r ih =>
    show (utf8 ([c] ++ r)).length = _
    rw [utf8_append, List.length_append, ih]
    simp [utf8, byteSize]

theorem length_spread (text : List Char) : (spread text).length = byteSize text := by
  rw [spread, readBytes, List.length_map, length_utf8]

theorem toNat_ofUInt8 (b : UInt8) : (Char.ofUInt8 b).toNat = b.toNat :=
  UInt8.toNat_toUInt32 b

theorem ofUInt8_iff {c : Char} (hc : c.toNat < 0x80) (b : UInt8) :
    Char.ofUInt8 b = c ↔ b = c.toUInt8 := by
  have hb : c.toUInt8.toNat = c.toNat := by
    show c.toNat % 256 = c.toNat
    exact Nat.mod_eq_of_lt (by omega)
  rw [← Char.toNat_inj, ← UInt8.toNat_inj, toNat_ofUInt8, hb]

theorem spread_ascii {c : Char} (hc : c.toNat < 0x80) : spread [c] = [c] := by
  have he : String.utf8EncodeChar c = [UInt8.ofNat c.toNat] := if_pos (Nat.le_of_lt_succ hc)
  have hb : Char.ofUInt8 (UInt8.ofNat c.toNat) = c := by
    apply Char.toNat_inj.mp
    rw [toNat_ofUInt8, UInt8.toNat_ofNat']
    exact Nat.mod_eq_of_lt (by omega)
  simp [spread, readBytes, utf8, he, hb]

/-- Outside ASCII every byte of a character has its highest bit set. -/
theorem toNat_of_mem_spread {c : Char} (hc : 0x80 ≤ c.toNat) {d : Char} (hd : d ∈ spread [c]) :
    0x80 ≤ d.toNat := by
  have hv : ¬ c.val.toNat ≤ 0x7f := Nat.not_le.mpr hc
  have hb : ∀ b ∈ String.utf8EncodeChar c, 0x80 ≤ b.toNat := by
    intro b hb
    unfold String.utf8EncodeChar at hb
    simp only [hv, if_false] at hb
    split at hb
    · simp only [List.mem_cons, List.not_mem_nil, or_false] at hb
      rcases hb with rfl | rfl <;> (rw [UInt8.toNat_ofNat']; omega)
    · split at hb
      · simp only [List.mem_cons, List.not_mem_nil, or_false] at hb
        rcases hb with rfl | rfl | rfl <;> (rw [UInt8.toNat_ofNat']; omega)
      · simp only [List.mem_cons, List.not_mem_nil, or_false] at hb
        rcases hb with rfl | rfl | rfl | rfl <;> (rw [UInt8.toNat_ofNat']; omega)
  obtain ⟨b, hm, rfl⟩ := List.mem_map.mp (by simpa [spread, readBytes, utf8] using hd)
  rw [toNat_ofUInt8]
  exact hb b hm

/-- The bytes of a character are the character itself or none of the ASCII characters. -/
theorem mem_spread {c d : Char} (hd : d ∈ spread [c]) : d = c ∨ 0x80 ≤ d.toNat := by
  by_cases hc : c.toNat < 0x80
  · rw [spread_ascii hc] at hd
    exact Or.inl (List.mem_singleton.mp hd)
  · exact Or.inr (toNat_of_mem_spread (Nat.le_of_not_lt hc) hd)

theorem beq_ascii {c d : Char} (hc : c.toNat < 0x80) (hd : 0x80 ≤ d.toNat) : (d == c) = false := by
  rw [beq_eq_false_iff_ne]
  rintro rfl
  omega

/-- What sees no difference between characters outside ASCII sees none between a character
and one of its bytes. -/
theorem eq_of_mem_spread {α : Type} {f : Char → α} {a : α} (hf : ∀ c, 0x80 ≤ c.toNat → f c = a)
    {c d : Char} (hd : d ∈ spread [c]) : f d = f c := by
  by_cases hc : c.toNat < 0x80
  · rw [spread_ascii hc] at hd
    rw [List.mem_singleton.mp hd]
  · have hle := Nat.le_of_not_lt hc
    rw [hf c hle, hf d (toNat_of_mem_spread hle hd)]

theorem utf8Size_of_ascii {c : Char} (hc : c.toNat < 0x80) : c.utf8Size = 1 := by
  have hl := length_spread [c]
  rw [spread_ascii hc] at hl
  simpa [byteSize] using hl.symm

theorem spread_ne_nil (c : Char) : spread [c] ≠ [] := by
  intro h
  have hl := length_spread [c]
  have hp := byteSize_pos (List.cons_ne_nil c [])
  rw [h, List.length_nil] at hl
  omega

end MessagePattern
