import MessagePattern.Section

/-!
# Steps of the section scan

What the scan for a closing bracket does with the next character, or with the
next two. A doubled bracket and any other character fill the level that is
open; runs of such characters are read in one step.
-/

set_option autoImplicit false

namespace MessagePattern

def inFront {α β : Type} (text : List α) (found : List α × β) : List α × β :=
  (text ++ found.1, found.2)

def isBracket (c : Char) : Bool := c == '[' || c == ']'

theorem isBracket_eq_false {c : Char} : isBracket c = false ↔ c ≠ '[' ∧ c ≠ ']' := by
  simp [isBracket]

theorem map_inFront_append {α β : Type} (s t : List α) (found : Option (List α × β)) :
    (found.map (inFront t)).map (inFront s) = found.map (inFront (s ++ t)) := by
  cases found with
  | none => rfl
  | some f => simp [inFront]

theorem head_ne {c : Char} {r : List Char} (h : ∀ s, r = c :: s → False) : r.head? ≠ some c := by
  intro he
  obtain ⟨s, hs⟩ := List.head?_eq_some_iff.mp he
  exact h s hs

theorem ne_cons {c : Char} {r : List Char} (h : r.head? ≠ some c) (s : List Char)
    (hs : r = c :: s) : False :=
  h (List.head?_eq_some_iff.mpr ⟨s, hs⟩)

theorem closeSection_doubled (depth : Nat) (filled : Bool) {c : Char} (hc : isBracket c = true)
    (r : List Char) :
    closeSection depth filled (c :: c :: r) =
      (closeSection depth true r).map (inFront [c, c]) := by
  have h : c = '[' ∨ c = ']' := by simpa [isBracket] using hc
  rcases h with rfl | rfl
  · rw [closeSection]
    rfl
  · rw [closeSection]
    rfl

theorem closeSection_char (depth : Nat) (filled : Bool) {c : Char} (hc : isBracket c = false)
    (r : List Char) :
    closeSection depth filled (c :: r) = (closeSection depth true r).map (inFront [c]) := by
  obtain ⟨ho, hl⟩ := isBracket_eq_false.mp hc
  rw [closeSection]
  · rfl
  · intro s he _
    exact ho he
  · intro s he _
    exact hl he
  · exact ho
  · exact hl

theorem closeSection_opening (depth : Nat) (filled : Bool) {r : List Char}
    (hr : r.head? ≠ some '[') :
    closeSection depth filled ('[' :: r) =
      (closeSection (depth + 1) false r).map (inFront ['[']) := by
  rw [closeSection]
  · rfl
  · exact ne_cons hr

theorem closeSection_closing (depth : Nat) {r : List Char} (hr : r.head? ≠ some ']') :
    closeSection (depth + 1) true (']' :: r) =
      (closeSection depth true r).map (inFront [']']) := by
  rw [closeSection]
  · rfl
  · exact ne_cons hr

theorem closeSection_end {r : List Char} (hr : r.head? ≠ some ']') :
    closeSection 0 true (']' :: r) = some ([], r) := by
  rw [closeSection]
  · rfl
  · exact ne_cons hr

theorem closeSection_hollow (depth : Nat) {r : List Char} (hr : r.head? ≠ some ']') :
    closeSection depth false (']' :: r) = none := by
  cases depth with
  | zero =>
    rw [closeSection]
    · rfl
    · exact ne_cons hr
  | succ depth =>
    rw [closeSection]
    · rfl
    · exact ne_cons hr

/-- A run without brackets is read in one step. -/
theorem closeSection_plain (depth : Nat) (filled : Bool) {text : List Char}
    (ht : ∀ c ∈ text, isBracket c = false) (r : List Char) :
    closeSection depth filled (text ++ r) =
      (closeSection depth (filled || !text.isEmpty) r).map (inFront text) := by
  induction text generalizing filled with
  | nil =>
    have hid : inFront (β := List Char) ([] : List Char) = id := rfl
    simp [hid]
  | cons c text ih =>
    have hc := ht c List.mem_cons_self
    rw [List.cons_append, closeSection_char depth filled hc,
      ih true (fun d hd => ht d (List.mem_cons_of_mem c hd)), map_inFront_append]
    simp

theorem openSection_doubled (afterBracket : Bool) (r : List Char) :
    openSection afterBracket ('[' :: '[' :: r) = none := rfl

theorem openSection_bracket (afterBracket : Bool) {r : List Char} (hr : r.head? ≠ some '[') :
    openSection afterBracket ('[' :: r) =
      if afterBracket then none else closeSection 0 false r := by
  rw [openSection]
  exact ne_cons hr

theorem openSection_none (afterBracket : Bool) {text : List Char} (h : text.head? ≠ some '[') :
    openSection afterBracket text = none := by
  unfold openSection
  split
  · rfl
  · exact absurd rfl h
  · rfl

/-- Behind an opening bracket no section opens. -/
theorem openSection_true (text : List Char) : openSection true text = none := by
  unfold openSection
  split <;> rfl

end MessagePattern
