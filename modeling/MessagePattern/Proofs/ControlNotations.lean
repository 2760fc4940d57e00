import Mathlib.Data.Set.Function
import MessagePattern.Rendering

/-!
# Notations of control characters

A text in which control characters are made visible can be read back. The caret
stands for itself as well, and so do the pictures, so that a text that has one
of its own may look like another text; all others are told apart.
-/

set_option autoImplicit false

namespace MessagePattern

namespace ControlText

theorem toNat_ofNat {n : Nat} (h : n < 0xD800) : (Char.ofNat n).toNat = n := by
  have hv : n.isValidChar := .inl h
  rw [Char.ofNat, dif_pos hv]
  rfl

theorem ofNat_sub_toNat {c : Char} {n : Nat} (h : c.toNat + n < 0xD800) :
    Char.ofNat ((Char.ofNat (c.toNat + n)).toNat - n) = c := by
  rw [toNat_ofNat h, Nat.add_sub_cancel, Char.ofNat_toNat]

theorem isControl_cases {c : Char} (h : isControl c = true) : c.toNat < 0x20 ∨ c.toNat = 0x7F := by
  simpa [isControl] using h

theorem caret_of_lt {c : Char} (h : c.toNat < 0x20) :
    caret c = ['^', Char.ofNat (c.toNat + 0x40)] := by simp [caret, h]

theorem caret_of_delete {c : Char} (h : c.toNat = 0x7F) : caret c = ['^', '?'] := by
  simp [caret, h]

theorem picture_of_lt {c : Char} (h : c.toNat < 0x20) :
    picture c = Char.ofNat (c.toNat + 0x2400) := by simp [picture, h]

theorem picture_of_delete {c : Char} (h : c.toNat = 0x7F) : picture c = Char.ofNat 0x2421 := by
  simp [picture, h]

theorem apply_caret (text : List Char) : apply (some .caret) text = text.flatMap caret := rfl

theorem apply_pictures (text : List Char) : apply (some .pictures) text = text.map picture := rfl

def uncaret : List Char → List Char
  | '^' :: c :: rest =>
    if '@'.toNat ≤ c.toNat ∧ c.toNat ≤ '_'.toNat then Char.ofNat (c.toNat - 0x40) :: uncaret rest
    else if c = '?' then Char.ofNat 0x7F :: uncaret rest
    else '^' :: uncaret (c :: rest)
  | c :: rest => c :: uncaret rest
  | [] => []

theorem uncaret_cons {c : Char} (h : c ≠ '^') (rest : List Char) :
    uncaret (c :: rest) = c :: uncaret rest := by
  rw [uncaret]
  rintro - - rfl
  exact absurd rfl h

/-- A caret is always read together with the character that was written behind it. -/
theorem uncaret_caret {c : Char} (h : c ≠ '^') (rest : List Char) :
    uncaret (caret c ++ rest) = c :: uncaret rest := by
  cases hc : isControl c with
  | false =>
    rw [caret_of_not_isControl hc]
    exact uncaret_cons h rest
  | true =>
    rcases isControl_cases hc with hlt | hdel
    · have hn : (Char.ofNat (c.toNat + 0x40)).toNat = c.toNat + 0x40 := toNat_ofNat (by omega)
      have hat : '@'.toNat = 0x40 := rfl
      have hlow : '_'.toNat = 0x5F := rfl
      rw [caret_of_lt hlt, List.cons_append, List.cons_append, List.nil_append, uncaret,
        if_pos (by omega), ofNat_sub_toNat (by omega)]
    · have hd : Char.ofNat 0x7F = c := by rw [← hdel, Char.ofNat_toNat]
      rw [caret_of_delete hdel, List.cons_append, List.cons_append, List.nil_append, uncaret,
        if_neg (by decide), if_pos rfl, hd]

theorem uncaret_apply {text : List Char} (h : '^' ∉ text) :
    uncaret (apply (some .caret) text) = text := by
  induction text with
  | nil => rfl
  | cons c text ih =>
    simp only [List.mem_cons, not_or] at h
    rw [apply_caret] at ih ⊢
    rw [List.flatMap_cons, uncaret_caret (Ne.symm h.1), ih h.2]

def isPicture (c : Char) : Bool := (0x2400 ≤ c.toNat && c.toNat ≤ 0x241F) || c.toNat == 0x2421

def unpicture (c : Char) : Char :=
  if 0x2400 ≤ c.toNat ∧ c.toNat ≤ 0x241F then Char.ofNat (c.toNat - 0x2400)
  else if c.toNat = 0x2421 then Char.ofNat 0x7F
  else c

theorem unpicture_picture {c : Char} (h : isPicture c = false) : unpicture (picture c) = c := by
  cases hc : isControl c with
  | false =>
    rw [picture_of_not_isControl hc]
    simp only [isPicture, Bool.or_eq_false_iff, Bool.and_eq_false_iff, decide_eq_false_iff_not,
      beq_eq_false_iff_ne] at h
    rw [unpicture, if_neg (by omega), if_neg (by omega)]
  | true =>
    rcases isControl_cases hc with hlt | hdel
    · have hn : (Char.ofNat (c.toNat + 0x2400)).toNat = c.toNat + 0x2400 :=
        toNat_ofNat (by omega)
      rw [picture_of_lt hlt, unpicture, if_pos (by omega), ofNat_sub_toNat (by omega)]
    · rw [picture_of_delete hdel, ← Char.ofNat_toNat c, hdel]
      rfl

theorem unpicture_apply {text : List Char} (h : ∀ c ∈ text, isPicture c = false) :
    (apply (some .pictures) text).map unpicture = text := by
  induction text with
  | nil => rfl
  | cons c text ih =>
    rw [List.forall_mem_cons] at h
    rw [apply_pictures] at ih ⊢
    rw [List.map_cons, List.map_cons, unpicture_picture h.1, ih h.2]

end ControlText

open ControlText

/-- Under either notation a text has an outcome that can be read back, unless the text itself uses
the notation. Under pictures no character is added or lost, whatever the text is. -/
theorem render_text_reversible (m : Modifiers) (options : Options) (hq : m.isTypeQuery = false) :
    (m.style = some .caret →
      (∀ s : String, '^' ∉ s.toList → ∃ text,
        (Value.text s).render m options = .ok text ∧ uncaret text = s.toList) ∧
      Set.InjOn (fun s => (Value.text s).render m options) {s | '^' ∉ s.toList}) ∧
    (m.style = some .pictures →
      (∀ s : String, ∃ text, (Value.text s).render m options = .ok text ∧
        text.length = s.toList.length ∧
        ((∀ c ∈ s.toList, isPicture c = false) → text.map unpicture = s.toList)) ∧
      Set.InjOn (fun s => (Value.text s).render m options)
        {s | ∀ c ∈ s.toList, isPicture c = false}) := by
  have hr : ∀ s : String, (Value.text s).render m options = .ok (apply m.style s.toList) := by
    simp [Value.render, Value.renderPlain, Modifiers.text, hq]
  constructor
  · intro hs
    simp only [hr, hs]
    refine ⟨fun s h => ⟨_, rfl, uncaret_apply h⟩, fun s h t h' he => ?_⟩
    have hc := congrArg uncaret (Except.ok.inj he)
    rw [uncaret_apply h, uncaret_apply h'] at hc
    exact String.toList_inj.mp hc
  · intro hs
    simp only [hr, hs]
    refine ⟨fun s => ⟨_, rfl, by simp [apply_pictures], unpicture_apply⟩, fun s h t h' he => ?_⟩
    have hc := congrArg (List.map unpicture) (Except.ok.inj he)
    rw [unpicture_apply h, unpicture_apply h'] at hc
    exact String.toList_inj.mp hc

/-- Behind their carets the control characters have a caret, an underscore, a question mark and an
at sign, and characters like these stand between them. -/
def transcript : String := "a\x1e@\x1f_\x7f?\x00ü"

theorem render_text_reversible_transcript :
    let carets : Modifiers := { style := some .caret }
    let images : Modifiers := { style := some .pictures }
    carets.isTypeQuery = false ∧ images.isTypeQuery = false ∧ '^' ∉ transcript.toList ∧
      (∀ c ∈ transcript.toList, isPicture c = false) ∧
      (∃ text, (Value.text transcript).render carets .standard = .ok text ∧
        uncaret text = transcript.toList) ∧
      (∃ text, (Value.text transcript).render images .standard = .ok text ∧ text.length = 9 ∧
        text.map unpicture = transcript.toList) ∧
      (Value.text transcript).render carets .standard ≠ (Value.text "a").render carets .standard ∧
      (Value.text transcript).render images .standard ≠
        (Value.text "a").render images .standard := by
  intro carets images
  have hcaret : '^' ∉ transcript.toList := by decide
  have hpicture : ∀ c ∈ transcript.toList, isPicture c = false := by simp [transcript, isPicture]
  have ha : ∀ c ∈ "a".toList, isPicture c = false := by simp [isPicture]
  have hne : transcript ≠ "a" := by decide
  obtain ⟨hc, hci⟩ := (render_text_reversible carets .standard (by decide)).1 rfl
  obtain ⟨hp, hpi⟩ := (render_text_reversible images .standard (by decide)).2 rfl
  obtain ⟨text, hr, hl, hu⟩ := hp transcript
  exact ⟨by decide, by decide, hcaret, hpicture, hc transcript hcaret, ⟨text, hr, hl, hu hpicture⟩,
    fun he => hne (hci hcaret (by decide) he), fun he => hne (hpi hpicture ha he)⟩

-- A text with a caret of its own may look like another one.
example : apply (some .caret) "^A".toList = apply (some .caret) "\x01".toList := by
  decide

end MessagePattern
