import MessagePattern.Proofs.EqualValues
import MessagePattern.Proofs.Escaping
import MessagePattern.Proofs.Readings

/-!
# Equal arguments

Arguments with equal values under the same keys keep the same sections and fail
in the same way. Their messages are the same unless a placeholder in the
exponent style shows a value that is not the very same.
-/

set_option autoImplicit false

namespace MessagePattern

theorem collapse_ne_of_parted {s t : List Char} (h : Parted s t) :
    Escape.collapse s ≠ Escape.collapse t := by
  -- no pair reaches across the place where the texts part
  have hm : Escape.isDelimiter '-' = false := rfl
  have hz : Escape.isDelimiter '0' = false := rfl
  have hne : '-' ≠ '0' := by decide
  obtain ⟨before, a, b, ⟨rfl, rfl⟩ | ⟨rfl, rfl⟩⟩ := h
  · rw [collapse_split before hm, collapse_split before hz]
    intro he
    exact hne (List.cons.inj (List.append_cancel_left he)).1
  · rw [collapse_split before hm, collapse_split before hz]
    intro he
    exact hne (List.cons.inj (List.append_cancel_left he)).1.symm

namespace Arguments

def Alike (a b : Arguments) : Prop :=
  a.keys = b.keys ∧ Value.equalItems a.values b.values = true

instance (a b : Arguments) : Decidable (Alike a b) :=
  inferInstanceAs (Decidable (_ ∧ _))

/-- A key has no argument in both, or equal ones. -/
theorem find?_alike {es fs : Entries} (hk : es.keys = fs.keys)
    (hv : Value.equalItems (es.map Prod.snd) (fs.map Prod.snd) = true) (key : Key) :
    (es.find? key = none ∧ fs.find? key = none) ∨
      ∃ v w, es.find? key = some v ∧ fs.find? key = some w ∧ Value.equal v w = true := by
  induction es generalizing fs with
  | nil =>
    cases fs with
    | nil => exact .inl ⟨rfl, rfl⟩
    | cons f fs => cases hk
  | cons e es ih =>
    cases fs with
    | nil => cases hk
    | cons f fs =>
      obtain ⟨hef, hks⟩ := List.cons.inj hk
      simp only [List.map_cons, Value.equalItems, Bool.and_eq_true] at hv
      by_cases he : e.1 = key
      · have hf : f.1 = key := hef.symm.trans he
        exact .inr ⟨e.2, f.2, if_pos he, if_pos hf, hv.1⟩
      · have hf : ¬ f.1 = key := fun hf => he (hef.trans hf)
        rw [Entries.find?, Entries.find?, if_neg he, if_neg hf]
        exact ih hks hv.2

variable {a b : Arguments}

theorem get?_alike (h : Alike a b) (key : Key) :
    (a.get? key = none ∧ b.get? key = none) ∨
      ∃ v w, a.get? key = some v ∧ b.get? key = some w ∧ Value.equal v w = true :=
  find?_alike h.1 h.2 key

theorem fills_alike (h : Alike a b) (key : Key) : a.fills key = b.fills key := by
  obtain ⟨ha, hb⟩ | ⟨v, w, ha, hb, he⟩ := get?_alike h key
  · rw [fills, fills, ha, hb]
  · rw [fills, fills, ha, hb]
    exact congrArg not (Value.isEmpty_of_equal he)

theorem keeps_alike (h : Alike a b) (position : Nat) (ps : List Piece) :
    a.keeps position ps = b.keeps position ps := by
  simp only [keeps_keyed, fills_alike h]

theorem resolve_alike (h : Alike a b) (position : Nat) (segments : List Segment) :
    a.resolve position segments = b.resolve position segments := by
  induction segments generalizing position with
  | nil => rfl
  | cons segment segments ih =>
    cases segment with
    | literal text => rw [resolve, resolve, ih]
    | bracketed content => rw [resolve, resolve, keeps_alike h, ih, ih]

theorem resolveSections_alike (h : Alike a b) (pattern : List Char) :
    a.resolveSections pattern = b.resolveSections pattern :=
  resolve_alike h 0 _

def Exposes (p : Placeholder) : Prop := p.style = some .exponent ∧ p.isTypeQuery = false

instance (p : Placeholder) : Decidable (Exposes p) := inferInstanceAs (Decidable (_ ∧ _))

theorem compared_fill (h : Alike a b) (options : Options) (p : Placeholder) (key : Key) :
    Compared Parted (Exposes p → a.get? key = b.get? key) (p.fill a options key)
      (p.fill b options key) := by
  obtain ⟨ha, hb⟩ | ⟨v, w, ha, hb, he⟩ := get?_alike h key
  · rw [Placeholder.fill, Placeholder.fill, ha, hb, h.1]
    exact .refl (fun _ => rfl) _
  · rw [Placeholder.fill, Placeholder.fill, ha, hb]
    by_cases hq : p.isTypeQuery = true
    · have hm : p.modifiers.isTypeQuery = true := hq
      simp only [Value.render, if_pos hm, Value.describe_of_equal he]
      refine .refl (fun hx => ?_) _
      exact absurd hq (by simp [hx.2])
    · have hm : ¬ p.modifiers.isTypeQuery = true := hq
      simp only [Value.render, if_neg hm]
      refine (Value.compared_renderPlain p.modifiers options v w he).congr ?_
      rw [Bool.not_eq_true] at hq
      simp [Exposes, Placeholder.modifiers, hq]

theorem compared_fillPieces (h : Alike a b) (options : Options) (position : Nat)
    (ps : List Piece) :
    Compared Parted (∀ e ∈ keyed position ps, Exposes e.1 → a.get? e.2 = b.get? e.2)
      (a.fillPieces options position ps) (b.fillPieces options position ps) := by
  induction ps generalizing position with
  | nil => exact .refl (fun e he => absurd he List.not_mem_nil) _
  | cons piece ps ih =>
    cases piece with
    | char c => exact (ih position).map (List.cons c) fun s t hst => hst.cons c
    | token p =>
      have hp := compared_fill h options p (p.keyAt position)
      have hb := hp.both (R := Parted) (ih (p.advance position)) (· ++ ·)
        (fun s t u v hst _ => hst.append [] u v)
        (fun s u v huv => by simpa using huv.append s [] [])
      refine hb.congr ?_
      rw [keyed, List.forall_mem_cons]

end Arguments

open Arguments

/-- Equal arguments keep the same sections and fail alike. The messages are the same, unless
both are made and an exponent numeral is made of values that are not the very same. -/
theorem format_alike {a b : Arguments} (h : Alike a b) (pattern : String) (options : Options) :
    a.resolveSections pattern.toList = b.resolveSections pattern.toList ∧
      (∀ e, format pattern a options = .error e ↔ format pattern b options = .error e) ∧
      (format pattern a options = format pattern b options ↔
        (∃ e, format pattern a options = .error e) ∨
          ∀ e ∈ keyed 0 (pieces false (a.resolveSections pattern.toList)),
            Exposes e.1 → a.get? e.2 = b.get? e.2) := by
  have hs := resolveSections_alike h pattern.toList
  have hf := compared_fillPieces h options 0 (pieces false (a.resolveSections pattern.toList))
  have hc := hf.map (Q := (· ≠ ·)) Escape.collapse fun s t => collapse_ne_of_parted
  have hm := hc.map (Q := (· ≠ ·)) String.ofList fun s t hst he =>
    hst (String.ofList_injective he)
  have hb : format pattern b options = ((b.fillPieces options 0
      (pieces false (a.resolveSections pattern.toList))).map Escape.collapse).map
        String.ofList := by
    rw [format, formatText, hs]
  rw [hb]
  exact ⟨hs, hm.error_iff, hm.eq_iff⟩

def levels (negative : Bool) : Arguments :=
  .ofValues [.float (.finite negative 0 Binary64.representable_zero),
    .list [.float (.finite (!negative) 0 Binary64.representable_zero), .integer 7]]

theorem format_alike_levels :
    Alike (levels true) (levels false) ∧
      format "{.1}[ {1#x:and}?] {0#e:?}" (levels true) =
        format "{.1}[ {1#x:and}?] {0#e:?}" (levels false) := by
  have h : Alike (levels true) (levels false) := by decide
  have hq : ∀ e ∈ keyed 0 (pieces false
      ((levels true).resolveSections "{.1}[ {1#x:and}?] {0#e:?}".toList)), ¬ Exposes e.1 := by
    decide +kernel
  obtain ⟨-, -, hf⟩ := format_alike h "{.1}[ {1#x:and}?] {0#e:?}" .standard
  exact ⟨h, hf.mpr (.inr fun e he hx => absurd hx (hq e he))⟩

/-- A zero with a sign and one without are equal, and their exponent numerals are not. -/
theorem format_alike_not_exponent :
    ¬ ∀ (a b : Arguments), Alike a b → ∀ (pattern : String) (options : Options),
      format pattern a options = format pattern b options := by
  intro h
  have he := h (levels true) (levels false) (by decide) "{#e}" .standard
  have hp : ∀ negative, pieces false ((levels negative).resolveSections "{#e}".toList) =
      [.token { style := some .exponent }] := by
    decide +kernel
  have ht : format "{#e}" (levels true) = .ok "-0.000000e+0" := by
    rw [format, formatText, hp]
    rfl
  have hf : format "{#e}" (levels false) = .ok "0.000000e+0" := by
    rw [format, formatText, hp]
    rfl
  rw [ht, hf] at he
  exact absurd (Except.ok.inj he) (by decide)

end MessagePattern
