import MessagePattern.Rendering

/-!
# The conversions of an object

An object is asked for its conversions in a fixed order and is written through
the first that it offers. If that is its items, it is a series like a list;
everything that is no series is the end of a walk through the value.
-/

set_option autoImplicit false

namespace MessagePattern

inductive Conversion where
  | display (own : Display)
  | text (result : Attempt String)
  | items (items : List Value)
  | integer (result : Attempt Int64)
  | float (result : Attempt Binary64)

namespace Object

def conversions (about : Object) (items : Option (List Value)) : List Conversion :=
  (about.display.map .display).toList ++ (about.text.map .text).toList ++
    (items.map .items).toList ++ (about.integer.map .integer).toList ++
    (about.float.map .float).toList

def chosen (about : Object) (items : Option (List Value)) : Option Conversion :=
  (about.conversions items).head?

inductive Chooses (about : Object) : Option (List Value) → Option Conversion → Prop
  | display {items : Option (List Value)} {own : Display} (hd : about.display = some own) :
      Chooses about items (some (.display own))
  | text {items : Option (List Value)} {result : Attempt String} (hd : about.display = none)
      (ht : about.text = some result) : Chooses about items (some (.text result))
  | items {own : List Value} (hd : about.display = none) (ht : about.text = none) :
      Chooses about (some own) (some (.items own))
  | integer {result : Attempt Int64} (hd : about.display = none) (ht : about.text = none)
      (hi : about.integer = some result) : Chooses about none (some (.integer result))
  | float {result : Attempt Binary64} (hd : about.display = none) (ht : about.text = none)
      (hi : about.integer = none) (hf : about.float = some result) :
      Chooses about none (some (.float result))
  | nothing (hd : about.display = none) (ht : about.text = none) (hi : about.integer = none)
      (hf : about.float = none) : Chooses about none none

theorem chooses_iff {about : Object} {items : Option (List Value)} {choice : Option Conversion} :
    Chooses about items choice ↔ about.chosen items = choice := by
  constructor
  · intro h
    cases h <;> simp [chosen, conversions, *]
  · rintro rfl
    cases hd : about.display with
    | some own => simpa [chosen, conversions, hd] using Chooses.display hd
    | none =>
      cases ht : about.text with
      | some result => simpa [chosen, conversions, hd, ht] using Chooses.text hd ht
      | none =>
        cases items with
        | some own => simpa [chosen, conversions, hd, ht] using Chooses.items hd ht
        | none =>
          cases hi : about.integer with
          | some result => simpa [chosen, conversions, hd, ht, hi] using Chooses.integer hd ht hi
          | none =>
            cases hf : about.float with
            | some result =>
              simpa [chosen, conversions, hd, ht, hi, hf] using Chooses.float hd ht hi hf
            | none => simpa [chosen, conversions, hd, ht, hi, hf] using Chooses.nothing hd ht hi hf

theorem chooses (about : Object) (items : Option (List Value)) :
    Chooses about items (about.chosen items) :=
  chooses_iff.mpr rfl

end Object

def Attempt.toExcept {α : Type} : Attempt α → Except Error α
  | .done result => .ok result
  | .failed reason => .error (.conversion reason)

def Conversion.render (m : Modifiers) (options : Options) (label : String) :
    Conversion → Except Error (List Char)
  | .display own =>
    if own.breaks then .error .brokenDisplay else .ok (m.text (String.join own.pieces))
  | .text result => result.toExcept.map m.text
  | .items own => (own.mapM (Value.renderPlain m options)).map (m.series label)
  | .integer result => result.toExcept.map fun i => m.number options (.integer i)
  | .float result => result.toExcept.map fun x => m.number options (.float x)

namespace Value

variable (m : Modifiers) (options : Options)

theorem renderItems_eq_mapM (items : List Value) :
    renderItems m options items = items.mapM (renderPlain m options) := by
  induction items with
  | nil => rfl
  | cons v items ih => rw [renderItems, ih, List.mapM_cons]

/-- The first conversion alone decides. -/
theorem renderPlain_object (about : Object) (items : Option (List Value)) :
    (object about items).renderPlain m options =
      match about.chosen items with
      | some conversion => conversion.render m options about.typeName
      | none => .error (.invalidArgument about.typeName) := by
  have h := about.chooses items
  generalize about.chosen items = choice at h
  unfold renderPlain
  cases h with
  | @display _ own hd =>
    have htext : about.text? = some (if own.breaks then .error .brokenDisplay
        else .ok (String.join own.pieces)) := by rw [Object.text?, hd]
    rw [htext]
    by_cases hb : own.breaks = true <;> simp [Conversion.render, Except.map, hb]
  | @text _ result hd ht =>
    have htext : about.text? = some result.toExcept := by
      rw [Object.text?, hd, ht]
      cases result <;> rfl
    rw [htext]
    rfl
  | @items own hd ht =>
    have htext : about.text? = none := by rw [Object.text?, hd, ht]
    rw [htext]
    exact congrArg (Except.map (m.series about.typeName)) (renderItems_eq_mapM m options own)
  | @integer result hd ht hi =>
    have htext : about.text? = none := by rw [Object.text?, hd, ht]
    rw [htext, Object.number?, hi]
    cases result <;> rfl
  | @float result hd ht hi hf =>
    have htext : about.text? = none := by rw [Object.text?, hd, ht]
    rw [htext, Object.number?, hi, hf]
    cases result <;> rfl
  | nothing hd ht hi hf =>
    have htext : about.text? = none := by rw [Object.text?, hd, ht]
    rw [htext, Object.number?, hi, hf]

def series? : Value → Option (String × List Value)
  | .list items => some ("array", items)
  | .object about items =>
    match about.chosen items with
    | some (.items own) => some (about.typeName, own)
    | _ => none
  | _ => none

theorem series?_list (items : List Value) : (list items).series? = some ("array", items) := rfl

variable {label : String} {items : List Value} {v : Value}

theorem series?_object_eq_some {about : Object} {offered : Option (List Value)} :
    (object about offered).series? = some (label, items) ↔
      about.typeName = label ∧ about.chosen offered = some (.items items) := by
  rw [series?]
  split <;> simp_all

theorem sizeOf_lt_of_series? (h : v.series? = some (label, items)) : sizeOf items < sizeOf v := by
  cases v with
  | list own =>
    cases h
    simp
  | object about offered =>
    cases Object.chooses_iff.mpr (series?_object_eq_some.mp h).2
    simp
    omega
  | _ => cases h

/-- What holds of all that is no series, and of a series if it holds of its items, holds of every
value. -/
@[elab_as_elim]
theorem series_induction {motive : Value → Prop} (leaf : ∀ v, v.series? = none → motive v)
    (series : ∀ v label items, v.series? = some (label, items) → (∀ w ∈ items, motive w) →
      motive v) (v : Value) : motive v := by
  cases h : v.series? with
  | none => exact leaf v h
  | some s => exact series v s.1 s.2 h fun w _ => series_induction leaf series w
termination_by sizeOf v
decreasing_by
  have hs : sizeOf s.2 < sizeOf v := sizeOf_lt_of_series? h
  have hw : sizeOf w < sizeOf s.2 := List.sizeOf_lt_of_mem ‹_›
  omega

theorem renderPlain_series (h : v.series? = some (label, items)) :
    v.renderPlain m options =
      (items.mapM (renderPlain m options)).map (m.series label) := by
  cases v with
  | list own =>
    cases h
    rw [renderPlain, renderItems_eq_mapM]
  | object about offered =>
    obtain ⟨rfl, hc⟩ := series?_object_eq_some.mp h
    rw [renderPlain_object, hc]
    rfl
  | _ => cases h

end Value

end MessagePattern
