import MessagePattern.Proofs.Conversions
import MessagePattern.Proofs.Failures

/-!
# Faults of a rendering

A value is gone through from left to right, and into an object only through the
conversion that is chosen for it. The first end that cannot be written is the
reason for which the whole value cannot; if there is none, it is written.
-/

set_option autoImplicit false

namespace MessagePattern

def Attempt.fault? {α : Type} : Attempt α → Option Error
  | .done _ => none
  | .failed reason => some (.conversion reason)

/-- Why a conversion fails by itself. Items do not: one of them may. -/
def Conversion.fault? : Conversion → Option Error
  | .display own => if own.breaks then some .brokenDisplay else none
  | .text result => result.fault?
  | .items _ => none
  | .integer result => result.fault?
  | .float result => result.fault?

namespace Value

def fault? : Value → Option Error
  | .object about items =>
    match about.chosen items with
    | some conversion => conversion.fault?
    | none => some (.invalidArgument about.typeName)
  | .handle h => some (.invalidArgument h.typeName)
  | _ => none

mutual

def ends : Value → List Value
  | .list items => itemEnds items
  | .object about (some items) =>
    match about.chosen (some items) with
    | some (.items _) => itemEnds items
    | _ => [.object about (some items)]
  | v => [v]

def itemEnds : List Value → List Value
  | [] => []
  | v :: vs => ends v ++ itemEnds vs

end

variable {v : Value} {label : String} {items : List Value}

theorem itemEnds_eq_flatMap (items : List Value) : itemEnds items = items.flatMap ends := by
  induction items with
  | nil => rfl
  | cons v items ih => rw [itemEnds, ih, List.flatMap_cons]

theorem ends_series (h : v.series? = some (label, items)) : v.ends = items.flatMap ends := by
  cases v with
  | list own =>
    cases h
    rw [ends, itemEnds_eq_flatMap]
  | object about offered =>
    have hc := (series?_object_eq_some.mp h).2
    cases Object.chooses_iff.mpr hc
    rw [ends, hc]
    exact itemEnds_eq_flatMap items
  | _ => cases h

theorem ends_leaf (h : v.series? = none) : v.ends = [v] := by
  cases v with
  | list own => cases h
  | object about offered =>
    cases offered with
    | none => rfl
    | some own =>
      rw [ends]
      split
      · rename_i other hc
        rw [series?, hc] at h
        cases h
      · rfl
  | _ => rfl

theorem failure?_leaf (m : Modifiers) (options : Options) (h : v.series? = none) :
    failure? (v.renderPlain m options) = v.fault? := by
  cases v with
  | list own => cases h
  | object about offered =>
    rw [renderPlain_object, fault?]
    cases hc : about.chosen offered with
    | none => rfl
    | some conversion =>
      cases conversion with
      | display own =>
        by_cases hb : own.breaks = true <;> simp [Conversion.render, Conversion.fault?, hb]
      | text result => cases result <;> rfl
      | items own => simp [series?, hc] at h
      | integer result => cases result <;> rfl
      | float result => cases result <;> rfl
  | _ => rfl

/-- The walk finds the failure of the rendering, and only that. -/
theorem failure?_renderPlain (m : Modifiers) (options : Options) (v : Value) :
    failure? (v.renderPlain m options) = v.ends.findSome? fault? := by
  induction v using series_induction with
  | leaf v h => simp [failure?_leaf m options h, ends_leaf h]
  | series v label items h ih =>
    rw [renderPlain_series m options h, failure?_map, failure?_mapM, ends_series h,
      findSome?_flatMap]
    exact findSome?_congr ih

inductive IsData : Value → Prop
  | null : IsData .null
  | bool (b : Bool) : IsData (.bool b)
  | integer (i : Int64) : IsData (.integer i)
  | float (x : Binary64) : IsData (.float x)
  | text (s : String) : IsData (.text s)
  | list {items : List Value} (h : ∀ v ∈ items, IsData v) : IsData (.list items)

theorem IsData.fault?_eq_none {v : Value} (h : v.IsData) : ∀ w ∈ v.ends, w.fault? = none := by
  induction h with
  | @list items _ ih =>
    intro w hw
    rw [ends, itemEnds_eq_flatMap] at hw
    obtain ⟨v, hv, hw⟩ := List.mem_flatMap.mp hw
    exact ih v hv w hw
  | _ => simp [ends, fault?]

end Value

def Conversion.alone (typeName : String) : Option Conversion → Value
  | none => .object { identity := 0, typeName } none
  | some (.display own) => .object { identity := 0, typeName, display := some own } none
  | some (.text result) => .object { identity := 0, typeName, text := some result } none
  | some (.items own) => .object { identity := 0, typeName } (some own)
  | some (.integer result) => .object { identity := 0, typeName, integer := some result } none
  | some (.float result) => .object { identity := 0, typeName, float := some result } none

def Conversion.mapItems (f : List Value → List Value) : Conversion → Conversion
  | .items own => .items (f own)
  | conversion => conversion

theorem Conversion.render_alone (m : Modifiers) (options : Options) (label : String)
    (choice : Option Conversion) :
    (Conversion.alone label choice).renderPlain m options =
      match choice with
      | some conversion => conversion.render m options label
      | none => .error (.invalidArgument label) := by
  cases choice with
  | none => rfl
  | some conversion => cases conversion <;> exact Value.renderPlain_object m options _ _

theorem Object.chosen_map (about : Object) (items : Option (List Value))
    (f : List Value → List Value) :
    about.chosen (items.map f) = (about.chosen items).map (Conversion.mapItems f) := by
  have h := about.chooses items
  generalize hc : about.chosen items = choice at h
  rw [← chooses_iff]
  cases h with
  | display hd => exact .display hd
  | text hd ht => exact .text hd ht
  | items hd ht => exact .items hd ht
  | integer hd ht hi => exact .integer hd ht hi
  | float hd ht hi hf => exact .float hd ht hi hf
  | nothing hd ht hi hf => exact .nothing hd ht hi hf

namespace Value

mutual

/-- Every object is left with its name and the conversion through which it is written. -/
def pared : Value → Value
  | .list items => .list (paredItems items)
  | .object about items => Conversion.alone about.typeName (about.chosen (paredOptional items))
  | v => v

def paredItems : List Value → List Value
  | [] => []
  | v :: vs => pared v :: paredItems vs

def paredOptional : Option (List Value) → Option (List Value)
  | none => none
  | some items => some (paredItems items)

end

theorem paredItems_eq_map (items : List Value) : paredItems items = items.map pared := by
  induction items with
  | nil => rfl
  | cons v items ih => rw [paredItems, ih, List.map_cons]

theorem pared_object (about : Object) (items : Option (List Value)) :
    (object about items).pared = Conversion.alone about.typeName
      ((about.chosen items).map (Conversion.mapItems paredItems)) := by
  rw [pared, ← Object.chosen_map]
  cases items <;> rfl

theorem describe_pared (v : Value) : v.pared.describe = v.describe := by
  cases v with
  | object about items =>
    rw [pared_object]
    cases about.chosen items with
    | none => rfl
    | some conversion => cases conversion <;> rfl
  | _ => rfl

theorem series?_pared {v : Value} {label : String} {items : List Value}
    (h : v.series? = some (label, items)) :
    v.pared.series? = some (label, items.map pared) := by
  cases v with
  | list own =>
    cases h
    rw [pared, paredItems_eq_map, series?_list]
  | object about offered =>
    obtain ⟨rfl, hc⟩ := series?_object_eq_some.mp h
    rw [pared_object, hc, ← paredItems_eq_map]
    rfl
  | _ => cases h

/-- What is pared off is not looked at. -/
theorem renderPlain_pared (m : Modifiers) (options : Options) (v : Value) :
    v.pared.renderPlain m options = v.renderPlain m options := by
  induction v using series_induction with
  | leaf v h =>
    cases v with
    | object about offered =>
      rw [pared_object, Conversion.render_alone, renderPlain_object]
      cases hc : about.chosen offered with
      | none => rfl
      | some conversion =>
        cases conversion with
        | items own => simp [series?, hc] at h
        | _ => rfl
    | list own => cases h
    | _ => rfl
  | series v label items h ih =>
    have hm : (items.map pared).mapM (renderPlain m options) =
        items.mapM (renderPlain m options) := by
      rw [List.mapM_map]
      exact mapM_congr ih
    rw [renderPlain_series m options (series?_pared h), hm, renderPlain_series m options h]

theorem render_pared (m : Modifiers) (options : Options) (v : Value) :
    v.pared.render m options = v.render m options := by
  rw [render, render, describe_pared, renderPlain_pared]

theorem failure?_render (m : Modifiers) (options : Options) (v : Value) :
    failure? (v.render m options) =
      if m.isTypeQuery then none else v.ends.findSome? fault? := by
  rw [render]
  split
  · rfl
  · exact failure?_renderPlain m options v

/-- Unless its type is asked for, a value fails exactly if the walk through it meets a fault, and
the first fault is the error. A value without objects and handles has none. Conversions that
an object does not choose make no difference. -/
theorem render_faults (m : Modifiers) (options : Options) (v : Value) :
    (∀ e, v.render m options = .error e ↔ m.isTypeQuery = false ∧
      ∃ before w after, v.ends = before ++ w :: after ∧ w.fault? = some e ∧
        ∀ u ∈ before, u.fault? = none) ∧
    ((∃ text, v.render m options = .ok text) ↔
      m.isTypeQuery = true ∨ ∀ w ∈ v.ends, w.fault? = none) ∧
    (v.IsData → ∃ text, v.render m options = .ok text) ∧
    v.pared.render m options = v.render m options := by
  have hok : (∃ text, v.render m options = .ok text) ↔
      m.isTypeQuery = true ∨ ∀ w ∈ v.ends, w.fault? = none := by
    rw [← failure?_eq_none, failure?_render, ← List.findSome?_eq_none_iff]
    by_cases hq : m.isTypeQuery = true <;> simp [hq]
  refine ⟨fun e => ?_, hok, fun hd => hok.mpr (.inr hd.fault?_eq_none), render_pared m options v⟩
  rw [← failure?_eq_some, failure?_render, ← List.findSome?_eq_some_iff]
  by_cases hq : m.isTypeQuery = true <;> simp [hq]

def meter : Value :=
  .object ⟨2, "Meter", none, some (.failed "no signal"), some (.done 3), none⟩ none

/-- The object in the middle has a conversion behind its items, and a handle comes later. -/
def inventory : Value :=
  .list [.text "a", .object ⟨1, "Bag", none, none, some (.done 7), none⟩ (some [.integer 1, meter]),
    .handle ⟨"file", false⟩]

theorem render_faults_inventory :
    inventory.render {} .standard = .error (.conversion "no signal") ∧
      inventory.pared ≠ inventory ∧
      inventory.pared.render {} .standard = .error (.conversion "no signal") ∧
      IsData (.list [.null, .text "a"]) ∧
      ∃ text, (Value.list [.null, .text "a"]).render {} .standard = .ok text := by
  obtain ⟨hfails, -, -, hpared⟩ := render_faults {} .standard inventory
  obtain ⟨-, -, hdata, -⟩ := render_faults {} .standard (.list [.null, .text "a"])
  have hr : inventory.render {} .standard = .error (.conversion "no signal") := by
    rw [hfails]
    refine ⟨rfl, [.text "a", .integer 1], meter, [.handle ⟨"file", false⟩], rfl, rfl, ?_⟩
    simp [fault?]
  have hd : IsData (.list [.null, .text "a"]) := .list (by simp [IsData.null, IsData.text])
  exact ⟨hr, by decide, hpared.trans hr, hd, hdata hd⟩

end Value

end MessagePattern
