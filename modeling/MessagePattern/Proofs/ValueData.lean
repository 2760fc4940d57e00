import MessagePattern.Data.Reading

/-!
# Values as data and back

A value describes itself as data, and both ways of turning data into values
give it back. What cannot be described is an object or a handle: the first one
from left to right is refused, with a reason that names it.
-/

set_option autoImplicit false

namespace MessagePattern

namespace Value

mutual

/-- The values that are not lists, from left to right. An object is one of them, whatever its
items are. -/
def leaves : Value → List Value
  | .list items => itemLeaves items
  | v => [v]

def itemLeaves : List Value → List Value
  | [] => []
  | v :: vs => v.leaves ++ itemLeaves vs

end

def refusal? : Value → Option String
  | .object about _ => some ("cannot serialize convertible value of type " ++ about.typeName)
  | .handle h => some ("cannot serialize " ++ h.describe)
  | _ => none

def unlessRefused {ε α : Type} (fail : String → ε) (leaves : List Value) (result : α) :
    Except ε α :=
  match leaves.findSome? refusal? with
  | none => .ok result
  | some reason => .error (fail reason)

section

variable {ε α β : Type} {fail : String → ε}

theorem unlessRefused_of_none {leaves : List Value} (h : leaves.findSome? refusal? = none)
    (result : α) : unlessRefused fail leaves result = .ok result := by
  rw [unlessRefused, h]

theorem unlessRefused_of_some {leaves : List Value} {reason : String}
    (h : leaves.findSome? refusal? = some reason) (result : α) :
    unlessRefused fail leaves result = .error (fail reason) := by
  rw [unlessRefused, h]

theorem map_unlessRefused (leaves : List Value) (result : α) (f : α → β) :
    (unlessRefused fail leaves result).map f = unlessRefused fail leaves (f result) := by
  cases h : leaves.findSome? refusal? with
  | none => rw [unlessRefused_of_none h, unlessRefused_of_none h]; rfl
  | some reason => rw [unlessRefused_of_some h, unlessRefused_of_some h]; rfl

/-- Of two refusals the one further left counts. -/
theorem unlessRefused_cons (leaves rest : List Value) (v : Value) (vs : List Value) :
    (do let w ← unlessRefused fail leaves v
        let ws ← unlessRefused fail rest vs
        return w :: ws) = unlessRefused fail (leaves ++ rest) (v :: vs) := by
  cases h : leaves.findSome? refusal? with
  | some reason =>
    have ha : (leaves ++ rest).findSome? refusal? = some reason := by
      rw [List.findSome?_append, h]
      rfl
    rw [unlessRefused_of_some h, unlessRefused_of_some ha]
    rfl
  | none =>
    have ha : (leaves ++ rest).findSome? refusal? = rest.findSome? refusal? := by
      rw [List.findSome?_append, h]
      rfl
    rw [unlessRefused_of_none h, unlessRefused, unlessRefused, ha]
    cases rest.findSome? refusal? with
    | none => rfl
    | some reason => rfl

end

mutual

theorem toValue_toData (v : Value) :
    v.toData.toValue = unlessRefused .custom v.leaves v := by
  cases v with
  | list items =>
    calc (list items).toData.toValue
        = (Data.itemValues (itemsToData items)).map .list := rfl
      _ = (unlessRefused .custom (itemLeaves items) items).map .list := by
        rw [itemValues_itemsToData items]
      _ = unlessRefused .custom (itemLeaves items) (.list items) := map_unlessRefused _ _ _
  | _ => rfl

theorem itemValues_itemsToData (items : List Value) :
    Data.itemValues (itemsToData items) = unlessRefused .custom (itemLeaves items) items := by
  cases items with
  | nil => rfl
  | cons v vs =>
    rw [itemsToData, Data.itemValues, toValue_toData v, itemValues_itemsToData vs]
    exact unlessRefused_cons v.leaves (itemLeaves vs) v vs

end

mutual

theorem readValue_toData (v : Value) :
    v.toData.readValue = unlessRefused .failure v.leaves v := by
  cases v with
  | list items =>
    calc (list items).toData.readValue
        = (Data.readItems (itemsToData items)).map .list := rfl
      _ = (unlessRefused .failure (itemLeaves items) items).map .list := by
        rw [readItems_itemsToData items]
      _ = unlessRefused .failure (itemLeaves items) (.list items) := map_unlessRefused _ _ _
  | _ => rfl

theorem readItems_itemsToData (items : List Value) :
    Data.readItems (itemsToData items) = unlessRefused .failure (itemLeaves items) items := by
  cases items with
  | nil => rfl
  | cons v vs =>
    rw [itemsToData, Data.readItems, readValue_toData v, readItems_itemsToData vs]
    exact unlessRefused_cons v.leaves (itemLeaves vs) v vs

end

/-- A value without objects and handles comes back from its data, converted or read. In any
other value the leftmost object or handle gives the reason why it has no data. -/
theorem toData_round_trip (v : Value) :
    ((∀ w ∈ v.leaves, w.refusal? = none) → v.toData.toValue = .ok v ∧ v.toData.readValue = .ok v) ∧
      ((∃ w ∈ v.leaves, w.refusal? ≠ none) → ∃ before w after reason,
        v.leaves = before ++ w :: after ∧ (∀ u ∈ before, u.refusal? = none) ∧
          w.refusal? = some reason ∧ v.toData.toValue = .error (.custom reason)) := by
  constructor
  · intro h
    have hn : v.leaves.findSome? refusal? = none := List.findSome?_eq_none_iff.mpr h
    rw [toValue_toData, readValue_toData, unlessRefused_of_none hn, unlessRefused_of_none hn]
    exact ⟨rfl, rfl⟩
  · rintro ⟨u, hu, hr⟩
    cases hs : v.leaves.findSome? refusal? with
    | none => exact absurd (List.findSome?_eq_none_iff.mp hs u hu) hr
    | some reason =>
      obtain ⟨before, w, after, hl, hw, hb⟩ := List.findSome?_eq_some_iff.mp hs
      refine ⟨before, w, after, reason, hl, hb, hw, ?_⟩
      rw [toValue_toData, unlessRefused_of_some hs]

/-- What stands before a refused leaf is described in vain. -/
example : (list [integer 1, list [text "a", handle ⟨"file", true⟩], object ⟨0, "Clock", none, none,
    none, none⟩ none]).toData.toValue = .error (.custom "cannot serialize closed resource") := by
  rfl

end Value

end MessagePattern
