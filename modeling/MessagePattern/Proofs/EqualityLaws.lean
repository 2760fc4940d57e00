import Mathlib.Data.List.Forall2
import MessagePattern.Proofs.EqualValues
import MessagePattern.Proofs.ValueData

/-!
# The laws of equality

Two values are equal if they have one canonical form, which is the value without
the signs of its zeros. A value with a NaN in it has no such form and equals
nothing, itself included. Equality is therefore symmetric and transitive, and
reflexive but for NaNs.
-/

set_option autoImplicit false

namespace MessagePattern

namespace Binary64

def canonical? : Binary64 → Option Binary64
  | .nan => none
  | .infinite negative => some (.infinite negative)
  | .finite negative units h => some (.finite (negative && units != 0) units h)

theorem canonical?_zero (negative : Bool) (h : Representable 0) :
    (finite negative 0 h).canonical? = some (.finite false 0 h) := by
  simp [canonical?]

theorem canonical?_eq_none_iff (x : Binary64) : x.canonical? = none ↔ x = .nan := by
  cases x <;> simp [canonical?]

theorem equal_iff_canonical (x y : Binary64) :
    x.equal y = true ↔ ∃ z, x.canonical? = some z ∧ y.canonical? = some z := by
  constructor
  · intro h
    rcases eq_or_zero_of_equal h with rfl | ⟨s, t, hz, -, rfl, rfl⟩
    · have hx : x.canonical? ≠ none := by
        rw [ne_eq, canonical?_eq_none_iff]
        exact (equal_self x).mp h
      obtain ⟨z, hz⟩ := Option.ne_none_iff_exists'.mp hx
      exact ⟨z, hz, hz⟩
    · exact ⟨_, canonical?_zero s hz, canonical?_zero t hz⟩
  · rintro ⟨z, hx, hy⟩
    cases x with
    | nan => cases hx
    | infinite s =>
      cases hx
      cases y with
      | infinite t =>
        cases hy
        exact beq_self_eq_true s
      | _ => cases hy
    | finite s u hu =>
      cases hx
      cases y with
      | finite t v hv =>
        simp only [canonical?, Option.some.injEq, finite.injEq] at hy
        obtain ⟨hs, rfl⟩ := hy
        have hst : s = t ∨ v = 0 := by
          by_cases h0 : v = 0
          · exact .inr h0
          · rw [bne_iff_ne.mpr h0, Bool.and_true, Bool.and_true] at hs
            exact .inl hs.symm
        simpa [equal] using hst
      | _ => cases hy

end Binary64

namespace Value

mutual

def canonical? : Value → Option Value
  | .float x => x.canonical?.map .float
  | .list items => (canonicalItems? items).map .list
  | v => some v

def canonicalItems? : List Value → Option (List Value)
  | [] => some []
  | v :: vs => do
    let w ← v.canonical?
    let ws ← canonicalItems? vs
    return w :: ws

end

theorem canonicalItems?_nil : canonicalItems? [] = some [] := rfl

theorem canonicalItems?_cons (v : Value) (vs us : List Value) :
    canonicalItems? (v :: vs) = some us ↔
      ∃ w ws, v.canonical? = some w ∧ canonicalItems? vs = some ws ∧ w :: ws = us := by
  simp [canonicalItems?, Option.bind_eq_some_iff]

/-- An object is equal to itself alone, whatever is in it. -/
theorem equal_object_iff (o p : Object) (vs ws : Option (List Value)) :
    equal (object o vs) (object p ws) = true ↔ object o vs = object p ws := by
  constructor
  · intro h
    exact eq_of_equal h (by simp) (by simp)
  · intro h
    cases h
    simp [equal, sameOptional_self]

mutual

theorem equal_iff_canonical (v w : Value) :
    equal v w = true ↔ ∃ u, v.canonical? = some u ∧ w.canonical? = some u := by
  cases v with
  | float x =>
    cases w with
    | float y => simp [equal, canonical?, Binary64.equal_iff_canonical]
    | _ => simp [equal, canonical?]
  | list vs =>
    cases w with
    | list ws => simp [equal, canonical?, equalItems_iff_canonical vs ws]
    | _ => simp [equal, canonical?]
  | object o vs =>
    cases w with
    | object p ws =>
      rw [equal_object_iff]
      constructor
      · intro h
        exact ⟨object o vs, rfl, congrArg some h.symm⟩
      · rintro ⟨u, hv, hw⟩
        exact Option.some.inj (hv.trans hw.symm)
    | _ => simp [equal, canonical?]
  | _ => cases w <;> simp [equal, canonical?] <;> exact eq_comm

theorem equalItems_iff_canonical (vs ws : List Value) :
    equalItems vs ws = true ↔
      ∃ us, canonicalItems? vs = some us ∧ canonicalItems? ws = some us := by
  cases vs with
  | nil =>
    cases ws with
    | nil => exact iff_of_true rfl ⟨[], rfl, rfl⟩
    | cons w ws => simp [equalItems, canonicalItems?_nil, canonicalItems?_cons]
  | cons v vs =>
    cases ws with
    | nil => simp [equalItems, canonicalItems?_nil, canonicalItems?_cons]
    | cons w ws =>
      simp only [equalItems, Bool.and_eq_true, equal_iff_canonical v w,
        equalItems_iff_canonical vs ws, canonicalItems?_cons]
      constructor
      · rintro ⟨⟨u, hv, hw⟩, us, hvs, hws⟩
        exact ⟨u :: us, ⟨u, us, hv, hvs, rfl⟩, u, us, hw, hws, rfl⟩
      · rintro ⟨-, ⟨u, us, hv, hvs, rfl⟩, u', us', hw, hws, he⟩
        cases he
        exact ⟨⟨u, hv, hw⟩, us, hvs, hws⟩

end

theorem equal_symm {v w : Value} (h : equal v w = true) : equal w v = true := by
  obtain ⟨u, hv, hw⟩ := (equal_iff_canonical v w).mp h
  exact (equal_iff_canonical w v).mpr ⟨u, hw, hv⟩

theorem equal_trans {u v w : Value} (huv : equal u v = true) (hvw : equal v w = true) :
    equal u w = true := by
  obtain ⟨c, hu, hv⟩ := (equal_iff_canonical u v).mp huv
  obtain ⟨d, hv', hw⟩ := (equal_iff_canonical v w).mp hvw
  cases hv.symm.trans hv'
  exact (equal_iff_canonical u w).mpr ⟨c, hu, hw⟩

mutual

theorem exists_canonical_iff (v : Value) :
    (∃ u, v.canonical? = some u) ↔ float .nan ∉ v.leaves := by
  cases v with
  | float x => cases x <;> simp [canonical?, Binary64.canonical?, leaves]
  | list items => simpa [canonical?, leaves] using exists_canonicalItems_iff items
  | _ => simp [canonical?, leaves]

theorem exists_canonicalItems_iff (items : List Value) :
    (∃ us, canonicalItems? items = some us) ↔ float .nan ∉ itemLeaves items := by
  cases items with
  | nil => exact iff_of_true ⟨[], rfl⟩ List.not_mem_nil
  | cons v vs =>
    rw [itemLeaves, List.mem_append, not_or, ← exists_canonical_iff v,
      ← exists_canonicalItems_iff vs]
    simp [canonicalItems?_cons]

end

theorem equal_self_iff (v : Value) : equal v v = true ↔ float .nan ∉ v.leaves := by
  rw [equal_iff_canonical, ← exists_canonical_iff]
  simp

theorem equalItems_iff_forall₂ (vs ws : List Value) :
    equalItems vs ws = true ↔ List.Forall₂ (fun v w => equal v w = true) vs ws := by
  induction vs generalizing ws with
  | nil => cases ws <;> simp [equalItems]
  | cons v vs ih => cases ws <;> simp [equalItems, ih]

/-- Lists are equal place by place. -/
theorem equal_list_iff (vs ws : List Value) :
    equal (list vs) (list ws) = true ↔ vs.length = ws.length ∧
      ∀ (i : Nat) (v w : Value), vs[i]? = some v → ws[i]? = some w → equal v w = true := by
  show equalItems vs ws = true ↔ _
  rw [equalItems_iff_forall₂, List.forall₂_iff_get]
  apply and_congr_right
  intro _
  constructor
  · intro h i v w hv hw
    obtain ⟨hi, rfl⟩ := List.getElem?_eq_some_iff.mp hv
    obtain ⟨hj, rfl⟩ := List.getElem?_eq_some_iff.mp hw
    exact h i hi hj
  · intro h i hi hj
    exact h i _ _ (List.getElem?_eq_getElem hi) (List.getElem?_eq_getElem hj)

/-- Equality is symmetric and transitive, and a value is equal to itself unless a NaN is among its
numbers, at some depth of lists. An object is equal to itself whatever is in it, and to no other: if
an identity belongs to one object, it is all that is compared. Lists are equal if they have the same
length and equal items in the same places. -/
theorem equal_laws :
    (∀ v w : Value, equal v w = true → equal w v = true) ∧
      (∀ u v w : Value, equal u v = true → equal v w = true → equal u w = true) ∧
      (∀ v : Value, equal v v = true ↔ float .nan ∉ v.leaves) ∧
      (∀ (o : Object) (vs : Option (List Value)),
        equal (object o vs) (object o vs) = true) ∧
      (∀ (o p : Object) (vs ws : Option (List Value)),
        equal (object o vs) (object p ws) = true → o.identity = p.identity) ∧
      (∀ (o p : Object) (vs ws : Option (List Value)),
        (o.identity = p.identity → object o vs = object p ws) →
          (equal (object o vs) (object p ws) = true ↔ o.identity = p.identity)) ∧
      ∀ vs ws : List Value, equal (list vs) (list ws) = true ↔ vs.length = ws.length ∧
        ∀ (i : Nat) (v w : Value), vs[i]? = some v → ws[i]? = some w → equal v w = true := by
  have hidentity : ∀ (o p : Object) (vs ws : Option (List Value)),
      equal (object o vs) (object p ws) = true → o.identity = p.identity := by
    intro o p vs ws h
    cases (equal_object_iff o p vs ws).mp h
    rfl
  refine ⟨fun _ _ => equal_symm, fun _ _ _ => equal_trans, equal_self_iff, ?_, hidentity, ?_,
    equal_list_iff⟩
  · intro o vs
    exact (equal_object_iff o o vs vs).mpr rfl
  · intro o p vs ws hone
    exact ⟨hidentity o p vs ws, fun h => (equal_object_iff o p vs ws).mpr (hone h)⟩

-- A NaN counts in a list and does not count in an object.
example :
    let gauge := object ⟨1, "Gauge", none, none, none, some (.done .nan)⟩ (some [float .nan])
    equal (list [.null, list [float .nan]]) (list [.null, list [float .nan]]) = false ∧
      equal (list [gauge]) (list [gauge]) = true := by
  decide

end Value

end MessagePattern
