import Mathlib.Logic.Function.Iterate
import MessagePattern.Proofs.Conversions
import MessagePattern.Proofs.Failures

/-!
# Series of series

The items of a series are written under the modifiers of the series and joined
by one law, whatever they are themselves. A series of a single item is written
like the item, at any depth.
-/

set_option autoImplicit false

namespace MessagePattern

namespace Series

def led : Option String → List (List Char) → List (List Char)
  | _, [] => []
  | some word, [a] => [word.toList ++ ' ' :: a]
  | conjunction, a :: rest => a :: led conjunction rest

def joined (label : String) : Option String → List (List Char) → List Char
  | _, [] => "empty ".toList ++ label.toList
  | _, [a] => a
  | some word, [a, b] => a ++ ' ' :: word.toList ++ ' ' :: b
  | conjunction, items => comma.intercalate (led conjunction items)

theorem joined_pair (label word : String) (a b : List Char) :
    joined label (some word) [a, b] = a ++ ' ' :: word.toList ++ ' ' :: b := rfl

theorem led_cons_cons (conjunction : Option String) (a b : List Char) (rest : List (List Char)) :
    led conjunction (a :: b :: rest) = a :: led conjunction (b :: rest) := by
  cases conjunction <;> rfl

theorem joinCommas_eq_intercalate (conjunction : Option String) (a b : List Char)
    (rest : List (List Char)) :
    joinCommas (conjunction.map String.toList) (a :: b :: rest) =
      comma.intercalate (led conjunction (a :: b :: rest)) := by
  induction rest generalizing a b with
  | nil => cases conjunction <;> simp [joinCommas, led, comma]
  | cons c rest ih =>
    have hj : joinCommas (conjunction.map String.toList) (a :: b :: c :: rest) =
        a ++ comma ++ joinCommas (conjunction.map String.toList) (b :: c :: rest) := by
      simp [joinCommas]
    rw [hj, ih, led_cons_cons _ a b, led_cons_cons _ b c, List.intercalate_cons_cons]

end Series

open Series

theorem series_eq_joined (m : Modifiers) (label : String) (items : List (List Char)) :
    m.series label items = joined label m.conjunction items := by
  rcases items with _ | ⟨a, _ | ⟨b, _ | ⟨c, rest⟩⟩⟩
  · cases m.conjunction <;> rfl
  · cases hc : m.conjunction <;> rfl
  · change join (m.conjunction.map String.toList) [a, b] = _
    cases m.conjunction with
    | none => exact joinCommas_eq_intercalate none a b []
    | some word => rfl
  · have hj := joinCommas_eq_intercalate m.conjunction a b (c :: rest)
    have hl : joined label m.conjunction (a :: b :: c :: rest) =
        comma.intercalate (led m.conjunction (a :: b :: c :: rest)) := by
      cases m.conjunction <;> rfl
    exact hj.trans hl.symm

namespace Value

/-- What a value reads: a series reads what its items do, joined by the law, and all of them stand
under the same modifiers. -/
inductive Reads (m : Modifiers) (options : Options) : Value → List Char → Prop
  | leaf {v : Value} {text : List Char} (h : v.series? = none)
      (hr : v.render m options = .ok text) : Reads m options v text
  | series {v : Value} {label : String} {items : List Value} {texts : List (List Char)}
      (h : v.series? = some (label, items)) (hi : List.Forall₂ (Reads m options) items texts) :
      Reads m options v (joined label m.conjunction texts)

section

variable {m : Modifiers} (options : Options) (hq : m.isTypeQuery = false)
include hq

theorem render_series_eq_ok {v : Value} {label : String} {items : List Value}
    {text : List Char} (h : v.series? = some (label, items)) :
    v.render m options = .ok text ↔ ∃ texts,
      List.Forall₂ (fun w s => w.render m options = .ok s) items texts ∧
        joined label m.conjunction texts = text := by
  have hr : ∀ w : Value, w.render m options = w.renderPlain m options := by simp [render, hq]
  simp only [hr, renderPlain_series m options h, map_eq_ok, mapM_eq_ok, series_eq_joined]

theorem render_iff_reads (v : Value) (text : List Char) :
    v.render m options = .ok text ↔ Reads m options v text := by
  induction v using series_induction generalizing text with
  | leaf v h => exact ⟨.leaf h, fun hr => by cases hr <;> simp_all⟩
  | series v label items h ih =>
    rw [render_series_eq_ok options hq h]
    constructor
    · rintro ⟨texts, hi, rfl⟩
      exact .series h (forall₂_imp_mem (fun w hw s => (ih w hw s).mp) hi)
    · intro hr
      cases hr with
      | leaf h' => simp_all
      | series h' hi =>
        cases h.symm.trans h'
        exact ⟨_, forall₂_imp_mem (fun w hw s => (ih w hw s).mpr) hi, rfl⟩

theorem render_singleton (v : Value) :
    (Value.list [v]).render m options = v.render m options := by
  rw [render, render, hq, renderPlain_series m options (series?_list [v]), List.mapM_cons]
  cases v.renderPlain m options <;> rfl

theorem render_iterate (v : Value) (n : Nat) :
    ((fun w => Value.list [w])^[n] v).render m options = v.render m options := by
  induction n generalizing v with
  | zero => rfl
  | succ n ih => rw [Function.iterate_succ_apply, ih, render_singleton options hq]

end

/-- A series is written by joining what its items are written as, so that a value of any depth is
written as it reads, and not at all if it reads nothing. Lists of one item around a value
leave its text alone. -/
theorem render_series (m : Modifiers) (options : Options) (hq : m.isTypeQuery = false) :
    (∀ (v : Value) label items texts, v.series? = some (label, items) →
      List.Forall₂ (fun w text => w.render m options = .ok text) items texts →
        v.render m options = .ok (joined label m.conjunction texts)) ∧
    (∀ v text, v.render m options = .ok text ↔ Reads m options v text) ∧
    ∀ (v : Value) n, ((fun w => Value.list [w])^[n] v).render m options = v.render m options := by
  refine ⟨fun v label items texts h hi => ?_, render_iff_reads options hq,
    render_iterate options hq⟩
  rw [render_series_eq_ok options hq h]
  exact ⟨texts, hi, rfl⟩

def choices : Value :=
  .list [.list [.text "a", .text "b"], .text "c",
    .object ⟨1, "Bag", none, none, some (.done 7), none⟩ (some []), .list []]

theorem render_series_choices :
    let m : Modifiers := { conjunction := some "or" }
    let text := "a or b, c, empty Bag, or empty array".toList
    m.isTypeQuery = false ∧ choices.render m .standard = .ok text ∧ Reads m .standard choices text ∧
      ((fun w => Value.list [w])^[3] choices).render m .standard = .ok text := by
  intro m text
  have hq : m.isTypeQuery = false := by decide
  obtain ⟨hjoin, hreads, hwrap⟩ := render_series m .standard hq
  have hpair : (Value.list [.text "a", .text "b"]).render m .standard = .ok "a or b".toList :=
    hjoin _ _ _ ["a".toList, "b".toList] rfl (.cons rfl (.cons rfl .nil))
  have htext : choices.render m .standard = .ok text :=
    hjoin _ _ _ ["a or b".toList, "c".toList, "empty Bag".toList, "empty array".toList] rfl
      (.cons hpair (.cons rfl (.cons rfl (.cons rfl .nil))))
  exact ⟨hq, htext, (hreads _ _).mp htext, (hwrap choices 3).trans htext⟩

end Value

end MessagePattern
