import MessagePattern.Rendering

/-!
# Equal values

Values that are equal differ at most in the signs of their zeros. The exponent
style writes that sign, whatever else is asked for leaves it out, and no
rendering fails on account of it.
-/

set_option autoImplicit false

namespace MessagePattern

namespace Binary64

theorem representable_zero : Representable 0 := representable_of_lt (by decide)

/-- A zero is rounded to itself. -/
theorem nearest_zero (negative : Bool) (denominator : Nat) :
    nearest negative 0 denominator = .finite negative 0 representable_zero := by
  have he : (0 / denominator).log2 - 52 = 0 := by simp
  have hr : roundHalfEven 0 (denominator <<< 0) = 0 := by
    simp [roundHalfEven, eq_comm]
  have hlt : 0 < 1 <<< 53 := by decide
  simp only [nearest, he, hr, dif_pos hlt]
  rfl

theorem round_zero (negative : Bool) (h : Representable 0) :
    round (.finite negative 0 h) = .finite negative 0 h := by
  have hu : (2 * 0 + unit) / (2 * unit) * unit = 0 := by decide +kernel
  simp only [round, hu]
  exact nearest_zero negative 1

/-- What is left of a zero is a zero, or nothing that has a sign. -/
theorem roundPlaces_zero (places : Nat) (h : Representable 0) :
    (∀ negative, roundPlaces places (.finite negative 0 h) = .nan) ∨
      ∀ negative, ∃ s h', roundPlaces places (.finite negative 0 h) = .finite s 0 h' := by
  cases hf : powTen places with
  | nan =>
    refine .inr fun negative => ⟨negative, h, ?_⟩
    simp [roundPlaces, hf, isFinite]
  | infinite t =>
    refine .inr fun negative => ⟨negative, h, ?_⟩
    simp [roundPlaces, hf, isFinite]
  | finite t v hv =>
    have hp : ∀ negative, roundPlaces places (.finite negative 0 h) =
        div (.finite (negative != t) 0 h) (.finite t v hv) := by
      intro negative
      simp only [roundPlaces, hf, mul, Nat.zero_mul, nearest_zero, isFinite, settle_zero,
        round_zero, Bool.and_self, if_true]
    by_cases hz : v = 0
    · refine .inl fun negative => ?_
      rw [hp, div, if_pos hz, if_pos rfl]
    · refine .inr fun negative => ?_
      rw [hp, div, if_neg hz, Nat.zero_mul, nearest_zero]
      exact ⟨_, _, rfl⟩

/-- Doubles that are equal without being the same are zeros. -/
theorem eq_or_zero_of_equal {x y : Binary64} (h : x.equal y = true) :
    x = y ∨ ∃ s t hz, s ≠ t ∧ x = .finite s 0 hz ∧ y = .finite t 0 hz := by
  cases x with
  | nan => cases h
  | infinite s =>
    cases y with
    | infinite t => exact .inl (by rw [beq_iff_eq.mp h])
    | _ => cases h
  | finite s u hu =>
    cases y with
    | finite t v hv =>
      simp only [equal, Bool.and_eq_true, Bool.or_eq_true, beq_iff_eq] at h
      obtain ⟨rfl, hs⟩ := h
      by_cases he : s = t
      · exact .inl (by rw [he])
      · obtain rfl := hs.resolve_left he
        exact .inr ⟨s, t, hu, he, rfl, rfl⟩
    | _ => cases h

end Binary64

def Parted (s t : List Char) : Prop :=
  ∃ before a b, s = before ++ '-' :: a ∧ t = before ++ '0' :: b ∨
    s = before ++ '0' :: a ∧ t = before ++ '-' :: b

theorem Parted.append {s t : List Char} (h : Parted s t) (x y z : List Char) :
    Parted (x ++ s ++ y) (x ++ t ++ z) := by
  obtain ⟨before, a, b, ⟨rfl, rfl⟩ | ⟨rfl, rfl⟩⟩ := h
  · exact ⟨x ++ before, a ++ y, b ++ z, .inl ⟨by simp, by simp⟩⟩
  · exact ⟨x ++ before, a ++ y, b ++ z, .inr ⟨by simp, by simp⟩⟩

theorem Parted.cons {s t : List Char} (h : Parted s t) (c : Char) : Parted (c :: s) (c :: t) := by
  have hc := h.append [c] [] []
  rwa [List.append_nil, List.append_nil] at hc

inductive PartedItems : List (List Char) → List (List Char) → Prop
  | head {s t : List Char} {a b : List (List Char)} (h : Parted s t) (hl : a.length = b.length) :
      PartedItems (s :: a) (t :: b)
  | tail (s : List Char) {a b : List (List Char)} (h : PartedItems a b) :
      PartedItems (s :: a) (s :: b)

theorem PartedItems.length_eq {a b : List (List Char)} (h : PartedItems a b) :
    a.length = b.length := by
  induction h with
  | head _ hl => simp [hl]
  | tail _ _ ih => simp [ih]

/-- A series is cut at the same places, so that it parts where its items do. -/
theorem parted_joinCommas (conjunction : Option (List Char)) {a b : List (List Char)}
    (h : PartedItems a b) :
    Parted (Series.joinCommas conjunction a) (Series.joinCommas conjunction b) := by
  induction h with
  | @head s t a b h hl =>
    match a, b, hl with
    | [], [], _ => exact h
    | [y], [z], _ =>
      cases conjunction with
      | none => simpa [Series.joinCommas] using h.append [] (Series.comma ++ y) (Series.comma ++ z)
      | some word =>
        simpa [Series.joinCommas] using
          h.append [] (Series.comma ++ word ++ ' ' :: y) (Series.comma ++ word ++ ' ' :: z)
    | y :: y' :: ys, z :: z' :: zs, _ =>
      simpa [Series.joinCommas] using h.append [] (Series.comma ++ _) (Series.comma ++ _)
  | @tail s a b h ih =>
    match a, b, h.length_eq with
    | [], [], _ => cases h
    | [y], [z], _ =>
      cases conjunction with
      | none => simpa [Series.joinCommas] using ih.append (s ++ Series.comma) [] []
      | some word =>
        simpa [Series.joinCommas] using ih.append (s ++ Series.comma ++ word ++ [' ']) [] []
    | y :: y' :: ys, z :: z' :: zs, _ =>
      simpa [Series.joinCommas] using ih.append (s ++ Series.comma) [] []

theorem parted_join (conjunction : Option (List Char)) {a b : List (List Char)}
    (h : PartedItems a b) :
    Parted (Series.join conjunction a) (Series.join conjunction b) := by
  have hj := parted_joinCommas conjunction h
  match a, b, h.length_eq with
  | [], [], _ => cases h
  | [s], [t], _ => exact hj
  | [s, y], [t, z], _ =>
    cases conjunction with
    | none => exact hj
    | some word =>
      cases h with
      | head h _ =>
        simpa [Series.join] using h.append [] (' ' :: word ++ ' ' :: y) (' ' :: word ++ ' ' :: z)
      | tail s h =>
        have hy : Parted y z := parted_joinCommas (some word) h
        simpa [Series.join] using hy.append (s ++ ' ' :: word ++ [' ']) [] []
  | s :: y :: y' :: ys, t :: z :: z' :: zs, _ => exact hj

theorem parted_series (m : Modifiers) (label : String) {a b : List (List Char)}
    (h : PartedItems a b) : Parted (m.series label a) (m.series label b) := by
  have hj := parted_join (m.conjunction.map String.toList) h
  cases h with
  | head _ _ => exact hj
  | tail _ _ => exact hj

/-- Two computations fail alike, or both succeed; then the results are the same if a condition
holds, and stand apart if it does not. -/
inductive Compared {α : Type} (apart : α → α → Prop) (same : Prop) :
    Except Error α → Except Error α → Prop
  | error (e : Error) : Compared apart same (.error e) (.error e)
  | equal (h : same) (a : α) : Compared apart same (.ok a) (.ok a)
  | apart {a b : α} (h : ¬ same) (hab : apart a b) : Compared apart same (.ok a) (.ok b)

namespace Compared

variable {α β γ : Type} {P : α → α → Prop} {Q : β → β → Prop} {R : γ → γ → Prop} {p q : Prop}

theorem refl (h : p) (x : Except Error α) : Compared P p x x := by
  cases x with
  | error e => exact .error e
  | ok a => exact .equal h a

theorem congr {x y : Except Error α} (h : Compared P p x y) (hpq : p ↔ q) : Compared P q x y := by
  cases h with
  | error e => exact .error e
  | equal h a => exact .equal (hpq.mp h) a
  | apart h hab => exact .apart (mt hpq.mpr h) hab

theorem map {x y : Except Error α} (h : Compared P p x y) (f : α → β)
    (hf : ∀ a b, P a b → Q (f a) (f b)) : Compared Q p (x.map f) (y.map f) := by
  cases h with
  | error e => exact .error e
  | equal h a => exact .equal h (f a)
  | apart h hab => exact .apart h (hf _ _ hab)

/-- Of two parts the first that stands apart decides. -/
theorem both {x y : Except Error α} {x' y' : Except Error β} (h : Compared P p x y)
    (h' : Compared Q q x' y') (f : α → β → γ)
    (hP : ∀ a b c d, P a b → (c = d ∨ Q c d) → R (f a c) (f b d))
    (hQ : ∀ a c d, Q c d → R (f a c) (f a d)) :
    Compared R (p ∧ q) (do let a ← x; let b ← x'; return f a b)
      (do let a ← y; let b ← y'; return f a b) := by
  cases h with
  | error e => exact .error e
  | equal h a =>
    cases h' with
    | error e => exact .error e
    | equal h' c => exact .equal ⟨h, h'⟩ (f a c)
    | apart h' hcd => exact .apart (fun hh => h' hh.2) (hQ _ _ _ hcd)
  | apart h hab =>
    cases h' with
    | error e => exact .error e
    | equal h' c => exact .apart (fun hh => h hh.1) (hP _ _ _ _ hab (.inl rfl))
    | apart h' hcd => exact .apart (fun hh => h hh.1) (hP _ _ _ _ hab (.inr hcd))

theorem error_iff {x y : Except Error α} (h : Compared P p x y) (e : Error) :
    x = .error e ↔ y = .error e := by
  cases h <;> simp

/-- Where apart means different, the condition decides whether the results are the same. -/
theorem eq_iff {x y : Except Error α} (h : Compared (· ≠ ·) p x y) :
    x = y ↔ (∃ e, x = .error e) ∨ p := by
  cases h with
  | error e => simp
  | equal h a => simp [h]
  | apart h hab => simp [h, hab]

end Compared

theorem decimalOfFloat_zero (plus : Bool) (places : Nat) (options : Options) (s t : Bool)
    (h : Representable 0) :
    Numeral.decimalOfFloat plus places options (.finite s 0 h) =
      Numeral.decimalOfFloat plus places options (.finite t 0 h) := by
  rcases Binary64.roundPlaces_zero places h with hn | hz
  · rw [Numeral.decimalOfFloat, Numeral.decimalOfFloat, hn, hn]
  · obtain ⟨s', h₁, hs⟩ := hz s
    obtain ⟨t', h₂, ht⟩ := hz t
    rw [Numeral.decimalOfFloat, Numeral.decimalOfFloat, hs, ht]
    simp [Binary64.isNegative, Binary64.isNonNegative]

theorem truncate_zero (s t : Bool) (h : Representable 0) :
    Binary64.truncate (.finite s 0 h) = Binary64.truncate (.finite t 0 h) := by
  cases s <;> cases t <;> rfl

/-- Behind its signs the exponent numeral of a zero begins with the digit. -/
theorem exponent_zero (plus : Bool) (places : Nat) (h : Representable 0) :
    ∃ r, ∀ negative, Numeral.exponent plus places (.finite negative 0 h) =
      (if plus then ['+'] else []) ++ ((if negative then ['-'] else []) ++ '0' :: r) := by
  obtain ⟨n, hn⟩ : ∃ n, n = if places = 0 then 6 else places := ⟨_, rfl⟩
  have hw : ∃ r, (Numeral.Scientific.write n ⟨0, 0⟩) = '0' :: r := by
    simp only [Numeral.Scientific.write, Numeral.Digits.ofNat, Nat.zero_div, Nat.toDigits_zero,
      List.cons_append]
    exact ⟨_, rfl⟩
  obtain ⟨r, hr⟩ := hw
  refine ⟨r, fun negative => ?_⟩
  have hz : Numeral.Scientific.ofUnits n 0 = ⟨0, 0⟩ := rfl
  simp only [Numeral.exponent, ← hn, Binary64.isNonNegative, hz, hr, beq_self_eq_true, Bool.or_true,
    Bool.and_true, List.append_assoc]

theorem parted_exponent (plus : Bool) (places : Nat) (h : Representable 0) {s t : Bool}
    (hst : s ≠ t) : Parted (Numeral.exponent plus places (.finite s 0 h))
      (Numeral.exponent plus places (.finite t 0 h)) := by
  obtain ⟨r, hr⟩ := exponent_zero plus places h
  rw [hr, hr]
  cases s with
  | false =>
    obtain rfl : t = true := by simpa using hst
    exact ⟨_, r, '0' :: r, .inr ⟨rfl, rfl⟩⟩
  | true =>
    obtain rfl : t = false := by simpa using hst
    exact ⟨_, '0' :: r, r, .inl ⟨rfl, rfl⟩⟩

/-- Apart from the exponent style, numbers that are equal are written alike. -/
theorem write_zero (plus : Bool) (places : Nat) {style : Option Style} (options : Options)
    (hs : style ≠ some .exponent) (s t : Bool) (h : Representable 0) :
    Number.write plus places style options (.float (.finite s 0 h)) =
      Number.write plus places style options (.float (.finite t 0 h)) := by
  have hd := decimalOfFloat_zero plus (min places Number.maxPlaces) options s t h
  have ht := truncate_zero s t h
  cases style with
  | none => exact hd
  | some style =>
    cases style with
    | exponent => exact absurd rfl hs
    | binary => exact congrArg Numeral.binary ht
    | octal => exact congrArg Numeral.octal ht
    | hex => exact congrArg Numeral.hex ht
    | caret => exact hd
    | pictures => exact hd

namespace Value

theorem compared_float (m : Modifiers) (options : Options) {x y : Binary64}
    (h : x.equal y = true) :
    Compared Parted (m.style = some .exponent → float x = float y)
      (.ok (m.number options (.float x))) (.ok (m.number options (.float y))) := by
  rcases Binary64.eq_or_zero_of_equal h with rfl | ⟨s, t, hz, hst, rfl, rfl⟩
  · exact .refl (fun _ => rfl) _
  · by_cases hs : m.style = some .exponent
    · refine .apart ?_ ?_
      · intro he
        cases he hs
        exact hst rfl
      · rw [Modifiers.number, Modifiers.number, hs]
        exact parted_exponent m.plus _ hz hst
    · rw [Modifiers.number, Modifiers.number, write_zero m.plus m.decimals options hs s t hz]
      exact .refl (fun he => absurd he hs) _

/-- Apart from numbers and lists of them, equal values are the same. -/
theorem eq_of_equal {v w : Value} (h : equal v w = true) (hf : ∀ x, v ≠ float x)
    (hl : ∀ vs, v ≠ list vs) : v = w := by
  cases v with
  | float x => exact absurd rfl (hf x)
  | list vs => exact absurd rfl (hl vs)
  | object o vs =>
    cases w with
    | object p ws =>
      simp only [equal, Bool.and_eq_true, decide_eq_true_eq] at h
      obtain ⟨rfl, hs⟩ := h
      rw [eq_of_sameOptional hs]
    | _ => cases h
  | _ => cases w <;> simp_all [equal]

mutual

/-- Equal values fail alike, and are written alike unless the exponent style tells them apart. -/
theorem compared_renderPlain (m : Modifiers) (options : Options) (v w : Value)
    (h : equal v w = true) :
    Compared Parted (m.style = some .exponent → v = w) (v.renderPlain m options)
      (w.renderPlain m options) := by
  match v with
  | float x =>
    cases w with
    | float y => exact compared_float m options h
    | _ => cases h
  | list vs =>
    cases w with
    | list ws =>
      have hi := compared_renderItems m options vs ws h
      have hm := hi.map (Q := Parted) (m.series "array") fun a b => parted_series m "array"
      exact hm.congr (by simp)
    | _ => cases h
  | null | bool _ | integer _ | text _ | object _ _ | handle _ =>
    rw [eq_of_equal h nofun nofun]
    exact .refl (fun _ => rfl) _

theorem compared_renderItems (m : Modifiers) (options : Options) (vs ws : List Value)
    (h : equalItems vs ws = true) :
    Compared PartedItems (m.style = some .exponent → vs = ws) (renderItems m options vs)
      (renderItems m options ws) := by
  cases vs with
  | nil =>
    cases ws with
    | nil => exact .refl (fun _ => rfl) _
    | cons w ws => cases h
  | cons v vs =>
    cases ws with
    | nil => cases h
    | cons w ws =>
      simp only [equalItems, Bool.and_eq_true] at h
      have hv := compared_renderPlain m options v w h.1
      have hvs := compared_renderItems m options vs ws h.2
      have hb := hv.both (R := PartedItems) hvs List.cons
        (fun a b c d hab hcd => .head hab (hcd.elim (congrArg List.length) PartedItems.length_eq))
        (fun a c d hcd => .tail a hcd)
      refine hb.congr ?_
      rw [← imp_and]
      simp

end

theorem isEmpty_of_equal {v w : Value} (h : equal v w = true) : v.isEmpty = w.isEmpty := by
  cases v with
  | float x =>
    cases w with
    | float y =>
      rcases Binary64.eq_or_zero_of_equal h with rfl | ⟨s, t, hz, -, rfl, rfl⟩
      · rfl
      · rfl
    | _ => cases h
  | list vs =>
    cases w with
    | list ws =>
      cases vs with
      | nil =>
        cases ws with
        | nil => rfl
        | cons w ws => cases h
      | cons v vs =>
        cases ws with
        | nil => cases h
        | cons w ws => rfl
    | _ => cases h
  | _ => rw [eq_of_equal h nofun nofun]

theorem describe_of_equal {v w : Value} (h : equal v w = true) : v.describe = w.describe := by
  cases v <;> cases w <;> simp_all [equal, describe, typeName]

end Value

end MessagePattern
