import MessagePattern.Proofs.ControlNotations
import MessagePattern.Proofs.DecimalNumerals
import MessagePattern.Proofs.JoinedSeries
import MessagePattern.Proofs.RenderingFaults

/-!
# Control characters in whole values

Under a notation for control characters no text in a value shows one, whether it
is the value itself or comes from an object, and at any depth. All that is
written around the texts is free of them as well, if the parts that the message
chooses are.
-/

set_option autoImplicit false

namespace MessagePattern
open ControlText

def Clean (text : List Char) : Prop := ∀ c ∈ text, isControl c = false

instance (text : List Char) : Decidable (Clean text) :=
  List.decidableBAll _ text

namespace Clean

variable {s t : List Char} {c : Char}

theorem nil : Clean [] := by simp [Clean]

theorem append_iff : Clean (s ++ t) ↔ Clean s ∧ Clean t := List.forall_mem_append

theorem cons_iff : Clean (c :: s) ↔ isControl c = false ∧ Clean s := List.forall_mem_cons

theorem of_isDigit (h : ∀ c ∈ s, c.isDigit = true) : Clean s := by
  intro c hc
  obtain ⟨hlo, hhi⟩ := Char.isDigit_iff_toNat.mp (h c hc)
  have hz : '0'.toNat = 48 := rfl
  have hn : '9'.toNat = 57 := rfl
  simp only [isControl, Bool.or_eq_false_iff, decide_eq_false_iff_not, beq_eq_false_iff_ne]
  omega

end Clean

structure Tidy (m : Modifiers) (options : Options) (names : List String) : Prop where
  conjunction : ∀ word, m.conjunction = some word → Clean word.toList
  point : isControl options.decimalPoint = false
  separator : ∀ c, options.thousandsSeparator = some c → isControl c = false
  name : ∀ name ∈ names, Clean name.toList

section

variable {m : Modifiers} {options : Options} {names : List String}

theorem clean_sign (plus negative nonNegative : Bool) :
    Clean (Numeral.sign plus negative nonNegative) := by
  cases plus <;> cases negative <;> cases nonNegative <;>
    simp [Numeral.sign, Clean, isControl]

theorem clean_grouped {separator : Char} {digits : List Char} (hs : isControl separator = false)
    (hd : Clean digits) : Clean (Numeral.grouped separator digits) := by
  induction digits with
  | nil => exact Clean.nil
  | cons d ds ih =>
    rw [Clean.cons_iff] at hd
    rw [Numeral.grouped]
    split <;> simp [Clean.cons_iff, hd.1, hs, ih hd.2]

theorem Tidy.write (h : Tidy m options names) (places n : Nat) :
    Clean ((Numeral.Digits.ofNat places n).write options) := by
  have hw := Clean.of_isDigit (Numeral.canonical_whole places n).isDigit
  have hf := Clean.of_isDigit (Numeral.isDigit_fraction places n)
  rw [Numeral.write_eq, Clean.append_iff]
  constructor
  · cases hs : options.thousandsSeparator with
    | none => exact hw
    | some separator => exact clean_grouped (h.separator separator hs) hw
  · split
    · exact Clean.nil
    · exact Clean.cons_iff.mpr ⟨h.point, hf⟩

theorem Tidy.decimal (h : Tidy m options names) (plus : Bool) (places : Nat) (n : Number) :
    Clean (n.decimal plus places options) := by
  cases n with
  | integer i => exact Clean.append_iff.mpr ⟨clean_sign _ _ _, h.write _ _⟩
  | float x =>
    rw [Number.decimal, Numeral.decimalOfFloat]
    split
    · simp [Clean, isControl]
    · exact Clean.append_iff.mpr ⟨clean_sign _ _ _, by simp [Clean, isControl]⟩
    · exact Clean.append_iff.mpr ⟨clean_sign _ _ _, h.write _ _⟩

theorem apply_append (style : Option Style) (s t : List Char) :
    apply style (s ++ t) = apply style s ++ apply style t := by
  cases style with
  | none => rfl
  | some style => cases style <;> simp [apply]

/-- A character that can be seen stays where it is. -/
theorem apply_cons {style : Option Style} {c : Char} (hc : isControl c = false) (s : List Char) :
    apply style (c :: s) = c :: apply style s := by
  cases style with
  | none => rfl
  | some style =>
    cases style <;> simp [apply, caret_of_not_isControl hc, picture_of_not_isControl hc]

theorem sublist_apply (style : Option Style) (text : List Char) :
    (text.filter fun c => !isControl c).Sublist (apply style text) := by
  induction text with
  | nil => exact List.nil_sublist _
  | cons c text ih =>
    cases hc : isControl c with
    | false =>
      rw [List.filter_cons_of_pos (by simp [hc]), apply_cons hc]
      exact ih.cons_cons c
    | true =>
      have ha : apply style (c :: text) = apply style [c] ++ apply style text :=
        apply_append style [c] text
      rw [List.filter_cons_of_neg (by simp [hc]), ha]
      exact ih.trans (List.sublist_append_right _ _)

theorem clean_caret (c : Char) : Clean (caret c) := by
  cases hc : isControl c with
  | false => simp [caret_of_not_isControl hc, Clean, hc]
  | true =>
    rcases isControl_cases hc with hlt | hdel
    · have hn : (Char.ofNat (c.toNat + 0x40)).toNat = c.toNat + 0x40 := toNat_ofNat (by omega)
      have hl : isControl (Char.ofNat (c.toNat + 0x40)) = false := by
        simp only [isControl, hn, Bool.or_eq_false_iff, decide_eq_false_iff_not,
          beq_eq_false_iff_ne]
        omega
      rw [caret_of_lt hlt]
      exact Clean.cons_iff.mpr ⟨rfl, Clean.cons_iff.mpr ⟨hl, Clean.nil⟩⟩
    · simp [caret_of_delete hdel, Clean, isControl]

theorem clean_picture (c : Char) : isControl (picture c) = false := by
  cases hc : isControl c with
  | false => rw [picture_of_not_isControl hc, hc]
  | true =>
    rcases isControl_cases hc with hlt | hdel
    · have hn : (Char.ofNat (c.toNat + 0x2400)).toNat = c.toNat + 0x2400 := toNat_ofNat (by omega)
      rw [picture_of_lt hlt]
      simp only [isControl, hn, Bool.or_eq_false_iff, decide_eq_false_iff_not, beq_eq_false_iff_ne]
      omega
    · rw [picture_of_delete hdel]
      decide

theorem clean_apply {style : Option Style} (h : style = some .caret ∨ style = some .pictures)
    (text : List Char) : Clean (apply style text) := by
  rcases h with rfl | rfl
  · simpa [Clean, apply_caret] using fun d c _ => clean_caret c d
  · simpa [Clean, apply_pictures] using fun c _ => clean_picture c

end

namespace Value

def shown? : Value → Option String
  | .text s => some s
  | .object about items =>
    match about.chosen items with
    | some (.display own) => some (String.join own.pieces)
    | some (.text (.done s)) => some s
    | _ => none
  | _ => none

def texts (v : Value) : List String := v.ends.filterMap shown?

mutual

def typeNames : Value → List String
  | .list items => itemTypeNames items
  | .object about none => [about.typeName]
  | .object about (some items) => about.typeName :: itemTypeNames items
  | _ => []

def itemTypeNames : List Value → List String
  | [] => []
  | v :: vs => typeNames v ++ itemTypeNames vs

end

variable {v : Value} {label : String} {items : List Value}

theorem texts_leaf (h : v.series? = none) : v.texts = v.shown?.toList := by
  rw [texts, ends_leaf h]
  cases hs : v.shown? <;> simp [hs]

theorem texts_series (h : v.series? = some (label, items)) : v.texts = items.flatMap texts := by
  rw [texts, ends_series h, List.filterMap_flatMap]
  rfl

theorem itemTypeNames_eq_flatMap (items : List Value) :
    itemTypeNames items = items.flatMap typeNames := by
  induction items with
  | nil => rfl
  | cons v items ih => rw [itemTypeNames, ih, List.flatMap_cons]

/-- The label of a list is fixed; any other label is a type name. -/
theorem label_mem (h : v.series? = some (label, items)) :
    label = "array" ∨ label ∈ v.typeNames := by
  cases v with
  | list own =>
    cases h
    exact .inl rfl
  | object about offered =>
    obtain ⟨rfl, hc⟩ := series?_object_eq_some.mp h
    cases Object.chooses_iff.mpr hc
    exact .inr List.mem_cons_self
  | _ => cases h

theorem typeNames_subset (h : v.series? = some (label, items)) {w : Value} (hw : w ∈ items) :
    w.typeNames ⊆ v.typeNames := by
  intro name hn
  have hi : name ∈ itemTypeNames items := by
    rw [itemTypeNames_eq_flatMap]
    exact List.mem_flatMap.mpr ⟨w, hw, hn⟩
  cases v with
  | list own =>
    cases h
    exact hi
  | object about offered =>
    cases Object.chooses_iff.mpr (series?_object_eq_some.mp h).2
    exact List.mem_cons_of_mem _ hi
  | _ => cases h

end Value

inductive InOrder : List (List Char) → List Char → Prop
  | nil (rest : List Char) : InOrder [] rest
  | cons (gap piece : List Char) {pieces : List (List Char)} {rest : List Char}
      (h : InOrder pieces rest) : InOrder (piece :: pieces) (gap ++ piece ++ rest)

namespace InOrder

variable {ps qs : List (List Char)} {s t : List Char}

theorem behind (gap : List Char) (h : InOrder ps s) : InOrder ps (gap ++ s) := by
  cases h with
  | nil => exact .nil _
  | cons inner piece h => simpa using InOrder.cons (gap ++ inner) piece h

theorem append (h : InOrder ps s) (h' : InOrder qs t) : InOrder (ps ++ qs) (s ++ t) := by
  induction h with
  | nil rest => exact h'.behind rest
  | cons gap piece _ ih => simpa using InOrder.cons gap piece ih

end InOrder

/-- A property of texts and of the shown texts that they are made of. It holds of all that goes into
the text of a value, and of parts put together. -/
structure Carries (m : Modifiers) (options : Options) (names : List String)
    (Q : List (List Char) → List Char → Prop) : Prop where
  append : ∀ {ps qs s t}, Q ps s → Q qs t → Q (ps ++ qs) (s ++ t)
  fixed : ∀ {t}, Clean t → Q [] t
  conjunction : ∀ word, m.conjunction = some word → Q [] word.toList
  name : ∀ name ∈ names, Q [] name.toList
  number : ∀ n, Q [] (m.number options n)
  text : ∀ s, Q [m.text s] (m.text s)

theorem carries_inOrder (m : Modifiers) (options : Options) (names : List String) :
    Carries m options names InOrder where
  append h h' := h.append h'
  fixed _ := .nil _
  conjunction _ _ := .nil _
  name _ _ := .nil _
  number _ := .nil _
  text s := by simpa using InOrder.cons [] (m.text s) (.nil [])

theorem carries_clean {m : Modifiers} {options : Options} {names : List String}
    (ht : Tidy m options names) (hs : m.style = some .caret ∨ m.style = some .pictures) :
    Carries m options names fun _ t => Clean t where
  append h h' := Clean.append_iff.mpr ⟨h, h'⟩
  fixed h := h
  conjunction := ht.conjunction
  name := ht.name
  number n := by
    have hn : m.number options n = n.decimal m.plus (min m.decimals Number.maxPlaces) options := by
      rcases hs with hs | hs <;> rw [Modifiers.number, hs] <;> rfl
    exact hn ▸ ht.decimal _ _ n
  text s := clean_apply hs s.toList

namespace Carries
open Series

variable {m : Modifiers} {options : Options} {names : List String}
  {Q : List (List Char) → List Char → Prop} (hQ : Carries m options names Q)
  {pss : List (List (List Char))} {items : List (List Char)}
include hQ

theorem behind {gap s : List Char} {ps : List (List Char)} (hg : Q [] gap) (h : Q ps s) :
    Q ps (gap ++ s) := by
  simpa using hQ.append hg h

theorem comma : Q [] comma := hQ.fixed (by simp [Series.comma, Clean, isControl])

theorem space {ps : List (List Char)} {s : List Char} (h : Q ps s) : Q ps (' ' :: s) := by
  have hs : Q [] [' '] := hQ.fixed (by simp [Clean, isControl])
  exact hQ.behind hs h

theorem intercalate (h : List.Forall₂ Q pss items) :
    Q pss.flatten (Series.comma.intercalate items) := by
  induction h with
  | nil => exact hQ.fixed Clean.nil
  | cons hs h ih =>
    cases h with
    | nil => simpa using hs
    | cons _ _ =>
      rw [List.intercalate_cons_cons, List.append_assoc, List.flatten_cons]
      exact hQ.append hs (hQ.behind hQ.comma ih)

theorem led (h : List.Forall₂ Q pss items) :
    List.Forall₂ Q pss (led m.conjunction items) := by
  induction h with
  | nil => cases m.conjunction <;> exact .nil
  | cons hs h ih =>
    cases h with
    | nil =>
      cases hc : m.conjunction with
      | none => exact .cons hs .nil
      | some word => exact .cons (hQ.behind (hQ.conjunction word hc) (hQ.space hs)) .nil
    | cons hs' h' =>
      rw [led_cons_cons]
      exact .cons hs ih

theorem joined {label : String} (hl : Q [] label.toList) (h : List.Forall₂ Q pss items) :
    Q pss.flatten (joined label m.conjunction items) := by
  have hi := hQ.intercalate (hQ.led h)
  cases h with
  | nil =>
    have he : Q [] ("empty ".toList ++ label.toList) :=
      hQ.behind (hQ.fixed (by simp [Clean, isControl])) hl
    cases m.conjunction <;> exact he
  | @cons ps s _ _ hs h =>
    cases h with
    | nil =>
      have hp : Q [ps].flatten s := by simpa using hs
      cases m.conjunction <;> exact hp
    | @cons qs t _ _ ht h =>
      cases h with
      | nil =>
        cases hc : m.conjunction with
        | none =>
          rw [hc] at hi
          exact hi
        | some word =>
          have hw := hQ.behind (hQ.conjunction word hc) (hQ.space ht)
          have hp := hQ.append hs (hQ.space hw)
          rw [joined_pair, List.append_assoc, List.cons_append]
          simpa using hp
      | cons _ _ =>
        cases hc : m.conjunction <;> rw [hc] at hi <;> exact hi

theorem leaf {v : Value} (h : v.series? = none) {text : List Char}
    (hr : v.renderPlain m options = .ok text) : Q (v.shown?.toList.map m.text) text := by
  cases v with
  | null =>
    cases hr
    exact hQ.fixed (by simp [Clean, isControl])
  | bool b =>
    cases hr
    exact hQ.fixed (by cases b <;> simp [Clean, isControl])
  | integer i =>
    cases hr
    exact hQ.number _
  | float x =>
    cases hr
    exact hQ.number _
  | text s =>
    cases hr
    exact hQ.text s
  | list items => cases h
  | object about offered =>
    rw [Value.renderPlain_object] at hr
    cases hc : about.chosen offered with
    | none =>
      rw [hc] at hr
      cases hr
    | some conversion =>
      simp only [hc] at hr
      rw [Value.shown?, hc]
      cases conversion with
      | display own =>
        rw [Conversion.render] at hr
        split at hr
        · cases hr
        · cases hr
          exact hQ.text _
      | text result =>
        obtain ⟨s, hs, rfl⟩ := map_eq_ok.mp hr
        cases result <;> cases hs
        exact hQ.text s
      | items own => simp [Value.series?, hc] at h
      | integer result =>
        obtain ⟨i, -, rfl⟩ := map_eq_ok.mp hr
        exact hQ.number _
      | float result =>
        obtain ⟨x, -, rfl⟩ := map_eq_ok.mp hr
        exact hQ.number _
  | handle h => cases hr

/-- What holds of the parts of a value holds of its text. -/
theorem renderPlain (v : Value) (hn : ∀ name ∈ v.typeNames, name ∈ names) {text : List Char}
    (hr : v.renderPlain m options = .ok text) : Q (v.texts.map m.text) text := by
  induction v using Value.series_induction generalizing text with
  | leaf v h =>
    rw [Value.texts_leaf h]
    exact hQ.leaf h hr
  | series v label items h ih =>
    rw [Value.renderPlain_series m options h, map_eq_ok] at hr
    obtain ⟨texts, hm, rfl⟩ := hr
    have hlabel : Q [] label.toList := by
      rcases Value.label_mem h with rfl | hmem
      · exact hQ.fixed (by simp [Clean, isControl])
      · exact hQ.name label (hn label hmem)
    have hitems : List.Forall₂ Q (items.map fun w => w.texts.map m.text) texts := by
      rw [List.forall₂_map_left_iff]
      refine forall₂_imp_mem ?_ (mapM_eq_ok.mp hm)
      intro w hw text hr
      exact ih w hw (fun name hmem => hn name (Value.typeNames_subset h hw hmem)) hr
    have hflat : v.texts.map m.text = (items.map fun w => w.texts.map m.text).flatten := by
      rw [Value.texts_series h, List.map_flatMap, List.flatMap]
    rw [series_eq_joined, hflat]
    exact hQ.joined hlabel hitems

end Carries

namespace Value

/-- Under a notation for control characters a written value shows its texts in order, and
each of them keeps all that can be seen in its order. If the message adds no control characters of
its own, there are none. -/
theorem render_visible (m : Modifiers) (options : Options) (v : Value) (text : List Char)
    (hs : m.style = some .caret ∨ m.style = some .pictures) (hq : m.isTypeQuery = false)
    (hr : v.render m options = .ok text) :
    (Tidy m options v.typeNames → Clean text) ∧
      InOrder (v.texts.map m.text) text ∧
      ∀ s ∈ v.texts, (s.toList.filter fun c => !isControl c).Sublist (m.text s) := by
  have hp : v.renderPlain m options = .ok text := by simpa [render, hq] using hr
  refine ⟨fun ht => ?_, ?_, fun s _ => sublist_apply m.style s.toList⟩
  · exact (carries_clean ht hs).renderPlain v (fun _ h => h) hp
  · exact (carries_inOrder m options v.typeNames).renderPlain v (fun _ h => h) hp

/-- A bell in a text, a delete character in what an object displays, and an escape character in a
text that an object in a list converts to. An object without items shows its name. -/
def telegram : Value :=
  .list [.text "a\x07b", .object ⟨1, "Card", some ⟨["x", "\x7f"], false⟩, none, none, none⟩ none,
    .list [.integer 1234, .object ⟨2, "Note", none, some (.done "\x1bü"), none, none⟩ none],
    .object ⟨3, "Bag", none, none, none, none⟩ (some [])]

def carets : Modifiers := { style := some .caret, conjunction := some "and" }

theorem render_visible_telegram :
    let text := "a^Gb, x^?, 1,234 and ^[ü, and empty Bag".toList
    carets.isTypeQuery = false ∧ telegram.render carets .standard = .ok text ∧
      Tidy carets .standard telegram.typeNames ∧ Clean text ∧
      InOrder ["a^Gb".toList, "x^?".toList, "^[ü".toList] text ∧
      "a\x07b" ∈ telegram.texts ∧ ['a', 'b'].Sublist (carets.text "a\x07b") := by
  intro text
  have hq : carets.isTypeQuery = false := by decide
  have hr : telegram.render carets .standard = .ok text := rfl
  have ht : Tidy carets .standard telegram.typeNames := by
    refine ⟨?_, rfl, ?_, by decide +kernel⟩
    · rintro word ⟨⟩
      decide +kernel
    · rintro c ⟨⟩
      rfl
  obtain ⟨hclean, horder, hkept⟩ := render_visible carets .standard telegram text (.inl rfl) hq hr
  have hmem : "a\x07b" ∈ telegram.texts := by decide
  exact ⟨hq, hr, ht, hclean ht, horder, hmem, hkept _ hmem⟩

end Value

end MessagePattern
