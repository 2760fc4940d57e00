import Mathlib.Data.Nat.Find
import MessagePattern.Proofs.DataFaults
import MessagePattern.Proofs.SharedData
import MessagePattern.Proofs.TemplateFormat

/-!
# Integer keys

An integer in the place of a key stands for its decimal text. It is known as an
integer only as far as the signed 64-bit range goes: a larger one has become a
double by the time it is taken for a key, and is refused.
-/

set_option autoImplicit false

namespace MessagePattern

theorem isKeyChar_of_mem_toDigits {n : Nat} {c : Char} (h : c ∈ Nat.toDigits 10 n) :
    Placeholder.isKeyChar c = true :=
  Template.isKeyChar_of_isDigit (Nat.isDigit_of_mem_toDigits (by decide) (by decide) h)

theorem toDigits_injective {m n : Nat} (h : Nat.toDigits 10 m = Nat.toDigits 10 n) : m = n := by
  have hm := @Nat.ofDigitChars_ten_toDigits m
  rw [h, Nat.ofDigitChars_ten_toDigits] at hm
  exact hm.symm

theorem minus_notMem_toDigits (n : Nat) : '-' ∉ Nat.toDigits 10 n := by
  intro h
  exact absurd (Nat.isDigit_of_mem_toDigits (by decide) (by decide) h) (by decide)

theorem toString_injective {m n : Int} (h : toString m = toString n) : m = n := by
  have hnat : ∀ k : Nat, (toString (Int.ofNat k)).toList = Nat.toDigits 10 k :=
    fun _ => String.toList_ofList
  have hneg : ∀ k : Nat, (toString (Int.negSucc k)).toList = '-' :: Nat.toDigits 10 (k + 1) := by
    intro k
    rw [Key.toString_negSucc, String.toList_ofList]
  have hl := congrArg String.toList h
  cases m with
  | ofNat m =>
    rw [hnat] at hl
    cases n with
    | ofNat n =>
      rw [hnat] at hl
      rw [toDigits_injective hl]
    | negSucc n =>
      rw [hneg] at hl
      exact absurd (hl ▸ List.mem_cons_self) (minus_notMem_toDigits m)
  | negSucc m =>
    rw [hneg] at hl
    cases n with
    | ofNat n =>
      rw [hnat] at hl
      exact absurd (hl ▸ List.mem_cons_self) (minus_notMem_toDigits n)
    | negSucc n =>
      rw [hneg] at hl
      have hd := toDigits_injective (List.cons.inj hl).2
      omega

/-- Different integers are different keys. -/
theorem Key.parse_toString_injective {m n : Int}
    (h : parse (toString m) = parse (toString n)) : m = n :=
  toString_injective (parse_injective h)

theorem Key.parse_eq_name {text s : String} (h : parse text = .name s) : s = text := by
  have hw := congrArg write h
  rw [write_parse] at hw
  exact (String.toList_injective hw).symm

/-- A text of key characters is a key that a placeholder can be written with. -/
theorem printableKey_parse {text : List Char} (hn : text ≠ [])
    (hc : ∀ c ∈ text, Placeholder.isKeyChar c = true) :
    Template.printableKey (some (.parse (String.ofList text))) = true := by
  cases h : Key.parse (String.ofList text) with
  | index n => rfl
  | name s =>
    obtain rfl := Key.parse_eq_name h
    simp [Template.printableKey, h, List.all_eq_true.mpr hc, List.isEmpty_eq_false_iff.mpr hn]

theorem printableKey_integer (n : Int) :
    Template.printableKey (some (.parse (toString n))) = true := by
  cases n with
  | ofNat n => exact printableKey_parse Nat.toDigits_ne_nil fun c => isKeyChar_of_mem_toDigits
  | negSucc n =>
    rw [Key.toString_negSucc]
    apply printableKey_parse (List.cons_ne_nil _ _)
    intro c hc
    rcases List.mem_cons.mp hc with rfl | hc
    · rfl
    · exact isKeyChar_of_mem_toDigits hc

def braced (text : String) : String := "\x7b" ++ text ++ "\x7d"

namespace Placeholder

def plain (key : Key) : Placeholder := { key := some key }

theorem write_plain (text : String) :
    String.ofList (plain (.parse text)).write = braced text := by
  apply String.toList_injective
  simp [plain, braced, write, writeKey, writeDecimals, writeStyle, writeConjunction, Key.write_parse]

theorem wellFormed_plain (n : Int) :
    (Template.Part.token (plain (.parse (toString n)))).wellFormed = true := by
  simp only [Template.Part.wellFormed, plain, Bool.and_eq_true]
  exact ⟨⟨printableKey_integer n, rfl⟩, rfl⟩

/-- An integer in braces is a placeholder for the key with that text. -/
theorem parseAt_integer (n : Int) :
    ∃ t, parseAt? (braced (toString n)) 0 = some t ∧
      t.placeholder.key = some (.parse (toString n)) := by
  have ho : open? false ((plain (.parse (toString n))).write ++ []) = some (plain _, []) :=
    Template.open_printed (wellFormed_plain n) (by simp) (by simp)
  rw [List.append_nil] at ho
  rw [← write_plain, parseAt?, String.toList_ofList, openAt?, ho]
  exact ⟨_, rfl, rfl⟩

end Placeholder

/-- A message that is nothing but a placeholder for an integer is the value with that key. -/
theorem format_integer {arguments : Arguments} {n : Int} {v : Value}
    (h : arguments.get? (.parse (toString n)) = some v) (options : Options) :
    format (braced (toString n)) arguments options =
      (v.render {} options).map (String.ofList ∘ Escape.collapse) := by
  let p := Placeholder.plain (.parse (toString n))
  have hw : Template.wellFormed [.part (.token p)] = true := by
    rw [Template.wellFormed, List.all_cons, List.all_nil, Bool.and_true]
    exact Placeholder.wellFormed_plain n
  have hp : Template.print [.part (.token p)] = p.write := List.append_nil _
  have hf : p.fill arguments options (p.keyAt 0) = v.render {} options := by
    show Placeholder.fill arguments options p (.parse (toString n)) = _
    rw [Placeholder.fill, h]
    rfl
  have he : Template.evaluate arguments options 0 [.part (.token p)] =
      (v.render {} options).map fun text => [.rendered text] := by
    simp only [Template.evaluate, Template.fillParts, hf]
    cases v.render {} options <;> rfl
  rw [← Placeholder.write_plain, format, String.toList_ofList, ← hp,
    Template.formatText_print hw, he]
  cases v.render {} options <;> rfl

namespace Data

def integer? (d : Data) : Option Int := d.core.plainInteger?

/-- An integer is an integer as a value, or it is too large and becomes a double. -/
theorem toValue_of_integer {d : Data} {n : Int} (h : d.integer? = some n) :
    (n ≤ Int64.maxValue.toInt ∧ ∃ i, d.toValue = .ok (.integer i) ∧ i.toInt = n) ∨
      (Int64.maxValue.toInt < n ∧ ∃ x, d.toValue = .ok (.float x)) := by
  have hmax : Int64.maxValue.toInt = 9223372036854775807 := rfl
  rw [← toValue_core]
  cases widened_of_integer h with
  | @integer i hi ht _ =>
    have hlt := i.toInt_lt
    exact .inl ⟨by omega, i, ht, hi⟩
  | large _ _ hn ht _ => exact .inr ⟨hn, _, ht⟩

/-- An integer that is a key is the key with its text. -/
theorem key_of_integer {d : Data} {n : Int} {v : Value} {key : Key} (h : d.integer? = some n)
    (hv : d.toValue = .ok v) (hk : v.key? = some key) : key = .parse (toString n) := by
  rcases toValue_of_integer h with ⟨-, i, hi, rfl⟩ | ⟨-, x, hx⟩
  · cases hv.symm.trans hi
    cases hk
    rfl
  · cases hv.symm.trans hx
    cases hk

theorem isKey_of_integer {d : Data} {n : Int} (h : d.integer? = some n) :
    d.IsKey ↔ n ≤ Int64.maxValue.toInt := by
  rw [isKey_iff]
  rcases toValue_of_integer h with ⟨hn, i, hi, rfl⟩ | ⟨hn, x, hx⟩
  · simp [hi, Value.key?, hn]
  · simp [hx, Value.key?, hn]

def lastInteger? (before : List Part) : Option Int := (lastKey before).bind integer?

def GivenAt (ps : List Part) (i : Nat) (n : Int) (d : Data) : Prop :=
  ps[i]? = some (.value d) ∧ lastInteger? (ps.take i) = some n

def GivenLast (ps : List Part) (n : Int) (d : Data) : Prop :=
  ∃ i, GivenAt ps i n d ∧ ∀ j e, i < j → ¬ GivenAt ps j n e

theorem givenAt_append {ps : List Part} {i : Nat} (h : i < ps.length) (qs : List Part) (n : Int)
    (d : Data) : GivenAt (ps ++ qs) i n d ↔ GivenAt ps i n d := by
  rw [GivenAt, List.getElem?_append_left h, List.take_append_of_le_length (Nat.le_of_lt h)]
  rfl

theorem givenAt_length (ps : List Part) (p : Part) (n : Int) (d : Data) :
    GivenAt (ps ++ [p]) ps.length n d ↔ p = .value d ∧ lastInteger? ps = some n := by
  simp [GivenAt]

theorem lt_of_givenAt {ps : List Part} {i : Nat} {n : Int} {d : Data} (h : GivenAt ps i n d) :
    i < ps.length :=
  (List.getElem?_eq_some_iff.mp h.1).1

/-- The last value of all is the last for its integer; for other integers it makes no difference. -/
theorem givenLast_concat {ps : List Part} {p : Part} {n : Int} {d : Data}
    (h : GivenLast (ps ++ [p]) n d) :
    (p = .value d ∧ lastInteger? ps = some n) ∨
      (GivenLast ps n d ∧ ∀ e, p = .value e → lastInteger? ps ≠ some n) := by
  obtain ⟨i, hi, hl⟩ := h
  have hlt := lt_of_givenAt hi
  rw [List.length_append, List.length_singleton] at hlt
  rcases Nat.lt_or_ge i ps.length with hlt | hge
  · refine .inr ⟨⟨i, (givenAt_append hlt [p] n d).mp hi, ?_⟩, ?_⟩
    · intro j e hj hg
      exact hl j e hj ((givenAt_append (lt_of_givenAt hg) [p] n e).mpr hg)
    · intro e he hn
      exact hl ps.length e hlt ((givenAt_length ps p n e).mpr ⟨he, hn⟩)
  · obtain rfl : i = ps.length := by omega
    exact .inl ((givenAt_length ps p n d).mp hi)

theorem mem_of_lastKey {ps : List Part} {k : Data} (h : lastKey ps = some k) : .key k ∈ ps := by
  obtain ⟨p, hp, hk⟩ := List.mem_filterMap.mp (List.mem_of_getLast? h)
  cases p <;> cases hk
  exact hp

structure IntegerKeyed (ps : List Part) : Prop where
  halves : ∀ p ∈ ps, (∃ k, p = .key k) ∨ ∃ d, p = .value d
  keys : ∀ k, .key k ∈ ps → ∃ n, k.integer? = some n

theorem IntegerKeyed.init {ps qs : List Part} (h : IntegerKeyed (ps ++ qs)) : IntegerKeyed ps :=
  ⟨fun p hp => h.halves p (List.mem_append_left qs hp),
    fun k hk => h.keys k (List.mem_append_left qs hk)⟩

theorem IntegerKeyed.key_eq {ps : List Part} {p : Part} {d : Data} {key : Key}
    (h : IntegerKeyed (ps ++ [p])) (hp : p.content? = some d) (ha : Address ps p key) :
    p = .value d ∧ ∃ n, lastInteger? ps = some n ∧ key = .parse (toString n) := by
  rcases h.halves p (by simp) with ⟨k, rfl⟩ | ⟨e, rfl⟩
  · cases hp
  · cases hp
    cases ha with
    | value hl hv hk =>
      obtain ⟨n, hn⟩ := h.init.keys _ (mem_of_lastKey hl)
      exact ⟨rfl, n, by rw [lastInteger?, hl]; exact hn, key_of_integer hn hv hk⟩

/-- Behind any number of parts, each integer has the value last given for it. -/
theorem get?_of_keyed {ps : List Part} {pairs : List (Key × Value)} (h : Keyed ps pairs)
    (hi : IntegerKeyed ps) {n : Int} {d : Data} {v : Value} (hg : GivenLast ps n d)
    (hv : d.toValue = .ok v) : (Arguments.ofPairs pairs).get? (.parse (toString n)) = some v := by
  induction h with
  | nil =>
    obtain ⟨i, hi, -⟩ := hg
    simpa using lt_of_givenAt hi
  | key h k ih =>
    rcases givenLast_concat hg with ⟨hp, -⟩ | ⟨hg, -⟩
    · cases hp
    · exact ih hi.init hg
  | @content ps pairs p e key w h hp hw ha ih =>
    obtain ⟨rfl, m, hm, rfl⟩ := hi.key_eq hp ha
    rw [Arguments.ofPairs_concat, Arguments.get?_insert]
    rcases givenLast_concat hg with ⟨hd, hn⟩ | ⟨hg, hne⟩
    · cases hd
      cases hm.symm.trans hn
      cases hw.symm.trans hv
      rw [if_pos rfl]
    · -- a value for another integer goes to another key and leaves the one for `n`
      have hmn : m ≠ n := fun h => hne e rfl (h ▸ hm)
      rw [if_neg fun h => hmn (Key.parse_toString_injective h), ih hi.init hg]

/-- An integer that is given a value at all is given a last one. -/
theorem exists_givenLast {ps : List Part} {i : Nat} {n : Int} {d : Data}
    (h : GivenAt ps i n d) : ∃ last, GivenLast ps n last := by
  classical
  let Given := fun j => ∃ e, GivenAt ps j n e
  have hi : i ≤ ps.length := Nat.le_of_lt (lt_of_givenAt h)
  have hs : Given (Nat.findGreatest Given ps.length) := Nat.findGreatest_spec hi ⟨d, h⟩
  obtain ⟨last, hl⟩ := hs
  refine ⟨last, _, hl, ?_⟩
  intro j e hj hg
  exact Nat.findGreatest_is_greatest hj (Nat.le_of_lt (lt_of_givenAt hg)) ⟨e, hg⟩

structure Lands (arguments : Arguments) (n : Int) (v : Value) : Prop where
  found : arguments.get? (.parse (toString n)) = some v
  text : (Data.text (toString n)).keyOf = .ok (.parse (toString n))
  placeholder : ∃ t, Placeholder.parseAt? (braced (toString n)) 0 = some t ∧
    t.placeholder.key = some (.parse (toString n))
  message : ∀ options, format (braced (toString n)) arguments options =
    (v.render {} options).map (String.ofList ∘ Escape.collapse)

theorem lands_of_get? {arguments : Arguments} {n : Int} {v : Value}
    (h : arguments.get? (.parse (toString n)) = some v) : Lands arguments n v :=
  ⟨h, rfl, Placeholder.parseAt_integer n, format_integer h⟩

/-- Only a key out of range or a missing key can be wrong. -/
theorem IntegerKeyed.fault {ps before : List Part} {p : Part} {e : Error} (h : IntegerKeyed ps)
    (hv : ∀ d, .value d ∈ ps → d.Converts) (hp : p ∈ ps) (hf : Fault before p e) :
    e = .custom "argument keys must be strings or integers, found float" ∨
      e = .custom "serialize_value called without serialize_key" := by
  rcases h.halves p hp with ⟨k, rfl⟩ | ⟨d, rfl⟩
  · obtain ⟨n, hn⟩ := h.keys k hp
    rcases toValue_of_integer hn with ⟨-, i, hi, -⟩ | ⟨-, x, hx⟩
    · cases hf with
      | key he => cases hi.symm.trans he
      | unsuited hw hk =>
        cases hi.symm.trans hw
        cases hk
    · cases hf with
      | key he => cases hx.symm.trans he
      | unsuited hw hk =>
        cases hx.symm.trans hw
        exact .inl rfl
  · cases hf with
    | keyless d hn => exact .inr rfl
    | value hw he => exact absurd he (converts_iff.mp (hv d hp) e)

/-- A map with integers for keys and values that convert becomes arguments exactly if no key is
above the signed 64-bit range and no value is without a key. Then the last value for each integer
lands where the integer leads. -/
theorem toArguments_integer_keys {entries : List (MapEntry Data)}
    (hk : ∀ k, .key k ∈ mapParts entries → ∃ n, k.integer? = some n)
    (hv : ∀ d, .value d ∈ mapParts entries → d.Converts) :
    ((∃ arguments, (map entries).toArguments = .ok arguments) ↔
        (∀ k n, .key k ∈ mapParts entries → k.integer? = some n → n ≤ Int64.maxValue.toInt) ∧
          ∀ i d, (mapParts entries)[i]? = some (.value d) → Waiting ((mapParts entries).take i)) ∧
      (∀ arguments n d, (map entries).toArguments = .ok arguments →
        GivenLast (mapParts entries) n d → ∃ v, d.toValue = .ok v ∧ Lands arguments n v) ∧
      (∀ i n d, GivenAt (mapParts entries) i n d → ∃ last, GivenLast (mapParts entries) n last) ∧
      ∀ e, (map entries).toArguments = .error e →
        e = .custom "argument keys must be strings or integers, found float" ∨
          e = .custom "serialize_value called without serialize_key" := by
  have hi : IntegerKeyed (mapParts entries) := ⟨fun p => mem_mapParts, hk⟩
  refine ⟨?_, ?_, fun i n d => exists_givenLast, ?_⟩
  · rw [toArguments_isOk rfl, allSound_mapParts]
    constructor
    · intro h
      exact ⟨fun k n hm hn => (isKey_of_integer hn).mp (h.keys k hm), h.keyed⟩
    · rintro ⟨hr, hw⟩
      refine ⟨?_, hw, hv⟩
      intro k hm
      obtain ⟨n, hn⟩ := hk k hm
      exact (isKey_of_integer hn).mpr (hr k n hm hn)
  · intro arguments n d ht hg
    obtain ⟨pairs, hp, rfl⟩ := keyed_of_toArguments rfl ht
    have hm : .value d ∈ mapParts entries := by
      obtain ⟨i, hd, -⟩ := hg
      exact List.mem_of_getElem? hd.1
    obtain ⟨v, hw⟩ := hv d hm
    exact ⟨v, hw, lands_of_get? (get?_of_keyed hp hi hg hw)⟩
  · intro e ht
    obtain ⟨i, ⟨p, hp, hf⟩, -⟩ := (toArguments_eq_error rfl).mp ht
    exact hi.fault hv (List.mem_of_getElem? hp) hf

/-- Two keys are one integer in two widths. -/
def seats : List (MapEntry Data) :=
  [⟨some (.uint8 7), some (.text "a")⟩, ⟨some (.int8 (-3)), some (.bool true)⟩,
    ⟨some (.int64 7), some (.text "b")⟩]

theorem toArguments_integer_keys_seats :
    let arguments : Arguments := .ofPairs [(.index 7, .text "b"), (.name "-3", .bool true)]
    (∀ k, .key k ∈ mapParts seats → ∃ n, k.integer? = some n) ∧
      (∀ d, .value d ∈ mapParts seats → d.Converts) ∧
      (map seats).toArguments = .ok arguments ∧ Lands arguments 7 (.text "b") ∧
      Lands arguments (-3) (.bool true) := by
  intro arguments
  have hk : ∀ k, .key k ∈ mapParts seats → ∃ n, k.integer? = some n := by
    simp [mapParts, seats, entryParts, integer?, core, plainInteger?]
  have hv : ∀ d, .value d ∈ mapParts seats → d.Converts := by
    simp [mapParts, seats, entryParts, Converts, toValue]
  have ha : (map seats).toArguments = .ok arguments := by with_unfolding_all rfl
  have hseven : GivenLast (mapParts seats) 7 (.text "b") := by
    refine ⟨5, ⟨rfl, rfl⟩, ?_⟩
    intro j e hj hg
    have hlt : j < 6 := lt_of_givenAt hg
    omega
  have hthree : GivenLast (mapParts seats) (-3) (.bool true) := by
    refine ⟨3, ⟨rfl, rfl⟩, ?_⟩
    intro j e hj hg
    have hlt : j < 6 := lt_of_givenAt hg
    obtain rfl | rfl : j = 4 ∨ j = 5 := by omega
    · cases hg.1
    · cases hg.2
  have hfound := (toArguments_integer_keys hk hv).2.1 arguments
  obtain ⟨v, hb, hseven⟩ := hfound 7 _ ha hseven
  obtain ⟨w, hw, hthree⟩ := hfound (-3) _ ha hthree
  cases hb
  cases hw
  exact ⟨hk, hv, ha, hseven, hthree⟩

/-- Full pairs of an integer and a value that converts are not enough. -/
theorem toArguments_integer_keys_too_large :
    ¬ ∀ entries : List (MapEntry Data),
      (∀ entry ∈ entries, ∃ k n d, entry = ⟨some k, some d⟩ ∧ k.integer? = some n ∧ d.Converts) →
        ∃ arguments, (map entries).toArguments = .ok arguments := by
  intro h
  let large : MapEntry Data := ⟨some (.uint64 9223372036854775808), some (.text "a")⟩
  have hl : ∀ entry ∈ [large],
      ∃ k n d, entry = ⟨some k, some d⟩ ∧ k.integer? = some n ∧ d.Converts := by
    intro entry he
    cases List.mem_singleton.mp he
    exact ⟨_, _, _, rfl, rfl, _, rfl⟩
  obtain ⟨arguments, ha⟩ := h [large] hl
  have hr : (map [large]).toArguments =
      .error (.custom "argument keys must be strings or integers, found float") := by
    with_unfolding_all rfl
  cases ha.symm.trans hr

end Data

end MessagePattern
