import MessagePattern.Proofs.KeyedData

/-!
# Faults of data

Data fail to become arguments because their shape has no keys, or because of
one of their parts. The first part at fault, in the order in which parts are
handed over, gives the reason, whatever comes behind it.
-/

set_option autoImplicit false

namespace MessagePattern.Data

theorem keyOf_eq_error {d : Data} {e : Error} :
    d.keyOf = .error e ↔ d.toValue = .error e ∨ ∃ v, d.toValue = .ok v ∧ v.key? = none ∧
      e = .custom ("argument keys must be strings or integers, found " ++ v.typeName) := by
  have hv : ∀ v : Value, Key.ofValue v = .error e ↔ v.key? = none ∧
      e = .custom ("argument keys must be strings or integers, found " ++ v.typeName) := by
    intro v
    cases v <;> simp [Key.ofValue, Value.key?, eq_comm]
  simp only [keyOf, bind_eq_error, hv]

inductive Fault (before : List Part) : Part → Error → Prop
  | item {d : Data} {e : Error} (h : d.toValue = .error e) : Fault before (.item d) e
  | field (name : String) {d : Data} {e : Error} (h : d.toValue = .error e) :
      Fault before (.field name d) e
  | key {d : Data} {e : Error} (h : d.toValue = .error e) : Fault before (.key d) e
  | unsuited {d : Data} {v : Value} (h : d.toValue = .ok v) (hk : v.key? = none) :
      Fault before (.key d)
        (.custom ("argument keys must be strings or integers, found " ++ v.typeName))
  | keyless (d : Data) (h : ¬ Waiting before) :
      Fault before (.value d) (.custom "serialize_value called without serialize_key")
  | value {d : Data} {e : Error} (hw : Waiting before) (h : d.toValue = .error e) :
      Fault before (.value d) e

/-- A collection that remembers the keys rightly fails at a part exactly for what is wrong
with it. -/
theorem take_eq_error {before : List Part} {c : Collection} {p : Part} {e : Error}
    (hm : Remembers before c.pending) : c.take p = .error e ↔ Fault before p e := by
  cases p with
  | item d =>
    have ht : c.take (.item d) = .error e ↔ d.toValue = .error e := map_eq_error
    rw [ht]
    exact ⟨.item, fun h => by cases h; assumption⟩
  | field name d =>
    have ht : c.take (.field name d) = .error e ↔ d.toValue = .error e := map_eq_error
    rw [ht]
    exact ⟨.field name, fun h => by cases h; assumption⟩
  | key d =>
    have ht : c.take (.key d) = .error e ↔ d.keyOf = .error e := map_eq_error
    rw [ht, keyOf_eq_error]
    constructor
    · rintro (h | ⟨v, hv, hk, rfl⟩)
      · exact .key h
      · exact .unsuited hv hk
    · intro h
      cases h with
      | key h => exact .inl h
      | unsuited hv hk => exact .inr ⟨_, hv, hk, rfl⟩
  | value d =>
    have hw := hm.waiting_iff
    rw [Collection.take]
    cases hp : c.pending with
    | none =>
      have hn : ¬ Waiting before := fun h => hw.mp h hp
      constructor
      · intro h
        cases h
        exact .keyless d hn
      · intro h
        cases h with
        | keyless d hn => rfl
        | value h he => exact absurd h hn
    | some key =>
      have hy : Waiting before := hw.mpr (by simp [hp])
      have ht : (d.toValue >>= fun v => pure (⟨c.arguments.insert key v, none⟩ : Collection)) =
          .error e ↔ d.toValue = .error e := map_eq_error
      simp only [ht]
      constructor
      · exact .value hy
      · intro h
        cases h with
        | keyless d hn => exact absurd hy hn
        | value h he => exact he

theorem Fault.unique {before : List Part} {p : Part} {e e' : Error} (h : Fault before p e)
    (h' : Fault before p e') : e = e' := by
  cases h <;> cases h' <;> simp_all

def FaultAt (ps : List Part) (i : Nat) (e : Error) : Prop :=
  ∃ p, ps[i]? = some p ∧ Fault (ps.take i) p e

def FirstFault (ps : List Part) (e : Error) : Prop :=
  ∃ i, FaultAt ps i e ∧ ∀ j e', j < i → ¬ FaultAt ps j e'

theorem lt_of_faultAt {ps : List Part} {i : Nat} {e : Error} (h : FaultAt ps i e) :
    i < ps.length := by
  obtain ⟨p, hp, -⟩ := h
  exact (List.getElem?_eq_some_iff.mp hp).1

/-- What comes behind a part does not change what is wrong with it. -/
theorem faultAt_append {ps : List Part} {i : Nat} {e : Error} (h : i < ps.length)
    (qs : List Part) : FaultAt (ps ++ qs) i e ↔ FaultAt ps i e := by
  rw [FaultAt, List.getElem?_append_left h, List.take_append_of_le_length (Nat.le_of_lt h)]
  rfl

theorem faultAt_length {ps : List Part} {p : Part} {e : Error} :
    FaultAt (ps ++ [p]) ps.length e ↔ Fault ps p e := by
  simp [FaultAt]

theorem FirstFault.unique {ps : List Part} {e e' : Error} (h : FirstFault ps e)
    (h' : FirstFault ps e') : e = e' := by
  obtain ⟨i, ⟨p, hp, hf⟩, hi⟩ := h
  obtain ⟨j, ⟨q, hq, hg⟩, hj⟩ := h'
  rcases Nat.lt_trichotomy i j with hlt | rfl | hlt
  · exact absurd ⟨p, hp, hf⟩ (hj i e hlt)
  · cases hp.symm.trans hq
    exact hf.unique hg
  · exact absurd ⟨q, hq, hg⟩ (hi j e' hlt)

theorem no_fault_of_collect {ps : List Part} {c : Collection} (h : collect ps = .ok c) :
    ∀ i e, ¬ FaultAt ps i e := by
  induction ps using List.reverseRecOn generalizing c with
  | nil => exact fun i e hf => by simpa using lt_of_faultAt hf
  | append_singleton ps p ih =>
    rw [collect_concat] at h
    obtain ⟨c₀, hc, ht⟩ := bind_eq_ok.mp h
    intro i e hf
    have hi := lt_of_faultAt hf
    rw [List.length_append, List.length_singleton] at hi
    rcases Nat.lt_or_ge i ps.length with hlt | hge
    · exact ih hc i e ((faultAt_append hlt [p]).mp hf)
    · obtain rfl : i = ps.length := by omega
      have he := (take_eq_error (remembers_collect hc)).mpr (faultAt_length.mp hf)
      rw [ht] at he
      cases he

theorem firstFault_of_collect {ps : List Part} {e : Error} (h : collect ps = .error e) :
    FirstFault ps e := by
  induction ps using List.reverseRecOn with
  | nil => cases h
  | append_singleton ps p ih =>
    rw [collect_concat] at h
    -- either an earlier part has failed, or all are fine up to the last
    rcases bind_eq_error.mp h with hc | ⟨c, hc, ht⟩
    · obtain ⟨i, hf, hb⟩ := ih hc
      have hi := lt_of_faultAt hf
      refine ⟨i, (faultAt_append hi [p]).mpr hf, ?_⟩
      intro j e' hj hg
      exact hb j e' hj ((faultAt_append (by omega) [p]).mp hg)
    · have hf := (take_eq_error (remembers_collect hc)).mp ht
      refine ⟨ps.length, faultAt_length.mpr hf, ?_⟩
      intro j e' hj hg
      exact no_fault_of_collect hc j e' ((faultAt_append hj [p]).mp hg)

/-- Collecting fails for the first part at fault. -/
theorem collect_eq_error {ps : List Part} {e : Error} :
    collect ps = .error e ↔ FirstFault ps e := by
  constructor
  · exact firstFault_of_collect
  · intro h
    cases hc : collect ps with
    | error e' => rw [(firstFault_of_collect hc).unique h]
    | ok c =>
      obtain ⟨i, hf, -⟩ := h
      exact absurd hf (no_fault_of_collect hc i e)

theorem collect_isOk {ps : List Part} :
    (∃ c, collect ps = .ok c) ↔ ∀ i e, ¬ FaultAt ps i e := by
  constructor
  · intro h
    obtain ⟨c, hc⟩ := h
    exact no_fault_of_collect hc
  · intro h
    cases hc : collect ps with
    | ok c => exact ⟨c, rfl⟩
    | error e =>
      obtain ⟨i, hf, -⟩ := firstFault_of_collect hc
      exact absurd hf (h i e)

def Converts (d : Data) : Prop := ∃ v, d.toValue = .ok v

def IsKey (d : Data) : Prop :=
  (∃ s, d.toValue = .ok (.text s)) ∨ ∃ i, d.toValue = .ok (.integer i)

theorem converts_iff {d : Data} : d.Converts ↔ ∀ e, d.toValue ≠ .error e := by
  cases h : d.toValue <;> simp [Converts, h]

theorem isKey_iff {d : Data} : d.IsKey ↔ ∃ v, d.toValue = .ok v ∧ v.key? ≠ none := by
  constructor
  · rintro (⟨s, h⟩ | ⟨i, h⟩)
    · exact ⟨_, h, by simp [Value.key?]⟩
    · exact ⟨_, h, by simp [Value.key?]⟩
  · rintro ⟨v, h, hk⟩
    cases v with
    | text s => exact .inl ⟨s, h⟩
    | integer i => exact .inr ⟨i, h⟩
    | _ => exact absurd rfl hk

def Part.Sound (before : List Part) : Part → Prop
  | .item d | .field _ d => d.Converts
  | .key d => d.IsKey
  | .value d => Waiting before ∧ d.Converts

theorem sound_iff {before : List Part} {p : Part} :
    p.Sound before ↔ ∀ e, ¬ Fault before p e := by
  cases p with
  | item d =>
    exact converts_iff.trans (forall_congr' fun e => not_congr
      ⟨.item, fun h => by cases h; assumption⟩)
  | field name d =>
    exact converts_iff.trans (forall_congr' fun e => not_congr
      ⟨.field name, fun h => by cases h; assumption⟩)
  | key d =>
    constructor
    · intro h e hf
      obtain ⟨v, hv, hk⟩ := isKey_iff.mp h
      cases hf with
      | key he => cases hv.symm.trans he
      | unsuited hw hn =>
        cases hv.symm.trans hw
        exact hk hn
    · intro h
      obtain ⟨v, hv⟩ := converts_iff.mpr fun e he => h e (.key he)
      exact isKey_iff.mpr ⟨v, hv, fun hk => h _ (.unsuited hv hk)⟩
  | value d =>
    constructor
    · intro h e hf
      cases hf with
      | keyless d hn => exact hn h.1
      | value hw he => exact converts_iff.mp h.2 e he
    · intro h
      have hw : Waiting before := Classical.byContradiction fun hn => h _ (.keyless d hn)
      exact ⟨hw, converts_iff.mpr fun e he => h e (.value hw he)⟩

def AllSound (ps : List Part) : Prop :=
  ∀ (i : Nat) (p : Part), ps[i]? = some p → p.Sound (ps.take i)

theorem allSound_iff {ps : List Part} : AllSound ps ↔ ∀ i e, ¬ FaultAt ps i e := by
  constructor
  · intro h i e hf
    obtain ⟨p, hp, hf⟩ := hf
    exact sound_iff.mp (h i p hp) e hf
  · intro h i p hp
    exact sound_iff.mpr fun e hf => h i e ⟨p, hp, hf⟩

theorem allSound_items {items : List Data} :
    AllSound (items.map .item) ↔ ∀ d ∈ items, d.Converts := by
  constructor
  · intro h d hd
    obtain ⟨i, hi⟩ := List.getElem?_of_mem hd
    exact h i (.item d) (by simp [hi])
  · intro h i p hp
    rw [List.getElem?_map, Option.map_eq_some_iff] at hp
    obtain ⟨d, hd, rfl⟩ := hp
    exact h d (List.mem_of_getElem? hd)

theorem allSound_fields {fields : List (String × Data)} :
    AllSound (fieldParts fields) ↔ ∀ f ∈ fields, f.2.Converts := by
  constructor
  · intro h f hf
    obtain ⟨i, hi⟩ := List.getElem?_of_mem hf
    exact h i (.field f.1 f.2) (by simp [fieldParts, hi])
  · intro h i p hp
    rw [fieldParts, List.getElem?_map, Option.map_eq_some_iff] at hp
    obtain ⟨f, hf, rfl⟩ := hp
    exact h f (List.mem_of_getElem? hf)

structure SoundMap (ps : List Part) : Prop where
  keys : ∀ k, .key k ∈ ps → k.IsKey
  keyed : ∀ i d, ps[i]? = some (.value d) → Waiting (ps.take i)
  values : ∀ d, .value d ∈ ps → d.Converts

theorem allSound_mapParts {entries : List (MapEntry Data)} :
    AllSound (mapParts entries) ↔ SoundMap (mapParts entries) := by
  constructor
  · intro h
    refine ⟨?_, fun i d hd => (h i _ hd).1, ?_⟩
    · intro k hk
      obtain ⟨i, hi⟩ := List.getElem?_of_mem hk
      exact h i _ hi
    · intro d hd
      obtain ⟨i, hi⟩ := List.getElem?_of_mem hd
      exact (h i _ hi).2
  · intro h i p hp
    have hm := List.mem_of_getElem? hp
    rcases mem_mapParts hm with ⟨k, rfl⟩ | ⟨d, rfl⟩
    · exact h.keys k hm
    · exact ⟨h.keyed i d hp, h.values d hm⟩

inductive Accepted : Data → Prop
  | absent : Accepted .absent
  | unit : Accepted .unit
  | unitRecord (name : String) : Accepted (.unitRecord name)
  | sequence {items : List Data} (h : ∀ d ∈ items, d.Converts) : Accepted (.sequence items)
  | tuple {items : List Data} (h : ∀ d ∈ items, d.Converts) : Accepted (.tuple items)
  | tupleRecord (name : String) {items : List Data} (h : ∀ d ∈ items, d.Converts) :
      Accepted (.tupleRecord name items)
  | map {entries : List (MapEntry Data)} (h : SoundMap (mapParts entries)) :
      Accepted (.map entries)
  | record (name : String) {fields : List (String × Data)} (h : ∀ f ∈ fields, f.2.Converts) :
      Accepted (.record name fields)

theorem accepted_of_parts {d : Data} {ps : List Part} (h : d.parts? = some ps) :
    Accepted d ↔ AllSound ps := by
  cases d with
  | sequence items =>
    cases h
    exact ⟨fun h => by cases h with | sequence h => exact allSound_items.mpr h,
      fun h => .sequence (allSound_items.mp h)⟩
  | tuple items =>
    cases h
    exact ⟨fun h => by cases h with | tuple h => exact allSound_items.mpr h,
      fun h => .tuple (allSound_items.mp h)⟩
  | tupleRecord name items =>
    cases h
    exact ⟨fun h => by cases h with | tupleRecord _ h => exact allSound_items.mpr h,
      fun h => .tupleRecord name (allSound_items.mp h)⟩
  | map entries =>
    cases h
    exact ⟨fun h => by cases h with | map h => exact allSound_mapParts.mpr h,
      fun h => .map (allSound_mapParts.mp h)⟩
  | record name fields =>
    cases h
    exact ⟨fun h => by cases h with | record _ h => exact allSound_fields.mpr h,
      fun h => .record name (allSound_fields.mp h)⟩
  | _ => cases h

def keylessKind? : Data → Option String
  | .bool _ => some "bool"
  | .int8 _ | .int16 _ | .int32 _ | .int64 _ => some "integer"
  | .uint8 _ | .uint16 _ | .uint32 _ | .uint64 _ => some "integer"
  | .float32 _ | .float64 _ => some "float"
  | .char _ => some "char"
  | .text _ => some "string"
  | .bytes _ => some "bytes"
  | .unitVariant .. => some "unit variant"
  | .tupleVariant .. => some "tuple variant"
  | .recordVariant .. => some "struct variant"
  | _ => none

inductive Refused : Data → String → Prop
  | int128 (i : Int) : Refused (.int128 i) "i128 is not supported"
  | uint128 (n : Nat) : Refused (.uint128 n) "u128 is not supported"
  | failure (reason : String) : Refused (.failure reason) reason
  | part {d : Data} {ps : List Part} {reason : String} (hp : d.parts? = some ps)
      (h : FirstFault ps (.custom reason)) : Refused d reason

theorem Fault.custom {before : List Part} {p : Part} {e : Error} (h : Fault before p e) :
    ∃ reason, e = .custom reason := by
  cases h with
  | item h => exact custom_of_toValue _ h
  | field name h => exact custom_of_toValue _ h
  | key h => exact custom_of_toValue _ h
  | unsuited h hk => exact ⟨_, rfl⟩
  | keyless d h => exact ⟨_, rfl⟩
  | value hw h => exact custom_of_toValue _ h

theorem FirstFault.custom {ps : List Part} {e : Error} (h : FirstFault ps e) :
    ∃ reason, e = .custom reason := by
  obtain ⟨i, ⟨p, -, hf⟩, -⟩ := h
  exact hf.custom

theorem toArguments_isOk {d : Data} {ps : List Part} (h : d.parts? = some ps) :
    (∃ arguments, d.toArguments = .ok arguments) ↔ AllSound ps := by
  simp [toArguments_of_parts h, map_eq_ok, allSound_iff, ← collect_isOk]

theorem toArguments_eq_error {d : Data} {ps : List Part} {e : Error} (h : d.parts? = some ps) :
    d.toArguments = .error e ↔ FirstFault ps e := by
  rw [toArguments_of_parts h, map_eq_error, collect_eq_error]

theorem Accepted.toArguments {d : Data} (h : Accepted d) :
    ∃ arguments, d.toArguments = .ok arguments := by
  cases hp : d.parts? with
  | some ps => exact (toArguments_isOk hp).mpr ((accepted_of_parts hp).mp h)
  | none =>
    cases h with
    | absent => exact ⟨_, rfl⟩
    | unit => exact ⟨_, rfl⟩
    | unitRecord name => exact ⟨_, rfl⟩
    | _ => cases hp

theorem toArguments_of_keylessKind {d : Data} {what : String} (h : d.keylessKind? = some what) :
    d.toArguments = .error (.unsupportedArguments what) := by
  cases d <;> cases h <;> rfl

theorem Refused.toArguments {d : Data} {reason : String} (h : Refused d reason) :
    d.toArguments = .error (.custom reason) := by
  cases h with
  | int128 i => rfl
  | uint128 n => rfl
  | failure reason => rfl
  | part hp hf => exact (toArguments_eq_error hp).mpr hf

theorem outcome_cases {d : Data} (hb : d.isLayer = false) :
    d.Accepted ∨ (∃ what, d.keylessKind? = some what) ∨ ∃ reason, d.Refused reason := by
  cases hp : d.parts? with
  | some ps =>
    cases ht : d.toArguments with
    | ok arguments => exact .inl ((accepted_of_parts hp).mpr ((toArguments_isOk hp).mp ⟨_, ht⟩))
    | error e =>
      have hf := (toArguments_eq_error hp).mp ht
      obtain ⟨reason, rfl⟩ := hf.custom
      exact .inr (.inr ⟨reason, .part hp hf⟩)
  | none =>
    cases d with
    | absent => exact .inl .absent
    | unit => exact .inl .unit
    | unitRecord name => exact .inl (.unitRecord name)
    | int128 i => exact .inr (.inr ⟨_, .int128 i⟩)
    | uint128 n => exact .inr (.inr ⟨_, .uint128 n⟩)
    | failure reason => exact .inr (.inr ⟨_, .failure reason⟩)
    | present content => cases hb
    | wrapper name content => cases hb
    | wrapperVariant type variant content => cases hb
    | sequence items => cases hp
    | tuple items => cases hp
    | tupleRecord name items => cases hp
    | map entries => cases hp
    | record name fields => cases hp
    | _ => exact .inr (.inl ⟨_, rfl⟩)

theorem accepted_of_toArguments {d : Data} {arguments : Arguments} (hb : d.isLayer = false)
    (h : d.toArguments = .ok arguments) : d.Accepted := by
  rcases outcome_cases hb with ha | ⟨what, hk⟩ | ⟨reason, hr⟩
  · exact ha
  · cases h.symm.trans (toArguments_of_keylessKind hk)
  · cases h.symm.trans hr.toArguments

theorem keylessKind_of_toArguments {d : Data} {what : String} (hb : d.isLayer = false)
    (h : d.toArguments = .error (.unsupportedArguments what)) : d.keylessKind? = some what := by
  rcases outcome_cases hb with ha | ⟨kind, hk⟩ | ⟨reason, hr⟩
  · obtain ⟨arguments, ha⟩ := ha.toArguments
    cases h.symm.trans ha
  · cases h.symm.trans (toArguments_of_keylessKind hk)
    exact hk
  · cases h.symm.trans hr.toArguments

theorem refused_of_toArguments {d : Data} {reason : String} (hb : d.isLayer = false)
    (h : d.toArguments = .error (.custom reason)) : d.Refused reason := by
  rcases outcome_cases hb with ha | ⟨kind, hk⟩ | ⟨reason', hr⟩
  · obtain ⟨arguments, ha⟩ := ha.toArguments
    cases h.symm.trans ha
  · cases h.symm.trans (toArguments_of_keylessKind hk)
  · cases h.symm.trans hr.toArguments
    exact hr

theorem error_of_toArguments {d : Data} {e : Error} (hb : d.isLayer = false)
    (h : d.toArguments = .error e) :
    (∃ what, e = .unsupportedArguments what) ∨ ∃ reason, e = .custom reason := by
  rcases outcome_cases hb with ha | ⟨what, hk⟩ | ⟨reason, hr⟩
  · obtain ⟨arguments, ha⟩ := ha.toArguments
    cases h.symm.trans ha
  · cases h.symm.trans (toArguments_of_keylessKind hk)
    exact .inl ⟨what, rfl⟩
  · cases h.symm.trans hr.toArguments
    exact .inr ⟨reason, rfl⟩

/-- Every outcome of making arguments. Data are accepted exactly if they are nothing or all
their parts are in order; scalars and variants are unsupported; and in all other cases the
reason lies in the data, in the first part at fault if there are parts. -/
theorem toArguments_outcomes (d : Data) :
    ((∃ arguments, d.toArguments = .ok arguments) ↔ d.core.Accepted) ∧
      (d.core = .absent ∨ d.core = .unit ∨ (∃ name, d.core = .unitRecord name) →
        d.toArguments = .ok .empty) ∧
      (∀ what, d.toArguments = .error (.unsupportedArguments what) ↔
        d.core.keylessKind? = some what) ∧
      (∀ reason, d.toArguments = .error (.custom reason) ↔ d.core.Refused reason) ∧
      ∀ e, d.toArguments = .error e →
        (∃ what, e = .unsupportedArguments what) ∨ ∃ reason, e = .custom reason := by
  have hb := isLayer_core d
  rw [← toArguments_core]
  generalize d.core = d at hb ⊢
  refine ⟨⟨?_, Accepted.toArguments⟩, ?_,
    fun what => ⟨keylessKind_of_toArguments hb, toArguments_of_keylessKind⟩,
    fun reason => ⟨refused_of_toArguments hb, Refused.toArguments⟩,
    fun e => error_of_toArguments hb⟩
  · rintro ⟨arguments, h⟩
    exact accepted_of_toArguments hb h
  · rintro (rfl | rfl | ⟨name, rfl⟩)
    · rfl
    · rfl
    · rfl

/-- The second key is at fault before its value is. -/
example :
    (map [⟨some (.text "a"), some .unit⟩,
        ⟨some (.bool true), some (.failure "late")⟩]).toArguments =
      .error (.custom "argument keys must be strings or integers, found bool") := by
  rfl

end MessagePattern.Data
