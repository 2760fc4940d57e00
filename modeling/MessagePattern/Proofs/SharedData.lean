import Mathlib.Data.List.Forall2
import MessagePattern.Data.Reading

/-!
# Data that both readings understand

Conversion refuses less than reading does, and each has a table of its own. On
the data that either can take, a value is agreed on beforehand: numbers keep
their value as far as a value can hold it, options are seen through, and
whatever has parts becomes the list of its values. Both tables give that value.
-/

set_option autoImplicit false

namespace MessagePattern.Data

def plainInteger? : Data → Option Int
  | .int8 i => some i.toInt
  | .int16 i => some i.toInt
  | .int32 i => some i.toInt
  | .int64 i => some i.toInt
  | .uint8 n => some n.toNat
  | .uint16 n => some n.toNat
  | .uint32 n => some n.toNat
  | .uint64 n => some n.toNat
  | _ => none

def fullEntry (pair : Data × Data) : MapEntry Data := ⟨some pair.1, some pair.2⟩

/-- Data without variants and failures at any depth. A key may be any of them, and its entries
need not be complete. -/
inductive Passable : Data → Prop
  | leaf {d : Data} (h : d matches .bool _ | .int8 _ | .int16 _ | .int32 _ | .int64 _ |
      .int128 _ | .uint8 _ | .uint16 _ | .uint32 _ | .uint64 _ | .uint128 _ | .float32 _ |
      .float64 _ | .char _ | .text _ | .bytes _ | .absent | .unit | .unitRecord _) : Passable d
  | present {d : Data} (h : Passable d) : Passable (.present d)
  | wrapper {name : String} {d : Data} (h : Passable d) : Passable (.wrapper name d)
  | sequence {items : List Data} (h : ∀ d ∈ items, Passable d) : Passable (.sequence items)
  | tuple {items : List Data} (h : ∀ d ∈ items, Passable d) : Passable (.tuple items)
  | tupleRecord {name : String} {items : List Data} (h : ∀ d ∈ items, Passable d) :
      Passable (.tupleRecord name items)
  | map {entries : List (MapEntry Data)}
      (hk : ∀ entry ∈ entries, ∀ d, entry.key = some d → Passable d)
      (hv : ∀ entry ∈ entries, ∀ d, entry.value = some d → Passable d) : Passable (.map entries)
  | record {name : String} {fields : List (String × Data)}
      (h : ∀ field ∈ fields, Passable field.2) : Passable (.record name fields)

/-- Data that can be converted and read: no bytes, wrappers, variants and failures, no wider
integers, and no map entry that is not complete. -/
inductive Shared : Data → Prop
  | bool (b : Bool) : Shared (.bool b)
  | integer {d : Data} {n : Int} (h : d.plainInteger? = some n) : Shared d
  | single (x : Binary64) : Shared (.float32 x)
  | double (x : Binary64) : Shared (.float64 x)
  | char (c : Char) : Shared (.char c)
  | text (s : String) : Shared (.text s)
  | absent : Shared .absent
  | present {d : Data} (h : Shared d) : Shared (.present d)
  | unit : Shared .unit
  | unitRecord (name : String) : Shared (.unitRecord name)
  | sequence {items : List Data} (h : ∀ d ∈ items, Shared d) : Shared (.sequence items)
  | tuple {items : List Data} (h : ∀ d ∈ items, Shared d) : Shared (.tuple items)
  | tupleRecord {name : String} {items : List Data} (h : ∀ d ∈ items, Shared d) :
      Shared (.tupleRecord name items)
  | map {pairs : List (Data × Data)} (hk : ∀ pair ∈ pairs, Passable pair.1)
      (hv : ∀ pair ∈ pairs, Shared pair.2) : Shared (.map (pairs.map fullEntry))
  | record {name : String} {fields : List (String × Data)}
      (h : ∀ field ∈ fields, Shared field.2) : Shared (.record name fields)

inductive Means : Data → Value → Prop
  | bool (b : Bool) : Means (.bool b) (.bool b)
  | integer {d : Data} {i : Int64} (h : d.plainInteger? = some i.toInt) : Means d (.integer i)
  | large {n : UInt64} (h : Int64.maxValue.toInt < n.toNat) :
      Means (.uint64 n) (.float (.ofInt n.toNat))
  | single (x : Binary64) : Means (.float32 x) (.float x)
  | double (x : Binary64) : Means (.float64 x) (.float x)
  | char (c : Char) : Means (.char c) (.text (String.singleton c))
  | text (s : String) : Means (.text s) (.text s)
  | absent : Means .absent .null
  | present {d : Data} {v : Value} (h : Means d v) : Means (.present d) v
  | unit : Means .unit .null
  | unitRecord (name : String) : Means (.unitRecord name) .null
  | sequence {items : List Data} {vs : List Value} (h : List.Forall₂ Means items vs) :
      Means (.sequence items) (.list vs)
  | tuple {items : List Data} {vs : List Value} (h : List.Forall₂ Means items vs) :
      Means (.tuple items) (.list vs)
  | tupleRecord {name : String} {items : List Data} {vs : List Value}
      (h : List.Forall₂ Means items vs) : Means (.tupleRecord name items) (.list vs)
  | map {pairs : List (Data × Data)} {vs : List Value}
      (h : List.Forall₂ Means (pairs.map Prod.snd) vs) :
      Means (.map (pairs.map fullEntry)) (.list vs)
  | record {name : String} {fields : List (String × Data)} {vs : List Value}
      (h : List.Forall₂ Means (fields.map Prod.snd) vs) : Means (.record name fields) (.list vs)

def Agreed (d : Data) (v : Value) : Prop :=
  d.Means v ∧ d.toValue = .ok v ∧ d.readValue = .ok v

theorem skipItems_of_forall {items : List Data} (h : ∀ d ∈ items, d.skip = .ok ()) :
    skipItems items = .ok () := by
  induction items with
  | nil => rfl
  | cons d ds ih =>
    obtain ⟨hd, hs⟩ := List.forall_mem_cons.mp h
    rw [skipItems, hd, ih hs]
    rfl

theorem skipFields_of_forall {fields : List (String × Data)}
    (h : ∀ field ∈ fields, field.2.skip = .ok ()) : skipFields fields = .ok () := by
  induction fields with
  | nil => rfl
  | cons field fields ih =>
    obtain ⟨hd, hs⟩ := List.forall_mem_cons.mp h
    rw [skipFields, hd, ih hs]
    rfl

theorem skipEntries_of_forall {entries : List (MapEntry Data)}
    (hk : ∀ entry ∈ entries, ∀ d, entry.key = some d → d.skip = .ok ())
    (hv : ∀ entry ∈ entries, ∀ d, entry.value = some d → d.skip = .ok ()) :
    skipEntries entries = .ok () := by
  induction entries with
  | nil => rfl
  | cons entry entries ih =>
    obtain ⟨key, value⟩ := entry
    obtain ⟨hd, hks⟩ := List.forall_mem_cons.mp hk
    obtain ⟨he, hvs⟩ := List.forall_mem_cons.mp hv
    cases key with
    | none =>
      cases value with
      | none => exact ih hks hvs
      | some e =>
        simp only [skipEntries, he e rfl]
        exact ih hks hvs
    | some d =>
      cases value with
      | none =>
        simp only [skipEntries, hd d rfl]
        exact ih hks hvs
      | some e =>
        simp only [skipEntries, hd d rfl, he e rfl]
        exact ih hks hvs

theorem skip_of_passable {d : Data} (h : Passable d) : d.skip = .ok () := by
  induction h with
  | @leaf d h => cases d <;> first | rfl | cases h
  | present _ ih => exact ih
  | wrapper _ ih => exact ih
  | sequence _ ih => exact skipItems_of_forall ih
  | tuple _ ih => exact skipItems_of_forall ih
  | tupleRecord _ ih => exact skipItems_of_forall ih
  | map _ _ ihk ihv => exact skipEntries_of_forall ihk ihv
  | record _ ih => exact skipFields_of_forall ih

theorem entryValues_full (pairs : List (Data × Data)) :
    entryValues (pairs.map fullEntry) = itemValues (pairs.map Prod.snd) := by
  induction pairs with
  | nil => rfl
  | cons pair pairs ih =>
    rw [List.map_cons, List.map_cons, fullEntry, entryValues, itemValues, ih]

theorem fieldValues_map (fields : List (String × Data)) :
    fieldValues fields = itemValues (fields.map Prod.snd) := by
  induction fields with
  | nil => rfl
  | cons field fields ih => rw [List.map_cons, fieldValues, itemValues, ih]

theorem readEntries_full {pairs : List (Data × Data)} (h : ∀ pair ∈ pairs, Passable pair.1) :
    readEntries (pairs.map fullEntry) = readItems (pairs.map Prod.snd) := by
  induction pairs with
  | nil => rfl
  | cons pair pairs ih =>
    obtain ⟨hp, hs⟩ := List.forall_mem_cons.mp h
    rw [List.map_cons, List.map_cons, fullEntry, readEntries, readItems, skip_of_passable hp,
      ih hs]
    rfl

theorem readFields_map (fields : List (String × Data)) :
    readFields fields = readItems (fields.map Prod.snd) := by
  induction fields with
  | nil => rfl
  | cons field fields ih => rw [List.map_cons, readFields, readItems, ih]

/-- In the signed range an unsigned number stays an integer. -/
theorem ofUInt64_of_le {n : UInt64} (h : (n.toNat : Int) ≤ Int64.maxValue.toInt) :
    Value.ofUInt64 n = .integer (.ofNat n.toNat) ∧ (Int64.ofNat n.toNat).toInt = n.toNat := by
  have hmax : Int64.maxValue.toInt = 9223372036854775807 := rfl
  have hs : (1 : Nat) <<< 63 = 9223372036854775808 := rfl
  have hlt : n.toNat < 9223372036854775808 := by omega
  constructor
  · rw [Value.ofUInt64, if_pos (by omega)]
  · exact Int64.toInt_ofNat_of_lt hlt

theorem ofUInt64_of_lt {n : UInt64} (h : Int64.maxValue.toInt < n.toNat) :
    Value.ofUInt64 n = .float (.ofInt n.toNat) := by
  have hmax : Int64.maxValue.toInt = 9223372036854775807 := rfl
  have hs : (1 : Nat) <<< 63 = 9223372036854775808 := rfl
  rw [Value.ofUInt64, if_neg (by omega)]

inductive Widened (d : Data) (n : Int) : Prop
  | integer {i : Int64} (hi : i.toInt = n) (ht : d.toValue = .ok (.integer i))
      (hr : d.readValue = .ok (.integer i))
  | large {m : UInt64} (hd : d = .uint64 m) (hm : (m.toNat : Int) = n)
      (hn : Int64.maxValue.toInt < n) (ht : d.toValue = .ok (.float (.ofInt n)))
      (hr : d.readValue = .ok (.float (.ofInt n)))

/-- The narrower unsigned numbers are integers in one table at once, and in the other after
they have been widened. -/
theorem widened_of_narrow {d : Data} {m : Nat} {n : UInt64} (hn : n.toNat = m)
    (hm : m < 1 <<< 32) (ht : d.toValue = .ok (.integer (.ofNat m)))
    (hr : d.readValue = .ok (.ofUInt64 n)) : Widened d m := by
  have hmax : Int64.maxValue.toInt = 9223372036854775807 := rfl
  have hs : (1 : Nat) <<< 32 = 4294967296 := rfl
  subst hn
  obtain ⟨he, hi⟩ := ofUInt64_of_le (n := n) (by omega)
  exact .integer hi ht (by rw [hr, he])

theorem widened_of_integer {d : Data} {n : Int} (h : d.plainInteger? = some n) :
    Widened d n := by
  have hs : (1 : Nat) <<< 32 = 4294967296 := rfl
  cases d with
  | int8 i => cases h; exact .integer i.toInt_toInt64 rfl rfl
  | int16 i => cases h; exact .integer i.toInt_toInt64 rfl rfl
  | int32 i => cases h; exact .integer i.toInt_toInt64 rfl rfl
  | int64 i => cases h; exact .integer rfl rfl rfl
  | uint8 n =>
    cases h
    have hn := n.toNat_lt
    exact widened_of_narrow n.toNat_toUInt64 (by omega) rfl rfl
  | uint16 n =>
    cases h
    have hn := n.toNat_lt
    exact widened_of_narrow n.toNat_toUInt64 (by omega) rfl rfl
  | uint32 n =>
    cases h
    have hn := n.toNat_lt
    exact widened_of_narrow n.toNat_toUInt64 (by omega) rfl rfl
  | uint64 n =>
    cases h
    rcases Int.lt_or_le Int64.maxValue.toInt n.toNat with hn | hn
    · have hv := ofUInt64_of_lt hn
      exact .large rfl rfl hn (by rw [toValue, hv]) (by rw [readValue, hv])
    · obtain ⟨hv, hi⟩ := ofUInt64_of_le hn
      exact .integer hi (by rw [toValue, hv]) (by rw [readValue, hv])
  | _ => cases h

theorem agreed_of_integer {d : Data} {n : Int} (h : d.plainInteger? = some n) :
    ∃ v, Agreed d v := by
  cases widened_of_integer h with
  | integer hi ht hr => exact ⟨_, .integer (by rw [h, hi]), ht, hr⟩
  | large hd hm hn ht hr =>
    subst hd hm
    exact ⟨_, .large hn, ht, hr⟩

theorem agreed_items {items : List Data} (h : ∀ d ∈ items, ∃ v, Agreed d v) :
    ∃ vs, List.Forall₂ Means items vs ∧ itemValues items = .ok vs ∧ readItems items = .ok vs := by
  induction items with
  | nil => exact ⟨[], .nil, rfl, rfl⟩
  | cons d ds ih =>
    obtain ⟨⟨v, hm, ht, hr⟩, hs⟩ := List.forall_mem_cons.mp h
    obtain ⟨vs, hms, hts, hrs⟩ := ih hs
    refine ⟨v :: vs, .cons hm hms, ?_, ?_⟩
    · rw [itemValues, ht, hts]
      rfl
    · rw [readItems, hr, hrs]
      rfl

/-- Data that can be both converted and read become the same value either way, and it is the
one that they mean. -/
theorem agreed_of_shared {d : Data} (h : d.Shared) :
    ∃ v, d.Means v ∧ d.toValue = .ok v ∧ d.readValue = .ok v := by
  induction h with
  | bool b => exact ⟨_, .bool b, rfl, rfl⟩
  | integer h => exact agreed_of_integer h
  | single x => exact ⟨_, .single x, rfl, rfl⟩
  | double x => exact ⟨_, .double x, rfl, rfl⟩
  | char c => exact ⟨_, .char c, rfl, rfl⟩
  | text s => exact ⟨_, .text s, rfl, rfl⟩
  | absent => exact ⟨_, .absent, rfl, rfl⟩
  | present _ ih =>
    obtain ⟨v, hm, ht, hr⟩ := ih
    exact ⟨v, .present hm, ht, hr⟩
  | unit => exact ⟨_, .unit, rfl, rfl⟩
  | unitRecord name => exact ⟨_, .unitRecord name, rfl, rfl⟩
  | sequence _ ih =>
    obtain ⟨vs, hm, ht, hr⟩ := agreed_items ih
    exact ⟨.list vs, .sequence hm, by rw [toValue, ht]; rfl, by rw [readValue, hr]; rfl⟩
  | tuple _ ih =>
    obtain ⟨vs, hm, ht, hr⟩ := agreed_items ih
    exact ⟨.list vs, .tuple hm, by rw [toValue, ht]; rfl, by rw [readValue, hr]; rfl⟩
  | tupleRecord _ ih =>
    obtain ⟨vs, hm, ht, hr⟩ := agreed_items ih
    exact ⟨.list vs, .tupleRecord hm, by rw [toValue, ht]; rfl, by rw [readValue, hr]; rfl⟩
  | map hk _ ih =>
    obtain ⟨vs, hm, ht, hr⟩ := agreed_items (List.forall_mem_map.mpr ih)
    refine ⟨.list vs, .map hm, ?_, ?_⟩
    · rw [toValue, entryValues_full, ht]
      rfl
    · rw [readValue, readEntries_full hk, hr]
      rfl
  | record _ ih =>
    obtain ⟨vs, hm, ht, hr⟩ := agreed_items (List.forall_mem_map.mpr ih)
    refine ⟨.list vs, .record hm, ?_, ?_⟩
    · rw [toValue, fieldValues_map, ht]
      rfl
    · rw [readValue, readFields_map, hr]
      rfl

/-- Below options, with the smallest number that no longer fits, and with keys that only
reading looks at. -/
def manifest : List (Data × Data) :=
  [(.bytes [0], .uint64 9223372036854775808), (.int128 (-1), .sequence [.uint64 7, .absent]),
    (.map [⟨none, some .unit⟩], .present (.record "Port" [("name", .char 'k')]))]

theorem agreed_of_shared_manifest :
    let v : Value := .list [.float (.ofInt 9223372036854775808),
      .list [.integer 7, .null], .list [.text "k"]]
    Shared (.map (manifest.map fullEntry)) ∧ Means (.map (manifest.map fullEntry)) v ∧
      (map (manifest.map fullEntry)).toValue = .ok v ∧
      (map (manifest.map fullEntry)).readValue = .ok v := by
  intro v
  have hk : ∀ pair ∈ manifest, Passable pair.1 := by
    simp only [manifest, List.forall_mem_cons]
    exact ⟨.leaf rfl, .leaf rfl, .map (by simp) (by simpa using .leaf rfl), List.forall_mem_nil _⟩
  have hs : Shared (.sequence [.uint64 7, .absent]) := by
    refine .sequence ?_
    simp only [List.forall_mem_cons]
    exact ⟨.integer rfl, .absent, List.forall_mem_nil _⟩
  have hr : Shared (.record "Port" [("name", .char 'k')]) :=
    .record (List.forall_mem_singleton.mpr (.char 'k'))
  have hv : ∀ pair ∈ manifest, Shared pair.2 := by
    simp only [manifest, List.forall_mem_cons]
    exact ⟨.integer rfl, hs, .present hr, List.forall_mem_nil _⟩
  have ht : (map (manifest.map fullEntry)).toValue = .ok v := by with_unfolding_all rfl
  obtain ⟨w, hm, hw, hread⟩ := agreed_of_shared (.map hk hv)
  cases hw.symm.trans ht
  exact ⟨.map hk hv, hm, ht, hread⟩

end MessagePattern.Data
