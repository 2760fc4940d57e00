import MessagePattern.Key
import MessagePattern.Value

/-!
# Arguments

A finite map from keys to values that remembers the order in which its keys
first arrived. Writing to a key that is present replaces its value in place.
-/

set_option autoImplicit false

namespace MessagePattern

abbrev Entries := List (Key × Value)

namespace Entries

def keys (entries : Entries) : List Key := entries.map Prod.fst

def find? (key : Key) : Entries → Option Value
  | [] => none
  | (k, v) :: rest => if k = key then some v else find? key rest

def write (key : Key) (value : Value) : Entries → Entries
  | [] => [(key, value)]
  | (k, v) :: rest => if k = key then (key, value) :: rest else (k, v) :: write key value rest

theorem mem_keys_write (key : Key) (value : Value) (entries : Entries) (k : Key) :
    k ∈ keys (write key value entries) ↔ k = key ∨ k ∈ keys entries := by
  induction entries with
  | nil => simp [write, keys]
  | cons e rest ih =>
    by_cases h : e.1 = key
    · simp [write, keys, h]
    · simp only [keys] at ih
      simp [write, keys, h, ih, or_left_comm]

theorem nodup_write (key : Key) (value : Value) {entries : Entries} (h : (keys entries).Nodup) :
    (keys (write key value entries)).Nodup := by
  induction entries with
  | nil => exact List.nodup_cons.mpr ⟨List.not_mem_nil, List.nodup_nil⟩
  | cons e rest ih =>
    obtain ⟨hm, hr⟩ := List.nodup_cons.mp h
    by_cases he : e.1 = key
    · rw [write, if_pos he]
      exact List.nodup_cons.mpr ⟨he ▸ hm, hr⟩
    · rw [write, if_neg he]
      refine List.nodup_cons.mpr ⟨fun hw => ?_, ih hr⟩
      exact ((mem_keys_write key value rest e.1).mp hw).elim he hm

theorem find?_write (key : Key) (value : Value) (entries : Entries) (k : Key) :
    find? k (write key value entries) = if key = k then some value else find? k entries := by
  induction entries with
  | nil => rfl
  | cons e rest ih =>
    by_cases he : e.1 = key
    · by_cases h : key = k <;> simp [write, find?, he, h]
    · by_cases hk : e.1 = k
      · have hne : ¬ key = k := fun h => he (hk.trans h.symm)
        rw [write, if_neg he, find?, find?, if_pos hk, if_pos hk, if_neg hne]
      · rw [write, if_neg he, find?, find?, if_neg hk, if_neg hk, ih]

end Entries

structure Arguments where
  entries : Entries
  distinct : entries.keys.Nodup

namespace Arguments

def empty : Arguments := ⟨[], List.nodup_nil⟩

def keys (arguments : Arguments) : List Key := arguments.entries.keys

def values (arguments : Arguments) : List Value := arguments.entries.map Prod.snd

def size (arguments : Arguments) : Nat := arguments.entries.length

def isEmpty (arguments : Arguments) : Bool := arguments.entries.isEmpty

def get? (arguments : Arguments) (key : Key) : Option Value := arguments.entries.find? key

def contains (arguments : Arguments) (key : Key) : Bool := (arguments.get? key).isSome

def insert (arguments : Arguments) (key : Key) (value : Value) : Arguments :=
  ⟨arguments.entries.write key value, Entries.nodup_write key value arguments.distinct⟩

def replace (arguments : Arguments) (key : Key) (value : Value) : Option Value × Arguments :=
  (arguments.get? key, arguments.insert key value)

def nextPosition (arguments : Arguments) : UInt64 :=
  match (arguments.keys.filterMap Key.index?).max? with
  | some n => n + 1
  | none => 0

def push (arguments : Arguments) (value : Value) : Key × Arguments :=
  let key := .index arguments.nextPosition
  (key, arguments.insert key value)

def ofPairs (pairs : List (Key × Value)) : Arguments :=
  pairs.foldl (fun arguments (key, value) => arguments.insert key value) empty

def ofValues (values : List Value) : Arguments :=
  ofPairs (values.zipIdx.map fun (value, i) => (Key.ofNat i, value))

theorem get?_insert (arguments : Arguments) (key : Key) (value : Value) (k : Key) :
    (arguments.insert key value).get? k = if key = k then some value else arguments.get? k :=
  Entries.find?_write key value arguments.entries k

end Arguments

end MessagePattern
