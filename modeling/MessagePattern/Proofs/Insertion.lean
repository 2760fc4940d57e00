import Mathlib.Data.List.Induction
import MessagePattern.Arguments

/-!
# Arguments written one after the other

A key that is new goes to the end, so that pairs with different keys stand in
the arguments as they were given.
-/

set_option autoImplicit false

namespace MessagePattern

theorem Entries.write_of_notMem {key : Key} {entries : Entries} (h : key ∉ entries.keys)
    (value : Value) : entries.write key value = entries ++ [(key, value)] := by
  induction entries with
  | nil => rfl
  | cons e rest ih =>
    simp only [keys, List.map_cons, List.mem_cons, not_or] at h
    rw [write, if_neg (Ne.symm h.1), ih h.2, List.cons_append]

namespace Arguments

theorem ofPairs_concat (pairs : List (Key × Value)) (key : Key) (value : Value) :
    ofPairs (pairs ++ [(key, value)]) = (ofPairs pairs).insert key value := by
  simp [ofPairs, List.foldl_append]

theorem entries_ofPairs {pairs : List (Key × Value)} (h : (pairs.map Prod.fst).Nodup) :
    (ofPairs pairs).entries = pairs := by
  induction pairs using List.reverseRecOn with
  | nil => rfl
  | append_singleton pairs pair ih =>
    obtain ⟨key, value⟩ := pair
    simp only [List.map_append, List.map_cons, List.map_nil, List.nodup_append] at h
    have hi := ih h.1
    have hf : key ∉ (ofPairs pairs).entries.keys := by
      rw [hi]
      intro hm
      exact h.2.2 key hm key (List.mem_singleton_self key) rfl
    calc (ofPairs (pairs ++ [(key, value)])).entries
        = (ofPairs pairs).entries.write key value := by rw [ofPairs_concat]; rfl
      _ = (ofPairs pairs).entries ++ [(key, value)] := Entries.write_of_notMem hf value
      _ = pairs ++ [(key, value)] := by rw [hi]

theorem size_ofPairs {pairs : List (Key × Value)} (h : (pairs.map Prod.fst).Nodup) :
    (ofPairs pairs).size = pairs.length :=
  congrArg List.length (entries_ofPairs h)

end Arguments

end MessagePattern
