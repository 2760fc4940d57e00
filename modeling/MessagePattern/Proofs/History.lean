import MessagePattern.Proofs.Insertion

/-!
# The history of arguments

Whatever has been done to arguments since they were begun, they are a record of
the writes: a key stands where it was first written, with the value that was
written last. A push writes to a position that nothing has been written to.
-/

set_option autoImplicit false

namespace MessagePattern

namespace Entries

/-- The first entry of a key that is present. -/
theorem exists_split {key : Key} {entries : Entries} (h : key ∈ entries.keys) :
    ∃ before value after, entries = before ++ (key, value) :: after ∧ key ∉ keys before := by
  induction entries with
  | nil => cases h
  | cons e rest ih =>
    obtain ⟨k, w⟩ := e
    by_cases hk : k = key
    · subst hk
      exact ⟨[], w, rest, rfl, List.not_mem_nil⟩
    · obtain ⟨before, value, after, rfl, hb⟩ := ih ((List.mem_cons.mp h).resolve_left (Ne.symm hk))
      refine ⟨(k, w) :: before, value, after, rfl, ?_⟩
      intro hm
      exact (List.mem_cons.mp hm).elim (fun he => hk he.symm) hb

theorem write_append {key : Key} {before : Entries} (h : key ∉ keys before) (old value : Value)
    (after : Entries) :
    write key value (before ++ (key, old) :: after) = before ++ (key, value) :: after := by
  induction before with
  | nil => exact if_pos rfl
  | cons e before ih =>
    simp only [keys, List.map_cons, List.mem_cons, not_or] at h
    rw [List.cons_append, write, if_neg (Ne.symm h.1), ih h.2, List.cons_append]

theorem find?_append {key : Key} {before : Entries} (h : key ∉ keys before) (value : Value)
    (after : Entries) : find? key (before ++ (key, value) :: after) = some value := by
  induction before with
  | nil => exact if_pos rfl
  | cons e before ih =>
    simp only [keys, List.map_cons, List.mem_cons, not_or] at h
    rw [List.cons_append, find?, if_neg (Ne.symm h.1), ih h.2]

theorem find?_eq_none {key : Key} {entries : Entries} (h : key ∉ entries.keys) :
    find? key entries = none := by
  induction entries with
  | nil => rfl
  | cons e rest ih =>
    simp only [keys, List.map_cons, List.mem_cons, not_or] at h
    rw [find?, if_neg (Ne.symm h.1), ih h.2]

end Entries

namespace Arguments

inductive Writes (arguments : Arguments) (key : Key) (value : Value) :
    Option Value × Arguments → Prop
  | inPlace {old : Value} {written : Arguments} {before after : Entries}
      (h : arguments.entries = before ++ (key, old) :: after)
      (hw : written.entries = before ++ (key, value) :: after) :
      Writes arguments key value (some old, written)
  | behind {written : Arguments} (h : key ∉ arguments.keys)
      (hw : written.entries = arguments.entries ++ [(key, value)]) :
      Writes arguments key value (none, written)

theorem writes_replace (arguments : Arguments) (key : Key) (value : Value) :
    arguments.Writes key value (arguments.replace key value) := by
  by_cases h : key ∈ arguments.keys
  · obtain ⟨before, old, after, he, hb⟩ := Entries.exists_split h
    have hg : arguments.get? key = some old := by
      rw [get?, he]
      exact Entries.find?_append hb old after
    have hw := Entries.write_append hb old value after
    rw [← he] at hw
    rw [replace, hg]
    exact .inPlace he hw
  · have hg : arguments.get? key = none := Entries.find?_eq_none h
    rw [replace, hg]
    exact .behind h (Entries.write_of_notMem h value)

theorem mem_keys_iff (arguments : Arguments) (key : Key) :
    key ∈ arguments.keys ↔ (arguments.get? key).isSome = true := by
  constructor
  · intro h
    obtain ⟨before, value, after, he, hb⟩ := Entries.exists_split h
    rw [get?, he, Entries.find?_append hb value after]
    rfl
  · intro h
    by_contra hk
    rw [get?, Entries.find?_eq_none hk] at h
    cases h

theorem keys_insert (arguments : Arguments) (key : Key) (value : Value) :
    (arguments.insert key value).keys =
      if key ∈ arguments.keys then arguments.keys else arguments.keys ++ [key] := by
  have hw := writes_replace arguments key value
  generalize he : arguments.replace key value = result at hw
  have hi : arguments.insert key value = result.2 := congrArg Prod.snd he
  rw [hi]
  cases hw with
  | inPlace h hw =>
    have hk : key ∈ arguments.keys := by simp [keys, Entries.keys, h]
    rw [if_pos hk]
    simp [keys, Entries.keys, h, hw]
  | behind h hw =>
    rw [if_neg h]
    simp [keys, Entries.keys, hw]

theorem max?_eq_some_iff {ns : List UInt64} {m : UInt64} :
    ns.max? = some m ↔ m ∈ ns ∧ ∀ n ∈ ns, n ≤ m := by
  have : Std.LawfulOrderMax UInt64 := by
    refine { max_le_iff := ?_, max_eq_or := ?_ }
    · intro a b
      show (if a ≤ b then b else a) = a ∨ (if a ≤ b then b else a) = b
      split <;> simp
    · intro a b c
      show (if a ≤ b then b else a) ≤ c ↔ _
      split <;> simp_all only [UInt64.le_iff_toNat_le] <;> omega
  exact List.max?_eq_some_iff

theorem mem_positions (arguments : Arguments) (n : UInt64) :
    n ∈ arguments.keys.filterMap Key.index? ↔ .index n ∈ arguments.keys := by
  rw [List.mem_filterMap]
  constructor
  · rintro ⟨key, hk, hn⟩
    cases key with
    | index m =>
      cases hn
      exact hk
    | name text => cases hn
  · intro h
    exact ⟨_, h, rfl⟩

theorem nextPosition_of_none {arguments : Arguments} (h : ∀ n, .index n ∉ arguments.keys) :
    arguments.nextPosition = 0 := by
  have hn : arguments.keys.filterMap Key.index? = [] := by
    rw [List.eq_nil_iff_forall_not_mem]
    intro n hn
    exact h n ((mem_positions arguments n).mp hn)
  rw [nextPosition, hn]
  rfl

def lastPosition : UInt64 := .ofNat (UInt64.size - 1)

theorem toNat_succ {m : UInt64} (h : m ≠ lastPosition) : (m + 1).toNat = m.toNat + 1 := by
  have hm := m.toNat_lt
  have hl : m.toNat ≠ 18446744073709551615 := by
    intro he
    exact h (UInt64.toNat_inj.mp he)
  rw [UInt64.toNat_add, show (1 : UInt64).toNat = 1 from rfl]
  omega

theorem nextPosition_of_largest {arguments : Arguments} {m : UInt64}
    (hm : .index m ∈ arguments.keys) (hl : ∀ n, .index n ∈ arguments.keys → n ≤ m) :
    arguments.nextPosition = m + 1 := by
  have hx : (arguments.keys.filterMap Key.index?).max? = some m := by
    rw [max?_eq_some_iff]
    refine ⟨(mem_positions arguments m).mpr hm, ?_⟩
    intro n hn
    exact hl n ((mem_positions arguments n).mp hn)
  rw [nextPosition, hx]

/-- There is a largest position, if there is any. -/
theorem exists_largest {arguments : Arguments} {n : UInt64} (h : .index n ∈ arguments.keys) :
    ∃ m, .index m ∈ arguments.keys ∧ ∀ n, .index n ∈ arguments.keys → n ≤ m := by
  have hn := (mem_positions arguments n).mpr h
  cases hx : (arguments.keys.filterMap Key.index?).max? with
  | none =>
    rw [List.max?_eq_none_iff.mp hx] at hn
    cases hn
  | some m =>
    obtain ⟨hm, hl⟩ := max?_eq_some_iff.mp hx
    refine ⟨m, (mem_positions arguments m).mp hm, ?_⟩
    intro k hk
    exact hl k ((mem_positions arguments k).mpr hk)

structure Pushes (arguments : Arguments) (value : Value) (result : Key × Arguments) : Prop where
  first : (∀ n, .index n ∉ arguments.keys) → result.1 = .index 0
  next : ∀ m, .index m ∈ arguments.keys → (∀ n, .index n ∈ arguments.keys → n ≤ m) →
    ∃ n, result.1 = .index n ∧ n.toNat = m.toNat + 1
  fresh : result.1 ∉ arguments.keys
  entries : result.2.entries = arguments.entries ++ [(result.1, value)]
  size : result.2.size = arguments.size + 1

theorem nextPosition_fresh {arguments : Arguments} (h : .index lastPosition ∉ arguments.keys) :
    .index arguments.nextPosition ∉ arguments.keys := by
  intro hp
  obtain ⟨m, hm, hl⟩ := exists_largest hp
  have hne : m ≠ lastPosition := fun he => h (he ▸ hm)
  have hle := hl _ hp
  rw [nextPosition_of_largest hm hl, UInt64.le_iff_toNat_le, toNat_succ hne] at hle
  omega

theorem pushes_push {arguments : Arguments} (h : .index lastPosition ∉ arguments.keys)
    (value : Value) : arguments.Pushes value (arguments.push value) := by
  have hf := nextPosition_fresh h
  have he : (arguments.push value).2.entries =
      arguments.entries ++ [(.index arguments.nextPosition, value)] :=
    Entries.write_of_notMem hf value
  constructor
  · intro hn
    exact congrArg Key.index (nextPosition_of_none hn)
  · intro m hm hl
    refine ⟨m + 1, congrArg Key.index (nextPosition_of_largest hm hl), toNat_succ ?_⟩
    intro hlast
    exact h (hlast ▸ hm)
  · exact hf
  · exact he
  · simp [size, he]

inductive Operation where
  | insert (key : Key) (value : Value)
  | push (value : Value)

namespace Operation

def perform (arguments : Arguments) : Operation → Arguments
  | insert key value => (arguments.replace key value).2
  | push value => (arguments.push value).2

def written (arguments : Arguments) : Operation → Key × Value
  | insert key value => (key, value)
  | push value => ((arguments.push value).1, value)

end Operation

inductive Start where
  | empty
  | values (values : List Value)
  | pairs (pairs : List (Key × Value))

namespace Start

def arguments : Start → Arguments
  | empty => .empty
  | values vs => .ofValues vs
  | pairs ps => .ofPairs ps

def written : Start → List (Key × Value)
  | empty => []
  | values vs => vs.zipIdx.map fun (value, i) => (.ofNat i, value)
  | pairs ps => ps

end Start

def run (arguments : Arguments) (operations : List Operation) : Arguments :=
  operations.foldl Operation.perform arguments

def runWritten (arguments : Arguments) : List Operation → List (Key × Value)
  | [] => []
  | operation :: operations =>
    operation.written arguments :: runWritten (operation.perform arguments) operations

/-- The arguments are what is left of the writes: a key in the place of its first one, with the
value of its last one. -/
structure Records (log : List (Key × Value)) (arguments : Arguments) : Prop where
  keys : arguments.keys = (log.map Prod.fst).eraseDups
  get : ∀ key, arguments.get? key = log.reverse.lookup key

theorem Records.insert {log : List (Key × Value)} {arguments : Arguments}
    (h : Records log arguments) (key : Key) (value : Value) :
    Records (log ++ [(key, value)]) (arguments.insert key value) := by
  constructor
  · rw [keys_insert, h.keys, List.map_append, List.eraseDups_append]
    by_cases hk : key ∈ log.map Prod.fst
    · simp [hk, List.removeAll]
    · simp [hk, List.removeAll, List.eraseDups_cons]
  · intro k
    rw [get?_insert, h.get, List.reverse_concat, List.lookup_cons]
    by_cases hk : key = k
    · simp [hk]
    · rw [if_neg hk, beq_eq_false_iff_ne.mpr (Ne.symm hk)]

theorem records_pairs (pairs : List (Key × Value)) : Records pairs (ofPairs pairs) := by
  induction pairs using List.reverseRecOn with
  | nil => exact ⟨rfl, fun _ => rfl⟩
  | append_singleton pairs pair ih =>
    rw [ofPairs_concat]
    exact ih.insert pair.1 pair.2

theorem records_start (start : Start) : Records start.written start.arguments := by
  cases start with
  | empty => exact ⟨rfl, fun _ => rfl⟩
  | values vs => exact records_pairs _
  | pairs ps => exact records_pairs ps

theorem Records.perform {log : List (Key × Value)} {arguments : Arguments}
    (h : Records log arguments) (operation : Operation) :
    Records (log ++ [operation.written arguments]) (operation.perform arguments) := by
  cases operation with
  | insert key value => exact h.insert key value
  | push value => exact h.insert _ value

theorem Records.run {log : List (Key × Value)} {arguments : Arguments}
    (h : Records log arguments) (operations : List Operation) :
    Records (log ++ arguments.runWritten operations) (arguments.run operations) := by
  induction operations generalizing log arguments with
  | nil => simpa [runWritten, Arguments.run] using h
  | cons operation operations ih =>
    have hi := ih (h.perform operation)
    rwa [List.append_assoc] at hi

theorem mem_entries_iff (arguments : Arguments) (key : Key) (value : Value) :
    (key, value) ∈ arguments.entries ↔ arguments.get? key = some value := by
  constructor
  · intro h
    obtain ⟨before, after, he⟩ := List.append_of_mem h
    have hd := arguments.distinct
    rw [he, Entries.keys, List.map_append, List.nodup_append] at hd
    have hb : key ∉ Entries.keys before := by
      intro hm
      exact hd.2.2 key hm key (List.mem_cons_self) rfl
    rw [get?, he, Entries.find?_append hb value after]
  · intro h
    have hk : key ∈ arguments.keys := (mem_keys_iff arguments key).mpr (by rw [h]; rfl)
    obtain ⟨before, old, after, he, hb⟩ := Entries.exists_split hk
    rw [get?, he, Entries.find?_append hb old after] at h
    rw [he, Option.some.inj h]
    exact List.mem_append_right before List.mem_cons_self

theorem map_get?_keys (arguments : Arguments) :
    arguments.keys.map arguments.get? = arguments.values.map some := by
  rw [keys, Entries.keys, values, List.map_map, List.map_map]
  apply List.map_congr_left
  intro e he
  exact (mem_entries_iff arguments e.1 e.2).mp he

theorem get?_eq_none_iff {log : List (Key × Value)} {arguments : Arguments}
    (h : Records log arguments) (key : Key) :
    arguments.get? key = none ↔ ∀ value, (key, value) ∉ log := by
  have hk := mem_keys_iff arguments key
  rw [h.keys, List.mem_eraseDups] at hk
  rw [← Option.not_isSome_iff_eq_none, ← hk]
  simp

/-- After any operations the keys are in the order of their first writes, and each has the value
of its last write. Another write changes one value or adds one entry, and as long as there is a
position left, a push adds an entry one past the largest position. -/
theorem history (start : Start) (operations : List Operation) :
    let arguments := start.arguments.run operations
    let log := start.written ++ start.arguments.runWritten operations
    (arguments.keys.Nodup ∧ arguments.keys = (log.map Prod.fst).eraseDups) ∧
      (∀ key, arguments.get? key = log.reverse.lookup key) ∧
      (∀ key, arguments.get? key = none ↔ ∀ value, (key, value) ∉ log) ∧
      (∀ key, arguments.contains key = true ↔ key ∈ arguments.keys) ∧
      (∀ key value, (key, value) ∈ arguments.entries ↔ arguments.get? key = some value) ∧
      arguments.keys.map arguments.get? = arguments.values.map some ∧
      arguments.entries = arguments.keys.zip arguments.values ∧
      arguments.size = arguments.keys.length ∧
      (∀ key value, arguments.Writes key value (arguments.replace key value)) ∧
      (.index lastPosition ∉ arguments.keys →
        ∀ value, arguments.Pushes value (arguments.push value)) := by
  intro arguments log
  have h : Records log arguments := (records_start start).run operations
  refine ⟨⟨arguments.distinct, h.keys⟩, h.get, get?_eq_none_iff h, ?_, mem_entries_iff arguments,
    map_get?_keys arguments, ?_, ?_, writes_replace arguments, pushes_push⟩
  · intro key
    exact (mem_keys_iff arguments key).symm
  · exact List.zip_of_prod rfl rfl
  · simp [size, keys, Entries.keys]

-- A name of digits is no position, and a position once written to counts for good.
example : (run .empty [.insert (.name "7") .null, .push .null, .insert (.index 4) .null,
    .insert (.index 0) .null, .push .null]).keys = [.name "7", .index 0, .index 4, .index 5] := by
  decide

end Arguments

end MessagePattern
