import Mathlib.Data.List.Nodup
import MessagePattern.Proofs.Collecting
import MessagePattern.Proofs.Insertion
import MessagePattern.Proofs.Keys

/-!
# Keyed data

Data that become arguments become a value as well, and both hold the same
values in the same order. The key of each is told by its place: an item is
counted, a field is named, and a value in a map belongs to the key that came
last before it.
-/

set_option autoImplicit false

namespace MessagePattern

def Value.key? : Value → Option Key
  | .text s => some (.parse s)
  | .integer i => some (.parse (toString i.toInt))
  | _ => none

theorem Key.ofInt_toInt (i : Int64) : Key.ofInt i.toInt = .parse (toString i.toInt) := by
  have h := i.toInt_lt
  exact Key.ofInt_eq_parse (by simp only [UInt64.size]; omega)

theorem Key.ofValue_eq_ok {v : Value} {key : Key} :
    Key.ofValue v = .ok key ↔ v.key? = some key := by
  cases v <;> simp [Key.ofValue, Value.key?, Key.ofInt_toInt]

namespace Data

theorem keyOf_eq_ok {d : Data} {key : Key} :
    d.keyOf = .ok key ↔ ∃ v, d.toValue = .ok v ∧ v.key? = some key := by
  simp only [keyOf, bind_eq_ok, Key.ofValue_eq_ok]

/-- The key of a part with a value, told by the parts before it. Items are counted from zero
as far as positions go. -/
inductive Address (before : List Part) : Part → Key → Prop
  | item {d : Data} {key : Key}
      (h : before.length < UInt64.size → key = .index (.ofNat before.length)) :
      Address before (.item d) key
  | field (name : String) (d : Data) : Address before (.field name d) (.parse name)
  | value {d k : Data} {v : Value} {key : Key} (hl : lastKey before = some k)
      (hv : k.toValue = .ok v) (hk : v.key? = some key) : Address before (.value d) key

inductive Keyed : List Part → List (Key × Value) → Prop
  | nil : Keyed [] []
  | key {ps : List Part} {pairs : List (Key × Value)} (h : Keyed ps pairs) (d : Data) :
      Keyed (ps ++ [.key d]) pairs
  | content {ps : List Part} {pairs : List (Key × Value)} {p : Part} {d : Data} {key : Key}
      {v : Value} (h : Keyed ps pairs) (hp : p.content? = some d) (hv : d.toValue = .ok v)
      (ha : Address ps p key) : Keyed (ps ++ [p]) (pairs ++ [(key, v)])

theorem Keyed.values {ps : List Part} {pairs : List (Key × Value)} (h : Keyed ps pairs) :
    (contents ps).mapM toValue = .ok (pairs.map Prod.snd) := by
  induction h with
  | nil => rfl
  | key h d ih => simpa [Part.content?] using ih
  | content h hp hv ha ih =>
    simp [List.mapM_append, ih, hp, hv]
    rfl

def Part.isItem : Part → Bool
  | .item _ => true
  | _ => false

def Uniform (ps : List Part) : Prop :=
  (∀ p ∈ ps, p.isItem = true) ∨ ∀ p ∈ ps, p.isItem = false

theorem Uniform.init {ps qs : List Part} (h : Uniform (ps ++ qs)) : Uniform ps := by
  rcases h with h | h
  · exact .inl fun p hp => h p (List.mem_append_left qs hp)
  · exact .inr fun p hp => h p (List.mem_append_left qs hp)

theorem Uniform.items {ps : List Part} {d : Data} (h : Uniform (ps ++ [.item d])) :
    ∀ p ∈ ps, p.isItem = true := by
  rcases h with h | h
  · exact fun p hp => h p (List.mem_append_left _ hp)
  · exact absurd (h (.item d) (by simp)) (by simp [Part.isItem])

theorem uniform_parts {d : Data} {ps : List Part} (h : d.parts? = some ps) : Uniform ps := by
  cases d with
  | sequence items => cases h; left; simp [Part.isItem]
  | tuple items => cases h; left; simp [Part.isItem]
  | tupleRecord name items => cases h; left; simp [Part.isItem]
  | map entries =>
    cases h
    right
    intro p hp
    rcases mem_mapParts hp with ⟨k, rfl⟩ | ⟨d, rfl⟩
    · rfl
    · rfl
  | record name fields =>
    cases h
    right
    intro p hp
    obtain ⟨f, -, rfl⟩ := List.mem_map.mp hp
    rfl
  | _ => cases h

theorem nodup_positions {n : Nat} (h : n ≤ UInt64.size) :
    ((List.range n).map Key.ofNat).Nodup := by
  apply List.Nodup.map_on _ List.nodup_range
  intro i hi j hj he
  have hn := congrArg UInt64.toNat (Key.index.inj he)
  rw [List.mem_range] at hi hj
  rwa [UInt64.toNat_ofNat_of_lt' (by omega), UInt64.toNat_ofNat_of_lt' (by omega)] at hn

structure Reached (ps : List Part) (c : Collection) (pairs : List (Key × Value)) : Prop where
  keyed : Keyed ps pairs
  written : c.arguments = .ofPairs pairs
  positions : (∀ p ∈ ps, p.isItem = true) → ps.length ≤ UInt64.size →
    pairs.map Prod.fst = (List.range ps.length).map Key.ofNat

theorem Reached.size {ps : List Part} {c : Collection} {pairs : List (Key × Value)}
    (h : Reached ps c pairs) (hi : ∀ p ∈ ps, p.isItem = true) (hl : ps.length ≤ UInt64.size) :
    c.arguments.size = ps.length := by
  have hk := h.positions hi hl
  have hn : (pairs.map Prod.fst).Nodup := hk ▸ nodup_positions hl
  have hs := congrArg List.length hk
  simp only [List.length_map, List.length_range] at hs
  rw [h.written, Arguments.size_ofPairs hn, hs]

theorem reached_step {ps : List Part} {c c' : Collection} {pairs : List (Key × Value)} {p : Part}
    (h : Reached ps c pairs) (hm : Remembers ps c.pending) (hu : Uniform (ps ++ [p]))
    (hs : Collection.Step c p c') : ∃ pairs', Reached (ps ++ [p]) c' pairs' := by
  cases hs with
  | @item d v hv =>
    -- with nothing but items before, there are as many arguments as parts
    have hi := hu.items
    refine ⟨pairs ++ [(.ofNat c.arguments.size, v)], ?_, ?_, ?_⟩
    · have ha : Address ps (.item d) (.ofNat c.arguments.size) :=
        .item fun hl => by rw [h.size hi (by omega)]; rfl
      exact .content h.keyed rfl hv ha
    · rw [Arguments.ofPairs_concat, ← h.written]
    · intro _ hl
      rw [List.length_append, List.length_singleton] at hl ⊢
      rw [h.size hi (by omega), List.range_succ, List.map_append, List.map_append,
        h.positions hi (by omega)]
      rfl
  | @field name d v hv =>
    refine ⟨pairs ++ [(.parse name, v)], .content h.keyed rfl hv (.field name d), ?_, ?_⟩
    · rw [Arguments.ofPairs_concat, ← h.written]
    · exact fun hi => absurd (hi (.field name d) (by simp)) (by simp [Part.isItem])
  | @key d key hk =>
    refine ⟨pairs, .key h.keyed d, h.written, ?_⟩
    exact fun hi => absurd (hi (.key d) (by simp)) (by simp [Part.isItem])
  | @value d key v hp hv =>
    rw [hp] at hm
    obtain ⟨-, k, hl, hk⟩ := hm
    obtain ⟨w, hw, hc⟩ := keyOf_eq_ok.mp hk
    refine ⟨pairs ++ [(key, v)], .content h.keyed rfl hv (.value hl hw hc), ?_, ?_⟩
    · rw [Arguments.ofPairs_concat, ← h.written]
    · exact fun hi => absurd (hi (.value d) (by simp)) (by simp [Part.isItem])

theorem reached_collect {ps : List Part} {c : Collection} (hu : Uniform ps)
    (h : collect ps = .ok c) : ∃ pairs, Reached ps c pairs := by
  induction ps using List.reverseRecOn generalizing c with
  | nil =>
    cases h
    exact ⟨[], .nil, rfl, fun _ _ => rfl⟩
  | append_singleton ps p ih =>
    rw [collect_concat] at h
    obtain ⟨c₀, hc, ht⟩ := bind_eq_ok.mp h
    obtain ⟨pairs, hr⟩ := ih hu.init hc
    exact reached_step hr (remembers_collect hc) hu (Collection.step_of_take ht)

theorem keyed_of_toArguments {d : Data} {ps : List Part} {arguments : Arguments}
    (hp : d.parts? = some ps) (h : d.toArguments = .ok arguments) :
    ∃ pairs, Keyed ps pairs ∧ arguments = .ofPairs pairs := by
  rw [toArguments_of_parts hp] at h
  obtain ⟨c, hc, rfl⟩ := map_eq_ok.mp h
  obtain ⟨pairs, hr⟩ := reached_collect (uniform_parts hp) hc
  exact ⟨pairs, hr.keyed, hr.written⟩

/-- Data without parts give no arguments, if they give any answer. -/
theorem empty_of_toArguments {d : Data} {arguments : Arguments} (hb : d.isLayer = false)
    (hp : d.parts? = none) (h : d.toArguments = .ok arguments) :
    d.toValue = .ok .null ∧ arguments = .empty := by
  cases d with
  | absent => cases h; exact ⟨rfl, rfl⟩
  | unit => cases h; exact ⟨rfl, rfl⟩
  | unitRecord name => cases h; exact ⟨rfl, rfl⟩
  | present content => cases hb
  | wrapper name content => cases hb
  | wrapperVariant type variant content => cases hb
  | sequence items => cases hp
  | tuple items => cases hp
  | tupleRecord name items => cases hp
  | map entries => cases hp
  | record name fields => cases hp
  | _ => cases h

/-- Data that become arguments are nothing, or they become a list of values, and the
arguments are those values written one after the other under the keys of their places. -/
theorem toArguments_keyed {d : Data} {arguments : Arguments} (h : d.toArguments = .ok arguments) :
    (d.toValue = .ok .null ∧ arguments = .empty) ∨
      ∃ ps pairs, d.core.parts? = some ps ∧ Keyed ps pairs ∧
        d.toValue = .ok (.list (pairs.map Prod.snd)) ∧ arguments = .ofPairs pairs ∧
        ((pairs.map Prod.fst).Nodup → arguments.values = pairs.map Prod.snd) := by
  rw [← toArguments_core] at h
  rw [← toValue_core]
  cases hp : d.core.parts? with
  | none => exact .inl (empty_of_toArguments (isLayer_core d) hp h)
  | some ps =>
    obtain ⟨pairs, hk, ha⟩ := keyed_of_toArguments hp h
    refine .inr ⟨ps, pairs, rfl, hk, ?_, ha, ?_⟩
    · rw [toValue_of_parts hp, hk.values]
      rfl
    · intro hn
      rw [ha, Arguments.values, Arguments.entries_ofPairs hn]

/-- Halves are missing, and two keys are one position. -/
def ticket : Data :=
  .present (.map
    [⟨some (.text "8"), none⟩, ⟨some (.text "a"), some (.bool true)⟩,
      ⟨some (.uint8 7), some (.text "x")⟩, ⟨some (.text "7"), none⟩,
      ⟨none, some (.sequence [.unit])⟩])

theorem toArguments_keyed_ticket :
    let arguments : Arguments := .ofPairs [(.name "a", .bool true), (.index 7, .list [.null])]
    ticket.toArguments = .ok arguments ∧
      ((ticket.toValue = .ok .null ∧ arguments = .empty) ∨
        ∃ ps pairs, ticket.core.parts? = some ps ∧ Keyed ps pairs ∧
          ticket.toValue = .ok (.list (pairs.map Prod.snd)) ∧ arguments = .ofPairs pairs ∧
          ((pairs.map Prod.fst).Nodup → arguments.values = pairs.map Prod.snd)) := by
  intro arguments
  have h : ticket.toArguments = .ok arguments := by with_unfolding_all rfl
  exact ⟨h, toArguments_keyed h⟩

end Data

end MessagePattern
