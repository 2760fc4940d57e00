import Mathlib.Data.List.Induction
import MessagePattern.Proofs.DataParts

/-!
# Collecting arguments

Arguments are collected from the parts of data one by one. Between two parts
only the arguments so far are remembered and the key that came last, which the
next value takes away. What is remembered of the keys is told by the parts
alone.
-/

set_option autoImplicit false

namespace MessagePattern.Data

structure Collection where
  arguments : Arguments := .empty
  pending : Option Key := none

namespace Collection

def take (c : Collection) : Part → Except Error Collection
  | .item d => do
    let v ← d.toValue
    return ⟨c.arguments.insert (.ofNat c.arguments.size) v, c.pending⟩
  | .field name d => do
    let v ← d.toValue
    return ⟨c.arguments.insert (.parse name) v, c.pending⟩
  | .key d => do
    let key ← d.keyOf
    return ⟨c.arguments, some key⟩
  | .value d =>
    match c.pending with
    | none => .error (.custom "serialize_value called without serialize_key")
    | some key => do
      let v ← d.toValue
      return ⟨c.arguments.insert key v, none⟩

inductive Step (c : Collection) : Part → Collection → Prop
  | item {d : Data} {v : Value} (hv : d.toValue = .ok v) :
      Step c (.item d) ⟨c.arguments.insert (.ofNat c.arguments.size) v, c.pending⟩
  | field (name : String) {d : Data} {v : Value} (hv : d.toValue = .ok v) :
      Step c (.field name d) ⟨c.arguments.insert (.parse name) v, c.pending⟩
  | key {d : Data} {key : Key} (hk : d.keyOf = .ok key) : Step c (.key d) ⟨c.arguments, some key⟩
  | value {d : Data} {key : Key} {v : Value} (hp : c.pending = some key)
      (hv : d.toValue = .ok v) : Step c (.value d) ⟨c.arguments.insert key v, none⟩

theorem step_of_take {c c' : Collection} {p : Part} (h : c.take p = .ok c') : Step c p c' := by
  cases p with
  | item d =>
    obtain ⟨v, hv, he⟩ := bind_eq_ok.mp h
    cases he
    exact .item hv
  | field name d =>
    obtain ⟨v, hv, he⟩ := bind_eq_ok.mp h
    cases he
    exact .field name hv
  | key d =>
    obtain ⟨key, hk, he⟩ := bind_eq_ok.mp h
    cases he
    exact .key hk
  | value d =>
    rw [take] at h
    cases hp : c.pending with
    | none => simp [hp] at h
    | some key =>
      rw [hp] at h
      obtain ⟨v, hv, he⟩ := bind_eq_ok.mp h
      cases he
      exact .value hp hv

def takeAll (c : Collection) (ps : List Part) : Except Error Collection := ps.foldlM take c

theorem takeAll_cons (c : Collection) (p : Part) (ps : List Part) :
    c.takeAll (p :: ps) = c.take p >>= fun c' => c'.takeAll ps := List.foldlM_cons

end Collection

def collect (ps : List Part) : Except Error Collection := Collection.takeAll {} ps

theorem collect_concat (ps : List Part) (p : Part) :
    collect (ps ++ [p]) = collect ps >>= fun c => c.take p := by
  simp [collect, Collection.takeAll]

open Collection

theorem collectItems_eq (c : Collection) (items : List Data) :
    collectItems c.arguments items = (c.takeAll (items.map .item)).map Collection.arguments := by
  induction items generalizing c with
  | nil => rfl
  | cons d ds ih =>
    rw [collectItems, List.map_cons, takeAll_cons, take]
    cases d.toValue with
    | error e => rfl
    | ok v => exact ih ⟨c.arguments.insert (.ofNat c.arguments.size) v, c.pending⟩

theorem collectFields_eq (c : Collection) (fields : List (String × Data)) :
    collectFields c.arguments fields =
      (c.takeAll (fieldParts fields)).map Collection.arguments := by
  induction fields generalizing c with
  | nil => rfl
  | cons f fields ih =>
    obtain ⟨name, d⟩ := f
    rw [collectFields, fieldParts, List.map_cons, takeAll_cons, take]
    cases d.toValue with
    | error e => rfl
    | ok v => exact ih ⟨c.arguments.insert (.parse name) v, c.pending⟩

/-- The key of an entry is taken before its value is looked at. -/
theorem collectEntries_key (arguments : Arguments) (pending : Option Key) (k : Data)
    (value : Option Data) (entries : List (MapEntry Data)) :
    collectEntries arguments pending (⟨some k, value⟩ :: entries) =
      k.keyOf >>= fun key => collectEntries arguments (some key) (⟨none, value⟩ :: entries) := by
  show ((some <$> k.keyOf) >>= _) = k.keyOf >>= _
  rw [map_eq_pure_bind, bind_assoc]
  rfl

theorem collectEntries_value (c : Collection) (d : Data) (entries : List (MapEntry Data)) :
    collectEntries c.arguments c.pending (⟨none, some d⟩ :: entries) =
      c.take (.value d) >>= fun c' => collectEntries c'.arguments c'.pending entries := by
  rw [collectEntries.eq_def, take]
  cases c.pending with
  | none => rfl
  | some key =>
    show (d.toValue >>= _) = (d.toValue >>= _) >>= _
    rw [bind_assoc]
    rfl

theorem collectEntries_eq (c : Collection) (entries : List (MapEntry Data)) :
    collectEntries c.arguments c.pending entries =
      (c.takeAll (mapParts entries)).map Collection.arguments := by
  have hmap : ∀ (x : Except Error Collection) (f : Collection → Except Error Collection),
      (x >>= f).map Collection.arguments = x >>= fun c => (f c).map Collection.arguments :=
    fun x f => map_bind _ x f
  induction entries generalizing c with
  | nil => rfl
  | cons entry entries ih =>
    obtain ⟨key, value⟩ := entry
    have hvalue : ∀ c : Collection,
        collectEntries c.arguments c.pending (⟨none, value⟩ :: entries) =
          (c.takeAll (entryParts ⟨none, value⟩ ++ mapParts entries)).map Collection.arguments := by
      intro c
      cases value with
      | none => exact ih c
      | some d =>
        show _ = (c.takeAll (.value d :: mapParts entries)).map _
        simp only [collectEntries_value, ih, takeAll_cons, hmap]
    cases key with
    | none => exact hvalue c
    | some k =>
      show _ = (c.takeAll (.key k :: (entryParts ⟨none, value⟩ ++ mapParts entries))).map _
      rw [collectEntries_key, takeAll_cons, take, hmap]
      cases k.keyOf with
      | error e => rfl
      | ok key => exact hvalue ⟨c.arguments, some key⟩

theorem toArguments_of_parts {d : Data} {ps : List Part} (h : d.parts? = some ps) :
    d.toArguments = (collect ps).map Collection.arguments := by
  cases d with
  | sequence items => cases h; exact collectItems_eq {} items
  | tuple items => cases h; exact collectItems_eq {} items
  | tupleRecord name items => cases h; exact collectItems_eq {} items
  | map entries => cases h; exact collectEntries_eq {} entries
  | record name fields => cases h; exact collectFields_eq {} fields
  | _ => cases h

def lastKey (before : List Part) : Option Data := (before.filterMap Part.key?).getLast?

def Waiting (before : List Part) : Prop :=
  ∃ earlier k between, before = earlier ++ .key k :: between ∧ ∀ d, .value d ∉ between

theorem lastKey_key (before : List Part) (d : Data) : lastKey (before ++ [.key d]) = some d := by
  simp [lastKey, Part.key?]

theorem lastKey_content (before : List Part) {p : Part} {d : Data} (h : p.content? = some d) :
    lastKey (before ++ [p]) = lastKey before := by
  cases p <;> simp_all [lastKey, Part.key?, Part.content?]

theorem waiting_key (before : List Part) (d : Data) : Waiting (before ++ [.key d]) :=
  ⟨before, d, [], rfl, by simp⟩

theorem waiting_concat {before : List Part} {p : Part} (h : p.key? = none) :
    Waiting (before ++ [p]) ↔ Waiting before ∧ ∀ d, p ≠ .value d := by
  constructor
  · intro hw
    obtain ⟨earlier, k, between, he, hb⟩ := hw
    rcases List.eq_nil_or_concat between with rfl | ⟨rest, q, rfl⟩
    · cases (List.append_inj' he rfl).2
      cases h
    · have hc : before ++ [p] = earlier ++ .key k :: rest ++ [q] := by simpa using he
      obtain ⟨hl, hq⟩ := List.append_inj' hc rfl
      cases hq
      exact ⟨⟨earlier, k, rest, hl, fun d hd => hb d (by simp [hd])⟩,
        fun d hd => hb d (by simp [hd])⟩
  · intro hw
    obtain ⟨⟨earlier, k, between, rfl, hb⟩, hp⟩ := hw
    refine ⟨earlier, k, between ++ [p], by simp, ?_⟩
    intro d hd
    rcases List.mem_append.mp hd with hd | hd
    · exact hb d hd
    · exact hp d (List.mem_singleton.mp hd).symm

/-- What is remembered of the keys behind some parts: the last key, as long as no value
has used it. -/
def Remembers (before : List Part) : Option Key → Prop
  | some key => Waiting before ∧ ∃ k, lastKey before = some k ∧ k.keyOf = .ok key
  | none => ¬ Waiting before

theorem Remembers.waiting_iff {before : List Part} {pending : Option Key}
    (h : Remembers before pending) : Waiting before ↔ pending ≠ none := by
  cases pending with
  | none => simpa [Remembers] using h
  | some key => simpa using h.1

/-- Items and fields leave the keys alone. -/
theorem Remembers.content {before : List Part} {pending : Option Key} {p : Part} {d : Data}
    (h : Remembers before pending) (hp : p.content? = some d) (hv : ∀ d, p ≠ .value d) :
    Remembers (before ++ [p]) pending := by
  have hk : p.key? = none := by cases p <;> simp_all [Part.key?, Part.content?]
  have hw : Waiting (before ++ [p]) ↔ Waiting before ∧ ∀ d, p ≠ .value d := waiting_concat hk
  cases pending with
  | none => exact fun hn => h (hw.mp hn).1
  | some key => exact ⟨hw.mpr ⟨h.1, hv⟩, by rw [lastKey_content before hp]; exact h.2⟩

theorem remembers_step {before : List Part} {c c' : Collection} {p : Part}
    (h : Remembers before c.pending) (hs : Step c p c') :
    Remembers (before ++ [p]) c'.pending := by
  cases hs with
  | item hv => exact h.content rfl (by simp)
  | field name hv => exact h.content rfl (by simp)
  | @key d key hk => exact ⟨waiting_key before d, d, lastKey_key before d, hk⟩
  | @value d key v hp hv => exact fun hw => ((waiting_concat rfl).mp hw).2 d rfl

theorem remembers_collect {ps : List Part} {c : Collection} (h : collect ps = .ok c) :
    Remembers ps c.pending := by
  induction ps using List.reverseRecOn generalizing c with
  | nil =>
    cases h
    intro hw
    obtain ⟨earlier, k, between, he, -⟩ := hw
    simp at he
  | append_singleton ps p ih =>
    rw [collect_concat] at h
    obtain ⟨c₀, hc, ht⟩ := bind_eq_ok.mp h
    exact remembers_step (ih hc) (step_of_take ht)

end MessagePattern.Data
