import MessagePattern.Data.Arguments

/-!
# The parts of data

Seen without their wrappers, sequences, maps and records hand over their parts
one after the other. A value made from them lists what the parts hold, and only
a reason that lies in the data can stop it.
-/

set_option autoImplicit false

namespace MessagePattern

namespace Data

def core : Data → Data
  | .present content => content.core
  | .wrapper _ content => content.core
  | .wrapperVariant _ _ content => content.core
  | d => d

theorem toValue_core (d : Data) : d.core.toValue = d.toValue := by
  fun_induction core d with
  | case1 content ih => exact ih
  | case2 name content ih => exact ih
  | case3 type variant content ih => exact ih
  | case4 d => rfl

theorem toArguments_core (d : Data) : d.core.toArguments = d.toArguments := by
  fun_induction core d with
  | case1 content ih => exact ih
  | case2 name content ih => exact ih
  | case3 type variant content ih => exact ih
  | case4 d => rfl

def isLayer : Data → Bool
  | .present _ | .wrapper .. | .wrapperVariant .. => true
  | _ => false

theorem isLayer_core (d : Data) : d.core.isLayer = false := by
  fun_induction core d with
  | case1 content ih => exact ih
  | case2 name content ih => exact ih
  | case3 type variant content ih => exact ih
  | case4 d hs hw hv =>
    cases d with
    | present content => exact absurd rfl (hs content)
    | wrapper name content => exact absurd rfl (hw name content)
    | wrapperVariant type variant content => exact absurd rfl (hv type variant content)
    | _ => rfl

/-- What is handed over in one step. -/
inductive Part where
  | item (d : Data)
  | field (name : String) (d : Data)
  | key (d : Data)
  | value (d : Data)

namespace Part

def content? : Part → Option Data
  | .item d | .field _ d | .value d => some d
  | .key _ => none

def key? : Part → Option Data
  | .key d => some d
  | _ => none

end Part

def contents (ps : List Part) : List Data := ps.filterMap Part.content?

@[simp]
theorem contents_nil : contents [] = [] := rfl

@[simp]
theorem contents_cons (p : Part) (ps : List Part) :
    contents (p :: ps) = p.content?.toList ++ contents ps := by
  cases p <;> rfl

@[simp]
theorem contents_append (ps qs : List Part) :
    contents (ps ++ qs) = contents ps ++ contents qs := List.filterMap_append

def fieldParts (fields : List (String × Data)) : List Part :=
  fields.map fun (name, d) => .field name d

def entryParts (entry : MapEntry Data) : List Part :=
  (entry.key.map .key).toList ++ (entry.value.map .value).toList

def mapParts (entries : List (MapEntry Data)) : List Part := entries.flatMap entryParts

theorem mem_mapParts {entries : List (MapEntry Data)} {p : Part} (h : p ∈ mapParts entries) :
    (∃ k, p = .key k) ∨ ∃ d, p = .value d := by
  obtain ⟨entry, -, he⟩ := List.mem_flatMap.mp h
  simp only [entryParts, List.mem_append, Option.mem_toList, Option.map_eq_some_iff] at he
  rcases he with ⟨k, -, rfl⟩ | ⟨d, -, rfl⟩
  · exact .inl ⟨k, rfl⟩
  · exact .inr ⟨d, rfl⟩

def parts? : Data → Option (List Part)
  | .sequence items | .tuple items | .tupleRecord _ items => some (items.map .item)
  | .map entries => some (mapParts entries)
  | .record _ fields => some (fieldParts fields)
  | _ => none

theorem itemValues_eq (items : List Data) :
    itemValues items = (contents (items.map .item)).mapM toValue := by
  induction items with
  | nil => rfl
  | cons d ds ih => simp_all [itemValues, Part.content?]

theorem fieldValues_eq (fields : List (String × Data)) :
    fieldValues fields = (contents (fieldParts fields)).mapM toValue := by
  induction fields with
  | nil => rfl
  | cons f fields ih => simp_all [fieldValues, fieldParts, Part.content?]

theorem entryValues_eq (entries : List (MapEntry Data)) :
    entryValues entries = (contents (mapParts entries)).mapM toValue := by
  induction entries with
  | nil => rfl
  | cons entry entries ih =>
    obtain ⟨key, value⟩ := entry
    cases key <;> cases value <;>
      simp_all [entryValues, mapParts, entryParts, Part.content?]

theorem toValue_of_parts {d : Data} {ps : List Part} (h : d.parts? = some ps) :
    d.toValue = ((contents ps).mapM toValue).map .list := by
  cases d with
  | sequence items => cases h; exact congrArg _ (itemValues_eq items)
  | tuple items => cases h; exact congrArg _ (itemValues_eq items)
  | tupleRecord name items => cases h; exact congrArg _ (itemValues_eq items)
  | map entries => cases h; exact congrArg _ (entryValues_eq entries)
  | record name fields => cases h; exact congrArg _ (fieldValues_eq fields)
  | _ => cases h

mutual

theorem custom_of_toValue (d : Data) {e : Error} (h : d.toValue = .error e) :
    ∃ reason, e = .custom reason := by
  cases d with
  | int128 i => cases h; exact ⟨_, rfl⟩
  | uint128 n => cases h; exact ⟨_, rfl⟩
  | failure reason => cases h; exact ⟨_, rfl⟩
  | present content => exact custom_of_toValue content h
  | wrapper name content => exact custom_of_toValue content h
  | wrapperVariant type variant content => exact custom_of_toValue content h
  | sequence items => exact custom_of_itemValues items (map_eq_error.mp h)
  | tuple items => exact custom_of_itemValues items (map_eq_error.mp h)
  | tupleRecord name items => exact custom_of_itemValues items (map_eq_error.mp h)
  | tupleVariant type variant items => exact custom_of_itemValues items (map_eq_error.mp h)
  | map entries => exact custom_of_entryValues entries (map_eq_error.mp h)
  | record name fields => exact custom_of_fieldValues fields (map_eq_error.mp h)
  | recordVariant type variant fields => exact custom_of_fieldValues fields (map_eq_error.mp h)
  | _ => cases h

theorem custom_of_itemValues (items : List Data) {e : Error}
    (h : itemValues items = .error e) : ∃ reason, e = .custom reason := by
  cases items with
  | nil => cases h
  | cons d ds =>
    rcases bind_eq_error.mp h with hd | ⟨v, -, hs⟩
    · exact custom_of_toValue d hd
    · rcases bind_eq_error.mp hs with hs | ⟨vs, -, hn⟩
      · exact custom_of_itemValues ds hs
      · cases hn

theorem custom_of_entryValues (entries : List (MapEntry Data)) {e : Error}
    (h : entryValues entries = .error e) : ∃ reason, e = .custom reason := by
  match entries with
  | [] => cases h
  | ⟨key, none⟩ :: entries => exact custom_of_entryValues entries h
  | ⟨key, some d⟩ :: entries =>
    rcases bind_eq_error.mp h with hd | ⟨v, -, hs⟩
    · exact custom_of_toValue d hd
    · rcases bind_eq_error.mp hs with hs | ⟨vs, -, hn⟩
      · exact custom_of_entryValues entries hs
      · cases hn

theorem custom_of_fieldValues (fields : List (String × Data)) {e : Error}
    (h : fieldValues fields = .error e) : ∃ reason, e = .custom reason := by
  match fields with
  | [] => cases h
  | (name, d) :: fields =>
    rcases bind_eq_error.mp h with hd | ⟨v, -, hs⟩
    · exact custom_of_toValue d hd
    · rcases bind_eq_error.mp hs with hs | ⟨vs, -, hn⟩
      · exact custom_of_fieldValues fields hs
      · cases hn

end

end Data

end MessagePattern
