import Mathlib.Data.List.Forall2
import MessagePattern.Proofs.Failures
import MessagePattern.Proofs.History
import MessagePattern.Proofs.KeyedData
import MessagePattern.Proofs.RenderingFaults
import MessagePattern.Proofs.TemplateFormat
import MessagePattern.Proofs.ValueData

/-!
# Positional arguments

Values become arguments in several ways: as a list, pushed one by one, written
to their positions, or described as data. Each has a rule of its own for the
next position, and after the same values all rules agree: it is the number of
values so far. Empty braces then go through the values in their order.
-/

set_option autoImplicit false

namespace MessagePattern

namespace Value

theorem mem_itemLeaves {items : List Value} {w : Value} :
    w ∈ itemLeaves items ↔ ∃ v ∈ items, w ∈ v.leaves := by
  induction items with
  | nil => simp [itemLeaves]
  | cons v items ih => simp [itemLeaves, ih]

theorem IsData.refusal?_eq_none {v : Value} (h : v.IsData) :
    ∀ w ∈ v.leaves, w.refusal? = none := by
  induction h with
  | list _ ih =>
    intro w hw
    obtain ⟨v, hv, hw⟩ := mem_itemLeaves.mp hw
    exact ih v hv w hw
  | _ => simp [leaves, refusal?]

theorem IsData.toValue_toData {v : Value} (h : v.IsData) : v.toData.toValue = .ok v := by
  rw [Value.toValue_toData]
  exact unlessRefused_of_none (List.findSome?_eq_none_iff.mpr h.refusal?_eq_none) v

theorem IsData.exists_render {v : Value} (h : v.IsData) (m : Modifiers) (options : Options) :
    ∃ text, v.render m options = .ok text := by
  have hf : v.ends.findSome? fault? = none := List.findSome?_eq_none_iff.mpr h.fault?_eq_none
  rw [← failure?_eq_none, failure?_render, hf, ite_self]

theorem exists_renders {vs : List Value} (h : ∀ v ∈ vs, v.IsData) (m : Modifiers)
    (options : Options) :
    ∃ texts, List.Forall₂ (fun v text => v.render m options = .ok text) vs texts := by
  have hr : ∃ texts, vs.mapM (render m options) = .ok texts := by
    rw [← failure?_eq_none, failure?_mapM, List.findSome?_eq_none_iff]
    intro v hv
    exact failure?_eq_none.mpr ((h v hv).exists_render m options)
  obtain ⟨texts, ht⟩ := hr
  exact ⟨texts, mapM_eq_ok.mp ht⟩

theorem itemsToData_eq_map (items : List Value) : itemsToData items = items.map toData := by
  induction items with
  | nil => rfl
  | cons v items ih => rw [itemsToData, ih, List.map_cons]

end Value

namespace Arguments

variable {vs : List Value}

theorem ofValues_concat (vs : List Value) (v : Value) :
    ofValues (vs ++ [v]) = (ofValues vs).insert (.ofNat vs.length) v := by
  simp only [ofValues, List.zipIdx_append, List.map_append, Nat.zero_add]
  exact ofPairs_concat _ _ _

theorem fst_zipIdx (vs : List Value) :
    (vs.zipIdx.map fun (value, i) => (Key.ofNat i, value)).map Prod.fst =
      (List.range vs.length).map Key.ofNat := by
  rw [List.map_map, List.range_eq_range', ← List.zipIdx_map_snd 0 vs, List.map_map]
  rfl

theorem entries_ofValues (h : vs.length ≤ UInt64.size) :
    (ofValues vs).entries = vs.zipIdx.map fun (value, i) => (.ofNat i, value) := by
  apply entries_ofPairs
  rw [fst_zipIdx]
  exact Data.nodup_positions h

theorem keys_ofValues (h : vs.length ≤ UInt64.size) :
    (ofValues vs).keys = (List.range vs.length).map Key.ofNat := by
  rw [keys, Entries.keys, entries_ofValues h, fst_zipIdx]

theorem values_ofValues (h : vs.length ≤ UInt64.size) : (ofValues vs).values = vs := by
  rw [values, entries_ofValues h, List.map_map]
  exact List.zipIdx_map_fst 0 vs

theorem size_ofValues (h : vs.length ≤ UInt64.size) : (ofValues vs).size = vs.length := by
  rw [size, entries_ofValues h, List.length_map, List.length_zipIdx]

theorem mem_keys_ofValues (h : vs.length ≤ UInt64.size) (n : UInt64) :
    .index n ∈ (ofValues vs).keys ↔ n.toNat < vs.length := by
  rw [keys_ofValues h, List.mem_map]
  constructor
  · rintro ⟨i, hi, he⟩
    rw [List.mem_range] at hi
    rw [← Key.index.inj he, UInt64.toNat_ofNat_of_lt' (by omega)]
    exact hi
  · intro hn
    exact ⟨n.toNat, List.mem_range.mpr hn, congrArg Key.index (UInt64.ofNat_toNat)⟩

theorem nextPosition_ofValues (h : vs.length ≤ UInt64.size) :
    (ofValues vs).nextPosition = .ofNat vs.length := by
  cases hl : vs.length with
  | zero =>
    apply nextPosition_of_none
    intro n hn
    rw [mem_keys_ofValues h, hl] at hn
    exact Nat.not_lt_zero _ hn
  | succ k =>
    have hk : (UInt64.ofNat k).toNat = k := UInt64.toNat_ofNat_of_lt' (by omega)
    rw [UInt64.ofNat_add]
    apply nextPosition_of_largest
    · rw [mem_keys_ofValues h, hk]
      omega
    · intro n hn
      rw [mem_keys_ofValues h] at hn
      rw [UInt64.le_iff_toNat_le, hk]
      omega

theorem get?_ofValues {i : Nat} (h : vs.length ≤ UInt64.size) (hi : i < UInt64.size) :
    (ofValues vs).get? (.ofNat i) = vs[i]? := by
  cases hv : vs[i]? with
  | none =>
    apply Entries.find?_eq_none
    show .index _ ∉ (ofValues vs).keys
    rw [mem_keys_ofValues h, UInt64.toNat_ofNat_of_lt' hi, Nat.not_lt]
    exact List.getElem?_eq_none_iff.mp hv
  | some v =>
    rw [← mem_entries_iff, entries_ofValues h]
    exact List.mem_map.mpr ⟨(v, i), List.mk_mem_zipIdx_iff_getElem?.mpr hv, rfl⟩

/-- A push after some values goes to the position behind them. -/
theorem push_ofValues (h : vs.length ≤ UInt64.size) (v : Value) :
    (ofValues vs).push v = (.ofNat vs.length, ofValues (vs ++ [v])) := by
  rw [push, nextPosition_ofValues h, ofValues_concat]
  rfl

/-- So does an item of a sequence. -/
theorem insert_size_ofValues (h : vs.length ≤ UInt64.size) (v : Value) :
    (ofValues vs).insert (.ofNat (ofValues vs).size) v = ofValues (vs ++ [v]) := by
  rw [size_ofValues h, ofValues_concat]

theorem run_pushes (us : List Value) (h : (us ++ vs).length ≤ UInt64.size) :
    (ofValues us).run (vs.map .push) = ofValues (us ++ vs) := by
  induction vs generalizing us with
  | nil => rw [List.append_nil]; rfl
  | cons v vs ih =>
    have hl := Nat.le_trans (List.prefix_append us (v :: vs)).length_le h
    rw [List.append_cons] at h ⊢
    rw [← ih (us ++ [v]) h, List.map_cons, run, List.foldl_cons, Operation.perform,
      push_ofValues hl v]
    rfl

theorem ofPairs_positions (vs : List Value) :
    ofPairs (List.ofFn fun i : Fin vs.length => (.ofNat i, vs[i])) = ofValues vs := by
  rw [ofValues]
  congr 1
  apply List.ext_getElem
  · simp
  · intro i _ _
    simp

theorem collectItems_toData (us : List Value) (h : (us ++ vs).length ≤ UInt64.size)
    (hd : ∀ v ∈ vs, v.IsData) :
    Data.collectItems (ofValues us) (vs.map Value.toData) = .ok (ofValues (us ++ vs)) := by
  induction vs generalizing us with
  | nil => rw [List.append_nil]; rfl
  | cons v vs ih =>
    obtain ⟨hv, hvs⟩ := List.forall_mem_cons.mp hd
    have hl := Nat.le_trans (List.prefix_append us (v :: vs)).length_le h
    rw [List.append_cons] at h ⊢
    rw [← ih (us ++ [v]) h hvs, List.map_cons, Data.collectItems, hv.toValue_toData,
      ← insert_size_ofValues hl v]
    rfl

theorem toArguments_sequence (h : vs.length ≤ UInt64.size) (hd : ∀ v ∈ vs, v.IsData) :
    (Data.sequence (vs.map Value.toData)).toArguments = .ok (ofValues vs) :=
  collectItems_toData [] h hd

end Arguments

theorem range_split (n k : Nat) :
    List.range (n + 1 + k) = List.range n ++ n :: List.range' (n + 1) k := by
  have h := @List.range'_append_1 0 n (k + 1)
  rw [Nat.zero_add, List.range'_succ, ← Nat.add_assoc, Nat.add_right_comm] at h
  rw [List.range_eq_range', List.range_eq_range', h]

namespace Template

def blanks (count : Nat) : List Item := List.replicate count (.part (.token {}))

theorem print_blanks (count : Nat) :
    print (blanks count) = (String.join (List.replicate count "{}")).toList := by
  rw [print, blanks, String.toList_join]
  induction count with
  | zero => rfl
  | succ count ih => rw [List.replicate_succ, List.replicate_succ, List.flatMap_cons, ih]; rfl

theorem wellFormed_blanks (count : Nat) : wellFormed (blanks count) = true := by
  rw [wellFormed, List.all_eq_true]
  intro item hm
  rw [List.eq_of_mem_replicate hm]
  rfl

def fillBlank (arguments : Arguments) (options : Options) (position : Nat) :
    Except Error (List Char) :=
  ({} : Placeholder).fill arguments options (.ofNat position)

theorem evaluate_blanks (arguments : Arguments) (options : Options) (position count : Nat) :
    evaluate arguments options position (blanks count) =
      ((List.range' position count).mapM (fillBlank arguments options)).map
        (List.map Chunk.rendered) := by
  induction count generalizing position with
  | zero => rfl
  | succ count ih =>
    have hi := ih (position + 1)
    rw [blanks] at hi
    rw [blanks, List.replicate_succ, evaluate, List.range'_succ, List.mapM_cons,
      show keyless [.token {}] = 1 from rfl, hi]
    show ((fillBlank arguments options position >>= _) >>= _) = _
    cases fillBlank arguments options position with
    | error e => rfl
    | ok text =>
      cases (List.range' (position + 1) count).mapM (fillBlank arguments options) <;> rfl

theorem message_rendered (run : List Char) (texts : List (List Char)) :
    message run (texts.map .rendered) = Escape.collapse (run ++ texts.flatten) := by
  induction texts generalizing run with
  | nil => rw [List.flatten_nil, List.append_nil]; rfl
  | cons text texts ih =>
    rw [List.map_cons, message, ih, List.flatten_cons, List.append_assoc]

theorem format_blanks (arguments : Arguments) (options : Options) (count : Nat) :
    format (String.join (List.replicate count "{}")) arguments options =
      ((List.range count).mapM (fillBlank arguments options)).map
        fun texts => String.ofList (Escape.collapse texts.flatten) := by
  rw [format, ← print_blanks, formatText_print (wellFormed_blanks count), evaluate_blanks,
    ← List.range_eq_range']
  cases (List.range count).mapM (fillBlank arguments options) with
  | error e => rfl
  | ok texts =>
    have hm := message_rendered [] texts
    exact congrArg (fun text => Except.ok (String.ofList text)) hm

end Template

namespace Arguments
open Template

variable {vs : List Value} {options : Options} {texts : List (List Char)}

theorem fillBlank_ofValues (h : vs.length < UInt64.size) {i : Nat} (hi : i < vs.length) :
    fillBlank (ofValues vs) options i = vs[i].render {} options := by
  rw [fillBlank, Placeholder.fill, get?_ofValues (by omega) (by omega),
    List.getElem?_eq_getElem hi]
  rfl

theorem fillBlank_behind (h : vs.length < UInt64.size) :
    fillBlank (ofValues vs) options vs.length =
      .error (.missingPlaceholder (.ofNat vs.length) (ofValues vs).keys) := by
  rw [fillBlank, Placeholder.fill, get?_ofValues (by omega) h,
    List.getElem?_eq_none (Nat.le_refl _)]
  rfl

/-- As many empty braces as there are values, or fewer. -/
theorem format_blanks_le (h : vs.length < UInt64.size)
    (ht : List.Forall₂ (fun v text => v.render {} options = .ok text) vs texts) {count : Nat}
    (hc : count ≤ vs.length) :
    format (String.join (List.replicate count "{}")) (ofValues vs) options =
      .ok (String.ofList (Escape.collapse (texts.take count).flatten)) := by
  obtain ⟨hl, hr⟩ := List.forall₂_iff_get.mp ht
  have hm : (List.range count).mapM (fillBlank (ofValues vs) options) = .ok (texts.take count) := by
    rw [mapM_eq_ok, List.forall₂_iff_get]
    constructor
    · rw [List.length_range, List.length_take]
      omega
    · intro i hi hn
      rw [List.length_range] at hi
      simpa [fillBlank_ofValues h (by omega : i < vs.length)] using hr i (by omega) (by omega)
  rw [format_blanks, hm]
  rfl

/-- The first braces without a value fail. -/
theorem format_blanks_gt (h : vs.length < UInt64.size)
    (ht : List.Forall₂ (fun v text => v.render {} options = .ok text) vs texts) {count : Nat}
    (hc : vs.length < count) :
    format (String.join (List.replicate count "{}")) (ofValues vs) options =
      .error (.missingPlaceholder (.ofNat vs.length) (ofValues vs).keys) := by
  obtain ⟨hl, hr⟩ := List.forall₂_iff_get.mp ht
  obtain ⟨k, rfl⟩ := Nat.exists_eq_add_of_le (Nat.succ_le_of_lt hc)
  have hm : (List.range (vs.length + 1 + k)).mapM (fillBlank (ofValues vs) options) =
      .error (.missingPlaceholder (.ofNat vs.length) (ofValues vs).keys) := by
    rw [mapM_eq_error]
    refine ⟨_, _, _, range_split vs.length k, fillBlank_behind h, ?_⟩
    intro i hi
    rw [List.mem_range] at hi
    rw [fillBlank_ofValues h hi]
    exact ⟨_, hr i hi (by omega)⟩
  rw [format_blanks, hm]
  rfl

/-- In whichever way values without objects and handles become arguments, they are at the
positions from zero on and in their order. Empty braces, repeated, are replaced by the values
one after the other, until there is none left. The number of values fits into a position. -/
theorem positional {vs : List Value} (hn : vs.length < UInt64.size) (hd : ∀ v ∈ vs, v.IsData) :
    let arguments := ofValues vs
    (arguments.keys = (List.range vs.length).map Key.ofNat ∧ arguments.values = vs) ∧
      run .empty (vs.map .push) = arguments ∧
      ofPairs (List.ofFn fun i : Fin vs.length => (.ofNat i, vs[i])) = arguments ∧
      (Data.sequence (vs.map Value.toData)).toArguments = .ok arguments ∧
      (Value.list vs).toData.toArguments = .ok arguments ∧
      ∀ options, ∃ texts, List.Forall₂ (fun v text => v.render {} options = .ok text) vs texts ∧
        ∀ count, format (String.join (List.replicate count "{}")) arguments options =
          if count ≤ vs.length then
            .ok (String.ofList (Escape.collapse (texts.take count).flatten))
          else .error (.missingPlaceholder (.ofNat vs.length) arguments.keys) := by
  intro arguments
  have hl : vs.length ≤ UInt64.size := Nat.le_of_lt hn
  have hs := toArguments_sequence hl hd
  refine ⟨⟨keys_ofValues hl, values_ofValues hl⟩, run_pushes [] hl, ofPairs_positions vs, hs, ?_,
    ?_⟩
  · rw [Value.toData, Value.itemsToData_eq_map]
    exact hs
  · intro options
    obtain ⟨texts, ht⟩ := Value.exists_renders hd {} options
    refine ⟨texts, ht, ?_⟩
    intro count
    split
    · exact format_blanks_le hn ht ‹_›
    · exact format_blanks_gt hn ht (by omega)

def parcel : List Value := [.bool true, .text "\x7b", .list [.text "\x7b", .null]]

theorem positional_parcel :
    let arguments := ofValues parcel
    parcel.length < UInt64.size ∧ (∀ v ∈ parcel, v.IsData) ∧
      run .empty (parcel.map .push) = arguments ∧
      (Value.list parcel).toData.toArguments = .ok arguments ∧
      format "{}{}{}" arguments = .ok "TRUE\x7b, NULL" ∧
      format "{}{}{}{}" arguments =
        .error (.missingPlaceholder (.index 3) [.index 0, .index 1, .index 2]) := by
  intro arguments
  have hn : parcel.length < UInt64.size := by decide
  have hd : ∀ v ∈ parcel, v.IsData := by
    simp [parcel, Value.IsData.bool, Value.IsData.text, Value.IsData.list, Value.IsData.null]
  obtain ⟨-, hp, -, -, hs, hf⟩ := positional hn hd
  obtain ⟨_, -, hc⟩ := hf .standard
  have h3 : format "{}{}{}" arguments = .ok "TRUE\x7b, NULL" := by with_unfolding_all rfl
  exact ⟨hn, hd, hp, hs, h3, hc 4⟩

end Arguments

end MessagePattern
