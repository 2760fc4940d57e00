import MessagePattern.Data.Values

/-!
# Reading values back

A value can also be read from data that announce what they are. Unlike the
conversion from data, reading refuses bytes, wrappers, variants and the widest
integers, and a missing half of a map entry counts as nothing. The keys of a
map may be anything that can be described.
-/

set_option autoImplicit false

namespace MessagePattern

inductive ReadError where
  | unexpectedBytes
  | unexpectedWrapper
  | unexpectedVariant
  | unexpectedInt128 (i : Int)
  | unexpectedUInt128 (n : Nat)
  | failure (reason : String)
  deriving DecidableEq

namespace ReadError

def unexpected (what : String) : String :=
  "invalid type: " ++ what ++ ", expected any argument value"

def message : ReadError → String
  | .unexpectedBytes => unexpected "byte array"
  | .unexpectedWrapper => unexpected "newtype struct"
  | .unexpectedVariant => unexpected "enum"
  | .unexpectedInt128 i => unexpected ("integer `" ++ toString i ++ "` as i128")
  | .unexpectedUInt128 n => unexpected ("integer `" ++ toString n ++ "` as u128")
  | .failure reason => reason

end ReadError

namespace Data

mutual

def skip : Data → Except ReadError Unit
  | .present content => content.skip
  | .wrapper _ content => content.skip
  | .wrapperVariant _ _ content => content.skip
  | .sequence items => skipItems items
  | .tuple items => skipItems items
  | .tupleRecord _ items => skipItems items
  | .tupleVariant _ _ items => skipItems items
  | .map entries => skipEntries entries
  | .record _ fields => skipFields fields
  | .recordVariant _ _ fields => skipFields fields
  | .failure reason => .error (.failure reason)
  | _ => .ok ()

def skipItems : List Data → Except ReadError Unit
  | [] => .ok ()
  | d :: ds => do
    d.skip
    skipItems ds

def skipEntries : List (MapEntry Data) → Except ReadError Unit
  | [] => .ok ()
  | ⟨key, value⟩ :: entries => do
    match key with
    | none => pure ()
    | some d => d.skip
    match value with
    | none => pure ()
    | some d => d.skip
    skipEntries entries

def skipFields : List (String × Data) → Except ReadError Unit
  | [] => .ok ()
  | (_, d) :: fields => do
    d.skip
    skipFields fields

end

mutual

def readValue : Data → Except ReadError Value
  | .bool b => .ok (.bool b)
  | .int8 i => .ok (.integer i.toInt64)
  | .int16 i => .ok (.integer i.toInt64)
  | .int32 i => .ok (.integer i.toInt64)
  | .int64 i => .ok (.integer i)
  | .int128 i => .error (.unexpectedInt128 i)
  | .uint8 n => .ok (.ofUInt64 n.toUInt64)
  | .uint16 n => .ok (.ofUInt64 n.toUInt64)
  | .uint32 n => .ok (.ofUInt64 n.toUInt64)
  | .uint64 n => .ok (.ofUInt64 n)
  | .uint128 n => .error (.unexpectedUInt128 n)
  | .float32 x => .ok (.float x)
  | .float64 x => .ok (.float x)
  | .char c => .ok (.ofChar c)
  | .text s => .ok (.text s)
  | .bytes _ => .error .unexpectedBytes
  | .absent => .ok .null
  | .present content => content.readValue
  | .unit => .ok .null
  | .unitRecord _ => .ok .null
  | .unitVariant .. => .error .unexpectedVariant
  | .wrapper .. => .error .unexpectedWrapper
  | .wrapperVariant .. => .error .unexpectedVariant
  | .sequence items => (readItems items).map .list
  | .tuple items => (readItems items).map .list
  | .tupleRecord _ items => (readItems items).map .list
  | .tupleVariant .. => .error .unexpectedVariant
  | .map entries => (readEntries entries).map .list
  | .record _ fields => (readFields fields).map .list
  | .recordVariant .. => .error .unexpectedVariant
  | .failure reason => .error (.failure reason)

def readItems : List Data → Except ReadError (List Value)
  | [] => .ok []
  | d :: ds => do
    let v ← d.readValue
    let vs ← readItems ds
    return v :: vs

def readEntries : List (MapEntry Data) → Except ReadError (List Value)
  | [] => .ok []
  | ⟨key, value⟩ :: entries => do
    match key with
    | none => pure ()
    | some d => d.skip
    let v ← match value with
      | none => pure .null
      | some d => d.readValue
    let vs ← readEntries entries
    return v :: vs

def readFields : List (String × Data) → Except ReadError (List Value)
  | [] => .ok []
  | (_, d) :: fields => do
    let v ← d.readValue
    let vs ← readFields fields
    return v :: vs

end

end Data

end MessagePattern
