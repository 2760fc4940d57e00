import MessagePattern.Binary64.Arithmetic
import MessagePattern.Data
import MessagePattern.Error
import MessagePattern.Value

/-!
# Data as values

Data turn into plain values. Optional values and wrappers are seen through, and
maps and records keep their values and lose their keys. In the other direction
a value describes itself as data, except that objects and handles refuse.
-/

set_option autoImplicit false

namespace MessagePattern

namespace Value

def ofUInt64 (n : UInt64) : Value :=
  if n.toNat < 1 <<< 63 then .integer (.ofNat n.toNat) else .float (.ofInt n.toNat)

def ofChar (c : Char) : Value := .text (String.singleton c)

def ofBytes (bytes : List UInt8) : Value :=
  .list (bytes.map fun b => .integer (.ofNat b.toNat))

def ofOption : Option Value → Value
  | none => .null
  | some v => v

mutual

def toData : Value → Data
  | .null => .unit
  | .bool b => .bool b
  | .integer i => .int64 i
  | .float x => .float64 x
  | .text s => .text s
  | .list items => .sequence (itemsToData items)
  | .object about _ =>
    .failure ("cannot serialize convertible value of type " ++ about.typeName)
  | .handle h => .failure ("cannot serialize " ++ h.describe)

def itemsToData : List Value → List Data
  | [] => []
  | v :: vs => v.toData :: itemsToData vs

end

end Value

namespace Data

mutual

def toValue : Data → Except Error Value
  | .bool b => .ok (.bool b)
  | .int8 i => .ok (.integer i.toInt64)
  | .int16 i => .ok (.integer i.toInt64)
  | .int32 i => .ok (.integer i.toInt64)
  | .int64 i => .ok (.integer i)
  | .int128 _ => .error (.custom "i128 is not supported")
  | .uint8 n => .ok (.integer (.ofNat n.toNat))
  | .uint16 n => .ok (.integer (.ofNat n.toNat))
  | .uint32 n => .ok (.integer (.ofNat n.toNat))
  | .uint64 n => .ok (.ofUInt64 n)
  | .uint128 _ => .error (.custom "u128 is not supported")
  | .float32 x => .ok (.float x)
  | .float64 x => .ok (.float x)
  | .char c => .ok (.ofChar c)
  | .text s => .ok (.text s)
  | .bytes bs => .ok (.ofBytes bs)
  | .absent => .ok .null
  | .present content => content.toValue
  | .unit => .ok .null
  | .unitRecord _ => .ok .null
  | .unitVariant _ _ variant => .ok (.text variant)
  | .wrapper _ content => content.toValue
  | .wrapperVariant _ _ content => content.toValue
  | .sequence items => (itemValues items).map .list
  | .tuple items => (itemValues items).map .list
  | .tupleRecord _ items => (itemValues items).map .list
  | .tupleVariant _ _ items => (itemValues items).map .list
  | .map entries => (entryValues entries).map .list
  | .record _ fields => (fieldValues fields).map .list
  | .recordVariant _ _ fields => (fieldValues fields).map .list
  | .failure reason => .error (.custom reason)

def itemValues : List Data → Except Error (List Value)
  | [] => .ok []
  | d :: ds => do
    let v ← d.toValue
    let vs ← itemValues ds
    return v :: vs

def entryValues : List (MapEntry Data) → Except Error (List Value)
  | [] => .ok []
  | ⟨_, none⟩ :: entries => entryValues entries
  | ⟨_, some d⟩ :: entries => do
    let v ← d.toValue
    let vs ← entryValues entries
    return v :: vs

def fieldValues : List (String × Data) → Except Error (List Value)
  | [] => .ok []
  | (_, d) :: fields => do
    let v ← d.toValue
    let vs ← fieldValues fields
    return v :: vs

end

end Data

end MessagePattern
