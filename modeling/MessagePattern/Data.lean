import MessagePattern.Binary64

/-!
# Structured data

The shapes in which a program describes its own data: numbers of several
widths, text, optional values, sequences, maps and records, and the variants of
a sum type. Whether the length of a sequence or map is announced beforehand
makes no difference and is not recorded.
-/

set_option autoImplicit false

namespace MessagePattern

structure MapEntry (α : Type) where
  key : Option α
  value : Option α

/-- A `failure` stands for data that refuse to be described, for a reason of their own. -/
inductive Data where
  | bool (b : Bool)
  | int8 (i : Int8)
  | int16 (i : Int16)
  | int32 (i : Int32)
  | int64 (i : Int64)
  | int128 (i : Int)
  | uint8 (n : UInt8)
  | uint16 (n : UInt16)
  | uint32 (n : UInt32)
  | uint64 (n : UInt64)
  | uint128 (n : Nat)
  | float32 (x : Binary64)
  | float64 (x : Binary64)
  | char (c : Char)
  | text (s : String)
  | bytes (bs : List UInt8)
  | absent
  | present (content : Data)
  | unit
  | unitRecord (name : String)
  | unitVariant (type : String) (index : UInt32) (variant : String)
  | wrapper (name : String) (content : Data)
  | wrapperVariant (type variant : String) (content : Data)
  | sequence (items : List Data)
  | tuple (items : List Data)
  | tupleRecord (name : String) (items : List Data)
  | tupleVariant (type variant : String) (items : List Data)
  | map (entries : List (MapEntry Data))
  | record (name : String) (fields : List (String × Data))
  | recordVariant (type variant : String) (fields : List (String × Data))
  | failure (reason : String)

end MessagePattern
