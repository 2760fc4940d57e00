import MessagePattern.Arguments
import MessagePattern.Data.Values
import MessagePattern.Message

/-!
# Data as arguments

Sequences, maps and records become arguments, keyed by position, by key or by
field name. Data without parts are refused, except that nothing at all is an
empty set of arguments.
-/

set_option autoImplicit false

namespace MessagePattern

def Key.ofValue : Value → Except Error Key
  | .text s => .ok (.parse s)
  | .integer i => .ok (.ofInt i.toInt)
  | v => .error (.custom ("argument keys must be strings or integers, found " ++ v.typeName))

namespace Data

def keyOf (d : Data) : Except Error Key := do Key.ofValue (← d.toValue)

def collectItems (arguments : Arguments) : List Data → Except Error Arguments
  | [] => .ok arguments
  | d :: ds => do
    let v ← d.toValue
    collectItems (arguments.insert (.ofNat arguments.size) v) ds

/-- A value goes to the key that came last before it, and uses it up. -/
def collectEntries (arguments : Arguments) (pending : Option Key) :
    List (MapEntry Data) → Except Error Arguments
  | [] => .ok arguments
  | ⟨key, value⟩ :: entries => do
    let pending ← match key with
      | none => pure pending
      | some d => some <$> d.keyOf
    match value, pending with
    | none, _ => collectEntries arguments pending entries
    | some _, none => .error (.custom "serialize_value called without serialize_key")
    | some d, some key => do
      let v ← d.toValue
      collectEntries (arguments.insert key v) none entries

def collectFields (arguments : Arguments) : List (String × Data) → Except Error Arguments
  | [] => .ok arguments
  | (name, d) :: fields => do
    let v ← d.toValue
    collectFields (arguments.insert (.parse name) v) fields

def toArguments : Data → Except Error Arguments
  | .bool _ => .error (.unsupportedArguments "bool")
  | .int8 _ | .int16 _ | .int32 _ | .int64 _ => .error (.unsupportedArguments "integer")
  | .uint8 _ | .uint16 _ | .uint32 _ | .uint64 _ => .error (.unsupportedArguments "integer")
  | .int128 _ => .error (.custom "i128 is not supported")
  | .uint128 _ => .error (.custom "u128 is not supported")
  | .float32 _ | .float64 _ => .error (.unsupportedArguments "float")
  | .char _ => .error (.unsupportedArguments "char")
  | .text _ => .error (.unsupportedArguments "string")
  | .bytes _ => .error (.unsupportedArguments "bytes")
  | .absent | .unit | .unitRecord _ => .ok .empty
  | .present content => content.toArguments
  | .wrapper _ content => content.toArguments
  | .wrapperVariant _ _ content => content.toArguments
  | .unitVariant .. => .error (.unsupportedArguments "unit variant")
  | .tupleVariant .. => .error (.unsupportedArguments "tuple variant")
  | .recordVariant .. => .error (.unsupportedArguments "struct variant")
  | .sequence items => collectItems .empty items
  | .tuple items => collectItems .empty items
  | .tupleRecord _ items => collectItems .empty items
  | .map entries => collectEntries .empty none entries
  | .record _ fields => collectFields .empty fields
  | .failure reason => .error (.custom reason)

end Data

def formatData (pattern : String) (data : Data) : Except Error String := do
  format pattern (← data.toArguments)

end MessagePattern
