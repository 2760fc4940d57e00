import MessagePattern.Numeral.Exponent
import MessagePattern.Numeral.Radix
import MessagePattern.Style

/-!
# Numbers in a message

A number is an integer or a double. Its style chooses between a decimal
numeral, an exponent numeral and three radix numerals, the last of which look
at the integer part alone.
-/

set_option autoImplicit false

namespace MessagePattern

inductive Number where
  | integer (i : Int64)
  | float (x : Binary64)
  deriving DecidableEq

namespace Number

def toBinary64 : Number → Binary64
  | .integer i => .ofInt i.toInt
  | .float x => x

def toInt64 : Number → Int64
  | .integer i => i
  | .float x => x.truncate

def decimal (plus : Bool) (places : Nat) (options : Options) : Number → List Char
  | .integer i => Numeral.decimalOfInt plus places options i.toInt
  | .float x => Numeral.decimalOfFloat plus places options x

def maxPlaces : Nat := 500

def write (plus : Bool) (places : Nat) (style : Option Style) (options : Options)
    (n : Number) : List Char :=
  let places := min places maxPlaces
  match style with
  | some .exponent => Numeral.exponent plus places n.toBinary64
  | some .binary => Numeral.binary n.toInt64
  | some .octal => Numeral.octal n.toInt64
  | some .hex => Numeral.hex n.toInt64
  | some .caret | some .pictures | none => n.decimal plus places options

end Number

end MessagePattern
