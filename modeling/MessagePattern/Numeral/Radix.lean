/-!
# Radix numerals

An integer is shown as the 64-bit word that holds it, in base two, eight or
sixteen, behind a mark of the base.
-/

set_option autoImplicit false

namespace MessagePattern.Numeral

def word (i : Int64) : Nat := i.toUInt64.toNat

def binary (i : Int64) : List Char := '0' :: 'b' :: Nat.toDigits 2 (word i)

def octal (i : Int64) : List Char := '0' :: 'o' :: Nat.toDigits 8 (word i)

def hex (i : Int64) : List Char := '0' :: 'x' :: (Nat.toDigits 16 (word i)).map Char.toUpper

theorem word_lt (i : Int64) : word i < UInt64.size := i.toUInt64.toNat_lt

end MessagePattern.Numeral
