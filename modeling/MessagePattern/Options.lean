/-!
# Locale options

The two characters that punctuate a decimal numeral. Nothing else in a message
depends on them.
-/

set_option autoImplicit false

namespace MessagePattern

structure Options where
  decimalPoint : Char := '.'
  thousandsSeparator : Option Char := some ','
  deriving DecidableEq

namespace Options

def standard : Options := {}

def withDecimalPoint (options : Options) (c : Char) : Options :=
  { options with decimalPoint := c }

def withThousandsSeparator (options : Options) (c : Char) : Options :=
  { options with thousandsSeparator := some c }

def withoutGrouping (options : Options) : Options :=
  { options with thousandsSeparator := none }

end Options

end MessagePattern
