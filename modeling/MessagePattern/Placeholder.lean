import MessagePattern.Key
import MessagePattern.Style

/-!
# Placeholders

A placeholder is written in braces: a plus, a key, a number of decimals behind
a point, a style letter behind a hash and a conjunction behind a colon, each of
which may be missing. A question mark after the closing brace makes the
surrounding section depend on the argument.
-/

set_option autoImplicit false

namespace MessagePattern

/-- A conjunction is kept as it was written, doubled braces included. -/
structure Placeholder where
  plus : Bool := false
  key : Option Key := none
  decimals : Option UInt64 := none
  style : Option Style := none
  conjunction : Option String := none
  optional : Bool := false
  deriving DecidableEq

namespace Placeholder

def isTypeQuery (p : Placeholder) : Bool := p.conjunction == some "?"

def keyAt (p : Placeholder) (position : Nat) : Key := p.key.getD (.ofNat position)

def advance (p : Placeholder) (position : Nat) : Nat :=
  if p.key.isNone then position + 1 else position

def writeKey : Option Key → List Char
  | none => []
  | some key => key.write

def writeDecimals : Option UInt64 → List Char
  | none => []
  | some n => '.' :: writeDigits n

def writeStyle : Option Style → List Char
  | none => []
  | some style => ['#', style.letter]

def writeConjunction : Option String → List Char
  | none => []
  | some text => ':' :: text.toList

def write (p : Placeholder) : List Char :=
  '{' :: (if p.plus then ['+'] else []) ++ writeKey p.key ++ writeDecimals p.decimals ++
    writeStyle p.style ++ writeConjunction p.conjunction ++
    '}' :: (if p.optional then ['?'] else [])

end Placeholder

end MessagePattern
