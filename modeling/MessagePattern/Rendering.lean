import MessagePattern.ControlText
import MessagePattern.Error
import MessagePattern.Numeral
import MessagePattern.Placeholder
import MessagePattern.Value

/-!
# The text of a value

A value is rendered under the modifiers of a placeholder. Lists are written as
a series and pass the modifiers on to their items; an object is written through
the first conversion it offers, and later ones are not looked at.
-/

set_option autoImplicit false

namespace MessagePattern

structure Modifiers where
  plus : Bool := false
  decimals : Nat := 0
  style : Option Style := none
  conjunction : Option String := none
  deriving DecidableEq

def Placeholder.modifiers (p : Placeholder) : Modifiers where
  plus := p.plus
  decimals := (p.decimals.map UInt64.toNat).getD 0
  style := p.style
  conjunction := p.conjunction

namespace Modifiers

def isTypeQuery (m : Modifiers) : Bool := m.conjunction == some "?"

def number (m : Modifiers) (options : Options) (n : Number) : List Char :=
  n.write m.plus m.decimals m.style options

def text (m : Modifiers) (s : String) : List Char := ControlText.apply m.style s.toList

def series (m : Modifiers) (label : String) : List (List Char) → List Char
  | [] => "empty ".toList ++ label.toList
  | items => Series.join (m.conjunction.map String.toList) items

end Modifiers

namespace Object

def text? (about : Object) : Option (Except Error String) :=
  match about.display, about.text with
  | some display, _ =>
    some (if display.breaks then .error .brokenDisplay else .ok (String.join display.pieces))
  | none, some (.done s) => some (.ok s)
  | none, some (.failed reason) => some (.error (.conversion reason))
  | none, none => none

def number? (about : Object) : Option (Except Error Number) :=
  match about.integer, about.float with
  | some (.done i), _ => some (.ok (.integer i))
  | some (.failed reason), _ => some (.error (.conversion reason))
  | none, some (.done x) => some (.ok (.float x))
  | none, some (.failed reason) => some (.error (.conversion reason))
  | none, none => none

end Object

namespace Value

def describe : Value → String
  | .handle h => h.describe
  | v => v.typeName

mutual

def renderPlain (m : Modifiers) (options : Options) : Value → Except Error (List Char)
  | .null => .ok "NULL".toList
  | .bool b => .ok (if b then "TRUE" else "FALSE").toList
  | .integer i => .ok (m.number options (.integer i))
  | .float x => .ok (m.number options (.float x))
  | .text s => .ok (m.text s)
  | .list items => (renderItems m options items).map (m.series "array")
  | .object about items =>
    match about.text?, items, about.number? with
    | some own, _, _ => own.map m.text
    | none, some items, _ => (renderItems m options items).map (m.series about.typeName)
    | none, none, some own => own.map (m.number options)
    | none, none, none => .error (.invalidArgument about.typeName)
  | .handle h => .error (.invalidArgument h.typeName)

def renderItems (m : Modifiers) (options : Options) :
    List Value → Except Error (List (List Char))
  | [] => .ok []
  | v :: vs => do
    let first ← renderPlain m options v
    let others ← renderItems m options vs
    return first :: others

end

def render (m : Modifiers) (options : Options) (v : Value) : Except Error (List Char) :=
  if m.isTypeQuery then .ok v.describe.toList else v.renderPlain m options

end Value

end MessagePattern
