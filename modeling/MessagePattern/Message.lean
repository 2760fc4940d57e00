import MessagePattern.Escape
import MessagePattern.Rendering
import MessagePattern.Section

/-!
# Messages

A message is made from a pattern in three steps. Optional sections are kept or
dropped, placeholders are replaced by their arguments from left to right, and
doubled delimiters are collapsed in the whole result, the text of arguments
included.
-/

set_option autoImplicit false

namespace MessagePattern

namespace Placeholder

def fill (arguments : Arguments) (options : Options) (p : Placeholder) (key : Key) :
    Except Error (List Char) :=
  match arguments.get? key with
  | some value => value.render p.modifiers options
  | none =>
    if p.isTypeQuery then .ok "void".toList
    else .error (.missingPlaceholder key arguments.keys)

end Placeholder

namespace Arguments

def fillPieces (arguments : Arguments) (options : Options) (position : Nat) :
    List Piece → Except Error (List Char)
  | [] => .ok []
  | .char c :: ps => do
    let rest ← arguments.fillPieces options position ps
    return c :: rest
  | .token p :: ps => do
    let text ← p.fill arguments options (p.keyAt position)
    let rest ← arguments.fillPieces options (p.advance position) ps
    return text ++ rest

end Arguments

def formatText (pattern : List Char) (arguments : Arguments) (options : Options) :
    Except Error (List Char) :=
  (arguments.fillPieces options 0 (pieces false (arguments.resolveSections pattern))).map
    Escape.collapse

def format (pattern : String) (arguments : Arguments) (options : Options := .standard) :
    Except Error String :=
  (formatText pattern.toList arguments options).map String.ofList

end MessagePattern
