/-!
# Styles

A placeholder may ask for one of six styles by a letter. Four of them are
notations for numbers, two make the control characters of a text visible.
-/

set_option autoImplicit false

namespace MessagePattern

inductive Style where
  | binary
  | octal
  | hex
  | exponent
  | caret
  | pictures
  deriving DecidableEq

namespace Style

def letter : Style → Char
  | .binary => 'b'
  | .octal => 'o'
  | .hex => 'x'
  | .exponent => 'e'
  | .caret => 'c'
  | .pictures => 'p'

def ofLetter? : Char → Option Style
  | 'b' => some .binary
  | 'o' => some .octal
  | 'x' => some .hex
  | 'e' => some .exponent
  | 'c' => some .caret
  | 'p' => some .pictures
  | _ => none

theorem ofLetter?_letter (s : Style) : ofLetter? s.letter = some s := by
  cases s <;> rfl

theorem letter_of_ofLetter? {c : Char} {s : Style} (h : ofLetter? c = some s) : s.letter = c := by
  unfold ofLetter? at h
  split at h <;> cases h <;> rfl

end Style

end MessagePattern
