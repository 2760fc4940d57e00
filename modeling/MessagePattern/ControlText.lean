import MessagePattern.Style

/-!
# Control characters made visible

The characters below the space and the delete character are shown either as a
caret with a letter, or as the picture that Unicode has for each of them. All
other characters stay as they are.
-/

set_option autoImplicit false

namespace MessagePattern.ControlText

def isControl (c : Char) : Bool := c.toNat < 0x20 || c.toNat == 0x7F

def caret (c : Char) : List Char :=
  if c.toNat < 0x20 then ['^', Char.ofNat (c.toNat + 0x40)]
  else if c.toNat = 0x7F then ['^', '?']
  else [c]

def picture (c : Char) : Char :=
  if c.toNat < 0x20 then Char.ofNat (c.toNat + 0x2400)
  else if c.toNat = 0x7F then Char.ofNat 0x2421
  else c

def apply (style : Option Style) (text : List Char) : List Char :=
  match style with
  | some .caret => text.flatMap caret
  | some .pictures => text.map picture
  | _ => text

theorem caret_of_not_isControl {c : Char} (h : isControl c = false) : caret c = [c] := by
  simp only [isControl, Bool.or_eq_false_iff, decide_eq_false_iff_not, beq_eq_false_iff_ne] at h
  rw [caret, if_neg h.1, if_neg h.2]

theorem picture_of_not_isControl {c : Char} (h : isControl c = false) : picture c = c := by
  simp only [isControl, Bool.or_eq_false_iff, decide_eq_false_iff_not, beq_eq_false_iff_ne] at h
  rw [picture, if_neg h.1, if_neg h.2]

end MessagePattern.ControlText
