import MessagePattern.Placeholder.Scan

/-!
# The pieces of a text

A text falls into placeholders, taken from the left as early as possible, and
the characters between them. A brace that follows a brace opens nothing, so
the reading of a text depends on whether a brace stands in front of it.
-/

set_option autoImplicit false

namespace MessagePattern

def byteSize : List Char → Nat
  | [] => 0
  | c :: r => c.utf8Size + byteSize r

inductive Piece where
  | char (c : Char)
  | token (placeholder : Placeholder)
  deriving DecidableEq

namespace Piece

def write : Piece → List Char
  | .char c => [c]
  | .token p => p.write

def isKeyless : Piece → Bool
  | .char _ => false
  | .token p => p.key.isNone

end Piece

namespace Placeholder

/-- A placeholder at the front of a text, given whether a brace stands before it. -/
def open? (afterBrace : Bool) (text : List Char) : Option (Placeholder × List Char) :=
  if afterBrace then none else scan? text

theorem write_append_of_open? {afterBrace : Bool} {text rest : List Char} {p : Placeholder}
    (h : open? afterBrace text = some (p, rest)) : p.write ++ rest = text := by
  unfold open? at h
  split at h
  · cases h
  · exact write_append_of_scan? h

theorem length_lt_of_open? {afterBrace : Bool} {text rest : List Char} {p : Placeholder}
    (h : open? afterBrace text = some (p, rest)) : rest.length < text.length := by
  unfold open? at h
  split at h
  · cases h
  · exact length_lt_of_scan? h

end Placeholder

open Placeholder

def pieces (afterBrace : Bool) (text : List Char) : List Piece :=
  match text with
  | [] => []
  | c :: r =>
    match _h : open? afterBrace (c :: r) with
    | some (p, rest) => .token p :: pieces false rest
    | none => .char c :: pieces (c == '{') r
termination_by text.length
decreasing_by
  · exact length_lt_of_open? _h
  · simp

theorem pieces_nil (afterBrace : Bool) : pieces afterBrace [] = [] := by
  rw [pieces]

theorem pieces_of_open?_eq_some {afterBrace : Bool} {text rest : List Char} {p : Placeholder}
    (h : open? afterBrace text = some (p, rest)) :
    pieces afterBrace text = .token p :: pieces false rest := by
  cases text with
  | nil => cases afterBrace <;> cases h
  | cons c r =>
    rw [pieces]
    split
    · rename_i h'
      cases h.symm.trans h'
      rfl
    · rename_i h'
      cases h.symm.trans h'

theorem pieces_of_open?_eq_none {afterBrace : Bool} {c : Char} {r : List Char}
    (h : open? afterBrace (c :: r) = none) :
    pieces afterBrace (c :: r) = .char c :: pieces (c == '{') r := by
  rw [pieces]
  split
  · rename_i h'
    cases h.symm.trans h'
  · rfl

/-- The pieces of a text make up the text. -/
theorem flatMap_write_pieces (afterBrace : Bool) (text : List Char) :
    (pieces afterBrace text).flatMap Piece.write = text := by
  fun_induction pieces afterBrace text with
  | case1 => rfl
  | case2 afterBrace c r p rest h ih =>
    rw [List.flatMap_cons, ih]
    exact write_append_of_open? h
  | case3 afterBrace c r h ih =>
    rw [List.flatMap_cons, ih]
    rfl

structure Token where
  start : Nat
  stop : Nat
  placeholder : Placeholder
  deriving DecidableEq

def tokensFrom (start : Nat) : List Piece → List Token
  | [] => []
  | .char c :: ps => tokensFrom (start + c.utf8Size) ps
  | .token p :: ps =>
    let stop := start + byteSize p.write
    ⟨start, stop, p⟩ :: tokensFrom stop ps

def tokens (text : String) : List Token := tokensFrom 0 (pieces false text.toList)

def openAt? (afterBrace : Bool) : Nat → List Char → Option (Placeholder × List Char)
  | 0, text => open? afterBrace text
  | _ + 1, [] => none
  | n + 1, c :: r => if c.utf8Size ≤ n + 1 then openAt? (c == '{') (n + 1 - c.utf8Size) r else none

def Placeholder.parseAt? (text : String) (start : Nat) : Option Token :=
  (openAt? false start text.toList).map fun (p, _) => ⟨start, start + byteSize p.write, p⟩

def keylessCount (ps : List Piece) : Nat := ps.countP Piece.isKeyless

end MessagePattern
