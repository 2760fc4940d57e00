import MessagePattern.Arguments
import MessagePattern.Placeholder.Pieces

/-!
# Optional sections

A section stands in square brackets. It is kept, without its brackets, if each
placeholder inside that carries a question mark has an argument that is not
empty, and vanishes otherwise. A bracket next to its like is no bracket, inner
sections are part of the content of the outer one, and no section is empty.
-/

set_option autoImplicit false

namespace MessagePattern

/-- The content of a section whose opening bracket has been read, and the text
behind its closing one. `depth` inner sections are open, and `filled` tells
whether the innermost level has any content. An outer level has content as
soon as an inner one closes, so the innermost alone needs to be watched. -/
def closeSection (depth : Nat) (filled : Bool) : List Char → Option (List Char × List Char)
  | [] => none
  | '[' :: '[' :: r => (closeSection depth true r).map fun (s, t) => ('[' :: '[' :: s, t)
  | ']' :: ']' :: r => (closeSection depth true r).map fun (s, t) => (']' :: ']' :: s, t)
  | '[' :: r => (closeSection (depth + 1) false r).map fun (s, t) => ('[' :: s, t)
  | ']' :: r =>
    if filled then
      match depth with
      | 0 => some ([], r)
      | depth + 1 => (closeSection depth true r).map fun (s, t) => (']' :: s, t)
    else none
  | c :: r => (closeSection depth true r).map fun (s, t) => (c :: s, t)

def openSection (afterBracket : Bool) : List Char → Option (List Char × List Char)
  | '[' :: '[' :: _ => none
  | '[' :: r => if afterBracket then none else closeSection 0 false r
  | _ => none

theorem closeSection_append {depth : Nat} {filled : Bool} {text content rest : List Char}
    (h : closeSection depth filled text = some (content, rest)) :
    content ++ ']' :: rest = text := by
  fun_induction closeSection depth filled text generalizing content with
  | case1 => cases h
  | case2 depth filled r ih =>
    obtain ⟨⟨s, t⟩, hs, he⟩ := Option.map_eq_some_iff.mp h
    cases he
    rw [← ih hs]
    rfl
  | case3 depth filled r ih =>
    obtain ⟨⟨s, t⟩, hs, he⟩ := Option.map_eq_some_iff.mp h
    cases he
    rw [← ih hs]
    rfl
  | case4 depth filled r _ ih =>
    obtain ⟨⟨s, t⟩, hs, he⟩ := Option.map_eq_some_iff.mp h
    cases he
    rw [← ih hs]
    rfl
  | case5 => cases h; rfl
  | case6 filled r depth ih =>
    obtain ⟨⟨s, t⟩, hs, he⟩ := Option.map_eq_some_iff.mp h
    cases he
    rw [← ih hs]
    rfl
  | case7 => cases h
  | case8 depth filled c r _ _ _ _ ih =>
    obtain ⟨⟨s, t⟩, hs, he⟩ := Option.map_eq_some_iff.mp h
    cases he
    rw [← ih hs]
    rfl

theorem openSection_append {afterBracket : Bool} {text content rest : List Char}
    (h : openSection afterBracket text = some (content, rest)) :
    '[' :: content ++ ']' :: rest = text := by
  unfold openSection at h
  split at h
  · cases h
  · split at h
    · cases h
    · rw [← closeSection_append h]
      rfl
  · cases h

theorem length_lt_of_openSection {afterBracket : Bool} {text content rest : List Char}
    (h : openSection afterBracket text = some (content, rest)) : rest.length < text.length := by
  rw [← openSection_append h]
  simp only [List.cons_append, List.length_cons, List.length_append]
  omega

inductive Segment where
  | literal (text : List Char)
  | bracketed (content : List Char)
  deriving DecidableEq

namespace Segment

def consLiteral (c : Char) : List Segment → List Segment
  | .literal text :: segments => .literal (c :: text) :: segments
  | segments => .literal [c] :: segments

def write : Segment → List Char
  | .literal text => text
  | .bracketed content => '[' :: content ++ [']']

theorem flatMap_write_consLiteral (c : Char) (segments : List Segment) :
    (consLiteral c segments).flatMap write = c :: segments.flatMap write := by
  cases segments with
  | nil => rfl
  | cons segment segments => cases segment <;> rfl

end Segment

def segments (afterBracket : Bool) (text : List Char) : List Segment :=
  match text with
  | [] => []
  | c :: r =>
    match _h : openSection afterBracket (c :: r) with
    | some (content, rest) => .bracketed content :: segments false rest
    | none => Segment.consLiteral c (segments (c == '[') r)
termination_by text.length
decreasing_by
  · exact length_lt_of_openSection _h
  · simp

theorem segments_nil (afterBracket : Bool) : segments afterBracket [] = [] := by
  rw [segments]

theorem segments_of_openSection_eq_some {afterBracket : Bool} {text content rest : List Char}
    (h : openSection afterBracket text = some (content, rest)) :
    segments afterBracket text = .bracketed content :: segments false rest := by
  cases text with
  | nil => cases h
  | cons c r =>
    rw [segments]
    split
    · rename_i h'
      cases h.symm.trans h'
      rfl
    · rename_i h'
      cases h.symm.trans h'

theorem segments_of_openSection_eq_none {afterBracket : Bool} {c : Char} {r : List Char}
    (h : openSection afterBracket (c :: r) = none) :
    segments afterBracket (c :: r) = Segment.consLiteral c (segments (c == '[') r) := by
  rw [segments]
  split
  · rename_i h'
    cases h.symm.trans h'
  · rfl

/-- The segments of a text make up the text. -/
theorem flatMap_write_segments (afterBracket : Bool) (text : List Char) :
    (segments afterBracket text).flatMap Segment.write = text := by
  fun_induction segments afterBracket text with
  | case1 => rfl
  | case2 afterBracket c r content rest h ih =>
    rw [List.flatMap_cons, ih, ← openSection_append h]
    simp [Segment.write]
  | case3 afterBracket c r h ih =>
    rw [Segment.flatMap_write_consLiteral, ih]

namespace Arguments

def fills (arguments : Arguments) (key : Key) : Bool :=
  match arguments.get? key with
  | some value => !value.isEmpty
  | none => false

def keeps (arguments : Arguments) (position : Nat) : List Piece → Bool
  | [] => true
  | .char _ :: ps => arguments.keeps position ps
  | .token p :: ps =>
    (!p.optional || arguments.fills (p.keyAt position)) &&
      arguments.keeps (p.advance position) ps

def resolve (arguments : Arguments) (position : Nat) : List Segment → List Char
  | [] => []
  | .literal text :: rest =>
    text ++ arguments.resolve (position + keylessCount (pieces false text)) rest
  | .bracketed content :: rest =>
    if arguments.keeps position (pieces false content) then
      content ++ arguments.resolve (position + keylessCount (pieces false content)) rest
    else arguments.resolve position rest

def resolveSections (arguments : Arguments) (pattern : List Char) : List Char :=
  arguments.resolve 0 (segments false pattern)

/-- The same text put together step by step. It is begun at the first section, so
that there is none as long as the pattern can stay as it is. `literal` has been
passed since the last section. -/
def rewriteFrom (arguments : Arguments) (position : Nat) (output : Option (List Char))
    (literal : List Char) : List Segment → Option (List Char)
  | [] => output.map (· ++ literal)
  | .literal text :: rest => arguments.rewriteFrom position output (literal ++ text) rest
  | .bracketed content :: rest =>
    let before := position + keylessCount (pieces false literal)
    let copied := output.getD [] ++ literal
    if arguments.keeps before (pieces false content) then
      arguments.rewriteFrom (before + keylessCount (pieces false content))
        (some (copied ++ content)) [] rest
    else arguments.rewriteFrom before (some copied) [] rest

def rewriteSections? (arguments : Arguments) (pattern : List Char) : Option (List Char) :=
  arguments.rewriteFrom 0 none [] (segments false pattern)

end Arguments

end MessagePattern
