/-!
# Doubled delimiters

The four brackets that delimit placeholders and sections stand for themselves
when they are doubled. Writing text for a pattern doubles each of them, and the
last step of formatting collapses each pair to one, from the left and without
overlap.
-/

set_option autoImplicit false

namespace MessagePattern.Escape

def isDelimiter (c : Char) : Bool :=
  c == '{' || c == '}' || c == '[' || c == ']'

def escape : List Char → List Char
  | [] => []
  | c :: r => if isDelimiter c then c :: c :: escape r else c :: escape r

def collapse : List Char → List Char
  | c :: d :: r =>
    if isDelimiter c && c == d then c :: collapse r else c :: collapse (d :: r)
  | r => r

/-- The collapsed text put together step by step. It is begun at the first pair, so
that there is none as long as the text can stay as it is. `literal` has been passed
since the last pair. -/
def rewriteFrom (output : Option (List Char)) (literal : List Char) :
    List Char → Option (List Char)
  | c :: d :: r =>
    if isDelimiter c && c == d then rewriteFrom (some (output.getD [] ++ literal ++ [c])) [] r
    else rewriteFrom output (literal ++ [c]) (d :: r)
  | r => output.map (· ++ literal ++ r)

def collapse? (text : List Char) : Option (List Char) := rewriteFrom none [] text

def hasPair : List Char → Bool
  | c :: d :: r => isDelimiter c && c == d || hasPair (d :: r)
  | _ => false

theorem escape_append (s t : List Char) : escape (s ++ t) = escape s ++ escape t := by
  induction s with
  | nil => rfl
  | cons c r ih => by_cases h : isDelimiter c <;> simp [escape, h, ih]

theorem collapse_of_not_isDelimiter {c : Char} (h : isDelimiter c = false) (r : List Char) :
    collapse (c :: r) = c :: collapse r := by
  cases r with
  | nil => rfl
  | cons d r => simp [collapse, h]

theorem collapse_escape (s : List Char) : collapse (escape s) = s := by
  induction s with
  | nil => rfl
  | cons c r ih =>
    by_cases h : isDelimiter c
    · simp [escape, h, collapse, ih]
    · simp [escape, h, collapse_of_not_isDelimiter, ih]

theorem collapse_eq_self {s : List Char} (h : hasPair s = false) : collapse s = s := by
  induction s with
  | nil => rfl
  | cons c r ih =>
    cases r with
    | nil => rfl
    | cons d r =>
      simp only [hasPair, Bool.or_eq_false_iff] at h
      simp [collapse, h.1, ih h.2]

end MessagePattern.Escape
