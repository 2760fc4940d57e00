import MessagePattern.Binary64

/-!
# Values

What a placeholder can be filled with: plain data, an object that offers
conversions of itself, or a handle to something outside the message, which has
a name but no text.
-/

set_option autoImplicit false

namespace MessagePattern

inductive Attempt (α : Type) where
  | done (result : α)
  | failed (message : String)
  deriving DecidableEq

/-- An object's own way to print itself: pieces written in order, and perhaps a
breakdown after the last. -/
structure Display where
  pieces : List String
  breaks : Bool
  deriving DecidableEq

/-- The conversions an object offers apart from its items. The identity tells
two objects of one make apart. -/
structure Object where
  identity : Nat
  typeName : String
  display : Option Display := none
  text : Option (Attempt String) := none
  integer : Option (Attempt Int64) := none
  float : Option (Attempt Binary64) := none
  deriving DecidableEq

structure Handle where
  kind : String
  closed : Bool := false
  deriving DecidableEq

namespace Handle

def close (handle : Handle) : Handle := { handle with closed := true }

def typeName (handle : Handle) : String :=
  if handle.closed then "closed resource" else "resource"

def describe (handle : Handle) : String :=
  if handle.closed then handle.typeName else handle.kind ++ " " ++ handle.typeName

end Handle

/-- The items of an object that can be gone through stand beside it, since they
are values themselves. -/
inductive Value where
  | null
  | bool (b : Bool)
  | integer (i : Int64)
  | float (x : Binary64)
  | text (s : String)
  | list (items : List Value)
  | object (about : Object) (items : Option (List Value))
  | handle (h : Handle)

namespace Value

instance : Inhabited Value := ⟨.null⟩

def typeName : Value → String
  | .null => "null"
  | .bool _ => "bool"
  | .integer _ => "int"
  | .float _ => "float"
  | .text _ => "string"
  | .list _ => "array"
  | .object about _ => about.typeName
  | .handle h => h.typeName

/-- The values that let an optional section vanish. -/
def isEmpty : Value → Bool
  | .null => true
  | .bool b => !b
  | .integer i => i == 0
  | .float x => x.isZero
  | .text s => s.isEmpty
  | .list items => items.isEmpty
  | .object _ _ => false
  | .handle _ => false

def isNull : Value → Bool
  | .null => true
  | _ => false

def isNumber : Value → Bool
  | .integer _ | .float _ => true
  | _ => false

def isList : Value → Bool
  | .list _ => true
  | _ => false

def text? : Value → Option String
  | .text s => some s
  | _ => none

def integer? : Value → Option Int64
  | .integer i => some i
  | _ => none

def items? : Value → Option (List Value)
  | .list items => some items
  | _ => none

mutual

/-- The very same value: unlike equality, it takes doubles and objects as they
are written down. -/
def same : Value → Value → Bool
  | .null, .null => true
  | .bool a, .bool b => a == b
  | .integer i, .integer j => i == j
  | .float x, .float y => decide (x = y)
  | .text s, .text t => s == t
  | .list vs, .list ws => sameItems vs ws
  | .object o vs, .object p ws => decide (o = p) && sameOptional vs ws
  | .handle h, .handle k => decide (h = k)
  | _, _ => false

def sameItems : List Value → List Value → Bool
  | [], [] => true
  | v :: vs, w :: ws => same v w && sameItems vs ws
  | _, _ => false

def sameOptional : Option (List Value) → Option (List Value) → Bool
  | none, none => true
  | some vs, some ws => sameItems vs ws
  | _, _ => false

end

mutual

def equal : Value → Value → Bool
  | .null, .null => true
  | .bool a, .bool b => a == b
  | .integer i, .integer j => i == j
  | .float x, .float y => x.equal y
  | .text s, .text t => s == t
  | .list vs, .list ws => equalItems vs ws
  | .object o vs, .object p ws => decide (o = p) && sameOptional vs ws
  | .handle h, .handle k => decide (h = k)
  | _, _ => false

def equalItems : List Value → List Value → Bool
  | [], [] => true
  | v :: vs, w :: ws => equal v w && equalItems vs ws
  | _, _ => false

end

mutual

theorem same_self (v : Value) : same v v = true := by
  cases v with
  | list items => exact sameItems_self items
  | object about items => simp [same, sameOptional_self items]
  | _ => simp [same]

theorem sameItems_self (vs : List Value) : sameItems vs vs = true := by
  cases vs with
  | nil => rfl
  | cons v vs => simp [sameItems, same_self v, sameItems_self vs]

theorem sameOptional_self (vs : Option (List Value)) : sameOptional vs vs = true := by
  cases vs with
  | none => rfl
  | some vs => exact sameItems_self vs

end

mutual

theorem eq_of_same {v w : Value} (h : same v w = true) : v = w := by
  cases v with
  | list vs =>
    cases w with
    | list ws => exact congrArg _ (eq_of_sameItems h)
    | _ => cases h
  | object o vs =>
    cases w with
    | object p ws =>
      simp only [same, Bool.and_eq_true, decide_eq_true_eq] at h
      rw [h.1, eq_of_sameOptional h.2]
    | _ => cases h
  | _ => cases w <;> simp_all [same]

theorem eq_of_sameItems {vs ws : List Value} (h : sameItems vs ws = true) : vs = ws := by
  cases vs with
  | nil =>
    cases ws with
    | nil => rfl
    | cons w ws => cases h
  | cons v vs =>
    cases ws with
    | nil => cases h
    | cons w ws =>
      simp only [sameItems, Bool.and_eq_true] at h
      rw [eq_of_same h.1, eq_of_sameItems h.2]

theorem eq_of_sameOptional {vs ws : Option (List Value)} (h : sameOptional vs ws = true) :
    vs = ws := by
  cases vs with
  | none =>
    cases ws with
    | none => rfl
    | some ws => cases h
  | some vs =>
    cases ws with
    | none => cases h
    | some ws => exact congrArg _ (eq_of_sameItems h)

end

theorem same_iff (v w : Value) : same v w = true ↔ v = w :=
  ⟨eq_of_same, fun h => h ▸ same_self v⟩

instance : DecidableEq Value := fun v w => decidable_of_iff _ (same_iff v w)

end Value

end MessagePattern
