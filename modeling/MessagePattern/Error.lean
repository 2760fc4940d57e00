import MessagePattern.Key
import MessagePattern.Series

/-!
# Errors

Why a message could not be written, or why data could not become an argument.
Nothing of a message is produced when an error occurs.
-/

set_option autoImplicit false

namespace MessagePattern

inductive Error where
  | missingPlaceholder (key : Key) (present : List Key)
  | invalidArgument (typeName : String)
  | conversion (reason : String)
  | unsupportedArguments (what : String)
  | custom (reason : String)
  deriving DecidableEq

namespace Error

def brokenDisplay : Error := .conversion "an error occurred when formatting an argument"

def listKeys : List Key → List Char
  | [] => "none".toList
  | keys => Series.join (some "and".toList) (keys.map Key.write)

def message : Error → String
  | .missingPlaceholder key present =>
    "Placeholder `" ++ key.display ++
      "` not found in arguments, the following placeholders were present: " ++
      String.ofList (listKeys present)
  | .invalidArgument typeName => "Cannot format " ++ typeName
  | .conversion reason => reason
  | .unsupportedArguments what => "Unsupported arguments: " ++ what
  | .custom reason => "Error: " ++ reason

end Error

/-- A computation of two steps succeeds if both do. -/
theorem bind_eq_ok {α β : Type} {x : Except Error α} {f : α → Except Error β} {b : β} :
    x >>= f = .ok b ↔ ∃ a, x = .ok a ∧ f a = .ok b := by
  cases x with
  | error e => exact iff_of_false (fun h => by cases h) (fun ⟨_, h, _⟩ => by cases h)
  | ok a => exact ⟨fun h => ⟨a, rfl, h⟩, fun ⟨_, he, h⟩ => by cases he; exact h⟩

/-- A computation of two steps fails if either does. -/
theorem bind_eq_error {α β : Type} {x : Except Error α} {f : α → Except Error β} {e : Error} :
    x >>= f = .error e ↔ x = .error e ∨ ∃ a, x = .ok a ∧ f a = .error e := by
  cases x with
  | error _ => simp [bind, Except.bind]
  | ok _ => simp [bind, Except.bind]

theorem map_eq_error {α β : Type} {x : Except Error α} {f : α → β} {e : Error} :
    x.map f = .error e ↔ x = .error e := by
  cases x with
  | error _ => simp [Except.map]
  | ok _ => simp [Except.map]

theorem map_eq_ok {α β : Type} {x : Except Error α} {f : α → β} {b : β} :
    x.map f = .ok b ↔ ∃ a, x = .ok a ∧ f a = b := by
  cases x with
  | error _ => simp [Except.map]
  | ok _ => simp [Except.map]

end MessagePattern
