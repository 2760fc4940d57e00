/-!
# Series

Items in running text: `a`, `a and b`, `a, b, and c`. Without a conjunction
there are only commas.
-/

set_option autoImplicit false

namespace MessagePattern.Series

def comma : List Char := [',', ' ']

def joinCommas (conjunction : Option (List Char)) : List (List Char) → List Char
  | [] => []
  | [a] => a
  | [a, b] =>
    match conjunction with
    | some word => a ++ comma ++ word ++ ' ' :: b
    | none => a ++ comma ++ b
  | a :: rest => a ++ comma ++ joinCommas conjunction rest

def join (conjunction : Option (List Char)) : List (List Char) → List Char
  | [a, b] =>
    match conjunction with
    | some word => a ++ ' ' :: word ++ ' ' :: b
    | none => a ++ comma ++ b
  | items => joinCommas conjunction items

end MessagePattern.Series
