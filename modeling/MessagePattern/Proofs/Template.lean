import MessagePattern.Message

/-!
# Templates

A pattern before it is written down: literal text, placeholders, and sections
that hold both. A template is evaluated from left to right, without any text
being read again. Its literals appear in the message as they are; among the
renderings, doubled delimiters stand for one, also where two renderings meet.
-/

set_option autoImplicit false

namespace MessagePattern.Template
open Escape

inductive Part where
  | literal (text : List Char)
  | token (placeholder : Placeholder)

inductive Item where
  | part (p : Part)
  | bracketed (parts : List Part)

def Part.print : Part → List Char
  | .literal text => escape text
  | .token p => p.write

def printParts (parts : List Part) : List Char := parts.flatMap Part.print

def Item.print : Item → List Char
  | .part p => p.print
  | .bracketed parts => '[' :: printParts parts ++ [']']

def print (items : List Item) : List Char := items.flatMap Item.print

def printableKey : Option Key → Bool
  | some (.name text) =>
    !text.toList.isEmpty && text.toList.all Placeholder.isKeyChar && Key.parse text == .name text
  | _ => true

def printableConjunction : Option String → Bool
  | some text => !text.toList.isEmpty && text.toList.all (!isDelimiter ·)
  | none => true

def Part.wellFormed : Part → Bool
  | .literal text =>
    text.head?.all (fun c => !isDelimiter c && c != '?') && text.getLast?.all (!isDelimiter ·)
  | .token p => printableKey p.key && p.decimals != some 0 && printableConjunction p.conjunction

def Item.wellFormed : Item → Bool
  | .part p => p.wellFormed
  | .bracketed parts => parts.all Part.wellFormed && !(printParts parts).isEmpty

def wellFormed (items : List Item) : Bool := items.all Item.wellFormed

inductive Chunk where
  | literal (text : List Char)
  | rendered (text : List Char)

def Part.isKeyless : Part → Bool
  | .literal _ => false
  | .token p => p.key.isNone

def keyless (parts : List Part) : Nat := parts.countP Part.isKeyless

def satisfied (arguments : Arguments) (position : Nat) : List Part → Bool
  | [] => true
  | .literal _ :: parts => satisfied arguments position parts
  | .token p :: parts =>
    (!p.optional || arguments.fills (p.keyAt position)) &&
      satisfied arguments (p.advance position) parts

def fillParts (arguments : Arguments) (options : Options) (position : Nat) :
    List Part → Except Error (List Chunk)
  | [] => .ok []
  | .literal text :: parts => do
    let rest ← fillParts arguments options position parts
    return .literal text :: rest
  | .token p :: parts => do
    let text ← p.fill arguments options (p.keyAt position)
    let rest ← fillParts arguments options (p.advance position) parts
    return .rendered text :: rest

def evaluate (arguments : Arguments) (options : Options) (position : Nat) :
    List Item → Except Error (List Chunk)
  | [] => .ok []
  | .part p :: items => do
    let first ← fillParts arguments options position [p]
    let rest ← evaluate arguments options (position + keyless [p]) items
    return first ++ rest
  | .bracketed parts :: items =>
    if satisfied arguments position parts then do
      let inner ← fillParts arguments options position parts
      let rest ← evaluate arguments options (position + keyless parts) items
      return inner ++ rest
    else evaluate arguments options position items

/-- The message of evaluated chunks; `run` is rendered text that is not yet
followed by a literal. -/
def message (run : List Char) : List Chunk → List Char
  | [] => collapse run
  | .rendered text :: chunks => message (run ++ text) chunks
  | .literal [] :: chunks => message run chunks
  | .literal (c :: text) :: chunks => collapse run ++ (c :: text ++ message [] chunks)

def plain : List Chunk → List Char
  | [] => []
  | .rendered text :: chunks => text ++ plain chunks
  | .literal text :: chunks => text ++ plain chunks

def runs (run : List Char) : List Chunk → List (List Char)
  | [] => [run]
  | .rendered text :: chunks => runs (run ++ text) chunks
  | .literal [] :: chunks => runs run chunks
  | .literal (_ :: _) :: chunks => run :: runs [] chunks

theorem message_plain (chunks : List Chunk) (run : List Char)
    (h : ∀ text ∈ runs run chunks, hasPair text = false) :
    message run chunks = run ++ plain chunks := by
  fun_induction message run chunks with
  | case1 run =>
    rw [collapse_eq_self (h run (by simp [runs])), plain, List.append_nil]
  | case2 run text chunks ih =>
    rw [ih (by simpa [runs] using h), plain, List.append_assoc]
  | case3 run chunks ih =>
    rw [ih (by simpa [runs] using h), plain, List.nil_append]
  | case4 run c text chunks ih =>
    rw [collapse_eq_self (h run (by simp [runs])), ih (fun t ht => h t (by simp [runs, ht])), plain]
    simp

end MessagePattern.Template
