import Mathlib.Data.String.Basic
import MessagePattern.Proofs.Texts

/-!
# Splicing

Spans of a text, given by their bytes, are replaced by other texts from left to
right, and what lies between them is copied. A slice is taken as the string
library takes it; between characters it is the text that stands there.
-/

set_option autoImplicit false

namespace MessagePattern

def slice (text : String) (start stop : Nat) : String :=
  String.Pos.Raw.extract text ⟨start⟩ ⟨stop⟩

theorem utf8Len_eq_byteSize (text : List Char) : String.utf8Len text = byteSize text := by
  induction text with
  | nil => rfl
  | cons c r ih => rw [String.utf8Len_cons, ih, Nat.add_comm, byteSize]

theorem slice_append (before middle after : List Char) :
    slice (String.ofList (before ++ middle ++ after)) (byteSize before)
      (byteSize (before ++ middle)) = String.ofList middle := by
  have h := String.extract_of_valid before middle after
  rw [utf8Len_eq_byteSize, utf8Len_eq_byteSize, ← byteSize_append] at h
  exact h

structure Replacement where
  start : Nat
  stop : Nat
  text : String

def splice (text : String) (copied : Nat) : List Replacement → String
  | [] => slice text copied text.utf8ByteSize
  | r :: rs => slice text copied r.start ++ r.text ++ splice text r.stop rs

theorem splice_nil (done rest : List Char) :
    splice (String.ofList (done ++ rest)) (byteSize done) [] = String.ofList rest := by
  have h := slice_append done rest []
  rw [List.append_nil] at h
  rw [splice, utf8ByteSize_ofList, h]

theorem splice_cons (done kept old rest : List Char) (new : String) (rs : List Replacement) :
    splice (String.ofList (done ++ kept ++ old ++ rest)) (byteSize done)
        (⟨byteSize (done ++ kept), byteSize (done ++ kept ++ old), new⟩ :: rs) =
      String.ofList kept ++ new ++
        splice (String.ofList (done ++ kept ++ old ++ rest)) (byteSize (done ++ kept ++ old)) rs := by
  have h := slice_append done kept (old ++ rest)
  rw [← List.append_assoc] at h
  rw [splice, h]

end MessagePattern
