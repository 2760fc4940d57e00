import Mathlib.Data.List.SplitBy
import MessagePattern.Proofs.OffsetMessages

/-!
# Runs of delimiters

Collapsing halves the runs of equal delimiters. What a run is halved to is still a
run of its own, so that the four kinds of delimiters can be collapsed one after the
other, in any order, by replacing pairs in the whole text.
-/

set_option autoImplicit false

namespace MessagePattern.Escape
open Offsets

def runs (text : List Char) : List (List Char) := text.splitBy (· == ·)

def halve (kind : Char → Bool) : List Char → List Char
  | [] => []
  | c :: r => if kind c then List.replicate (((c :: r).length + 1) / 2) c else c :: r

def halveRuns (kind : Char → Bool) (text : List Char) : List Char :=
  (runs text).flatMap (halve kind)

theorem runs_append {c : Char} (k : Nat) {rest : List Char} (h : rest.head? ≠ some c) :
    runs (List.replicate (k + 1) c ++ rest) = List.replicate (k + 1) c :: runs rest := by
  have hrun : (List.replicate (k + 1) c).splitBy (· == ·) = [List.replicate (k + 1) c] := by
    apply List.splitBy_of_isChain (by simp)
    exact List.isChain_replicate_of_rel _ (beq_self_eq_true c)
  rw [runs, List.splitBy_append, hrun]
  · rfl
  · intro x hx y hy
    obtain rfl := List.eq_of_mem_replicate (List.mem_of_mem_getLast? hx)
    rw [beq_eq_false_iff_ne]
    rintro rfl
    exact h hy

/-- A text is empty, or it is a run and a text that does not go on with it. -/
theorem runs_induction {motive : List Char → Prop} (nil : motive [])
    (run : ∀ c k rest, rest.head? ≠ some c → motive rest →
      motive (List.replicate (k + 1) c ++ rest))
    (text : List Char) : motive text := by
  induction hn : text.length using Nat.strong_induction_on generalizing text with
  | _ n ih =>
    cases text with
    | nil => exact nil
    | cons c r =>
      obtain ⟨taken, htaken⟩ : ∃ taken, taken = r.takeWhile (· == c) := ⟨_, rfl⟩
      obtain ⟨rest, hrest⟩ : ∃ rest, rest = r.dropWhile (· == c) := ⟨_, rfl⟩
      have hr : taken ++ rest = r := by
        rw [htaken, hrest, List.takeWhile_append_dropWhile]
      have hall : taken = List.replicate taken.length c := by
        apply List.eq_replicate_of_mem
        intro d hd
        rw [htaken] at hd
        exact eq_of_beq (List.all_eq_true.mp List.all_takeWhile d hd)
      have hhead : rest.head? ≠ some c := by
        intro hh
        have hnot := List.head?_dropWhile_not (· == c) r
        rw [← hrest, hh] at hnot
        simp at hnot
      have hlen : rest.length < n := by
        rw [← hn, ← hr, List.length_cons, List.length_append]
        omega
      have ht : c :: r = List.replicate (taken.length + 1) c ++ rest := by
        rw [← hr, List.replicate_succ, ← hall, List.cons_append]
      rw [ht]
      exact run c _ rest hhead (ih rest.length hlen rest rfl)

theorem halve_replicate (kind : Char → Bool) (c : Char) (k : Nat) :
    halve kind (List.replicate (k + 1) c) =
      List.replicate ((if kind c then k / 2 else k) + 1) c := by
  rw [List.replicate_succ, halve]
  split
  · rw [List.length_cons, List.length_replicate]
    congr 1
    omega
  · rfl

theorem halveRuns_append (kind : Char → Bool) {c : Char} (k : Nat) {rest : List Char}
    (h : rest.head? ≠ some c) :
    halveRuns kind (List.replicate (k + 1) c ++ rest) =
      halve kind (List.replicate (k + 1) c) ++ halveRuns kind rest := by
  rw [halveRuns, runs_append k h, List.flatMap_cons]
  rfl

theorem head_halveRuns (kind : Char → Bool) (text : List Char) :
    (halveRuns kind text).head? = text.head? := by
  induction text using runs_induction with
  | nil => rfl
  | run c k rest h _ =>
    rw [halveRuns_append kind k h, halve_replicate, List.replicate_succ, List.replicate_succ]
    rfl

/-- Halved runs do not grow together. -/
theorem runs_halveRuns (kind : Char → Bool) (text : List Char) :
    runs (halveRuns kind text) = (runs text).map (halve kind) := by
  induction text using runs_induction with
  | nil => rfl
  | run c k rest h ih =>
    have hhead : (halveRuns kind rest).head? ≠ some c := by rwa [head_halveRuns]
    rw [halveRuns_append kind k h, halve_replicate, runs_append _ hhead, ih, runs_append k h,
      List.map_cons, halve_replicate]

theorem exists_replicate_of_mem_runs {text run : List Char} (h : run ∈ runs text) :
    ∃ c k, run = List.replicate (k + 1) c := by
  induction text using runs_induction with
  | nil => cases h
  | run c k rest hhead ih =>
    rw [runs_append k hhead] at h
    rcases List.mem_cons.mp h with rfl | h
    · exact ⟨c, k, rfl⟩
    · exact ih h

/-- Two kinds that have no character in common are halved one after the other. -/
theorem halveRuns_halveRuns {first second : Char → Bool}
    (h : ∀ c, second c = true → first c = false) (text : List Char) :
    halveRuns second (halveRuns first text) = halveRuns (fun c => first c || second c) text := by
  rw [halveRuns, runs_halveRuns, List.flatMap_map, halveRuns]
  apply List.flatMap_congr
  intro run hrun
  obtain ⟨c, k, rfl⟩ := exists_replicate_of_mem_runs hrun
  rw [halve_replicate, halve_replicate, halve_replicate]
  cases hs : second c with
  | false => simp
  | true => simp [h c hs]

theorem halveRuns_none (text : List Char) : halveRuns (fun _ => false) text = text := by
  induction text using runs_induction with
  | nil => rfl
  | run c k rest h ih => rw [halveRuns_append _ k h, ih, halve_replicate, if_neg Bool.false_ne_true]

/-- From left to right, the second one of two equal characters of the kind is left out. -/
structure Collapses (kind : Char → Bool) (f : List Char → List Char) : Prop where
  nil : f [] = []
  pair {c : Char} (h : kind c = true) (r : List Char) : f (c :: c :: r) = c :: f r
  char {c : Char} {r : List Char} (h : ¬ (kind c = true ∧ r.head? = some c)) :
    f (c :: r) = c :: f r

namespace Collapses

variable {kind : Char → Bool} {f : List Char → List Char} (hf : Collapses kind f)
include hf

theorem kept {c : Char} (hc : kind c = false) (k : Nat) (rest : List Char) :
    f (List.replicate k c ++ rest) = List.replicate k c ++ f rest := by
  induction k with
  | zero => rfl
  | succ k ih =>
    rw [List.replicate_succ, List.cons_append, hf.char (by simp [hc]), ih]
    rfl

theorem halved {c : Char} (hc : kind c = true) {rest : List Char} (h : rest.head? ≠ some c)
    (k : Nat) :
    f (List.replicate k c ++ rest) = List.replicate ((k + 1) / 2) c ++ f rest := by
  induction k using Nat.twoStepInduction with
  | zero => rfl
  | one => exact hf.char (fun hh => h hh.2)
  | more k ih _ =>
    have hk : (k + 2 + 1) / 2 = (k + 1) / 2 + 1 := by omega
    rw [List.replicate_succ, List.replicate_succ, List.cons_append, List.cons_append, hf.pair hc,
      ih, hk]
    rfl

theorem run {c : Char} (k : Nat) {rest : List Char} (h : rest.head? ≠ some c) :
    f (List.replicate (k + 1) c ++ rest) = halve kind (List.replicate (k + 1) c) ++ f rest := by
  rw [halve_replicate]
  cases hc : kind c with
  | false => exact hf.kept hc (k + 1) rest
  | true =>
    have hk : k / 2 + 1 = (k + 1 + 1) / 2 := by omega
    rw [if_pos rfl, hk]
    exact hf.halved hc h (k + 1)

theorem eq_halveRuns (text : List Char) : f text = halveRuns kind text := by
  induction text using runs_induction with
  | nil => exact hf.nil
  | run c k rest h ih => rw [hf.run k h, ih, halveRuns_append kind k h]

end Collapses

theorem collapses_collapse : Collapses isDelimiter collapse where
  nil := rfl
  pair h r := by simp [collapse, h]
  char {c r} h := by
    cases r with
    | nil => rfl
    | cons d r =>
      rw [collapse, if_neg]
      rw [Bool.and_eq_true, beq_iff_eq]
      rintro ⟨hc, rfl⟩
      exact h ⟨hc, rfl⟩

def replaceAll (old new : List Char) : List Char → List Char
  | [] => []
  | c :: r =>
    if old.isPrefixOf (c :: r) then new ++ replaceAll old new (r.drop (old.length - 1))
    else c :: replaceAll old new r
termination_by text => text.length
decreasing_by
  · rw [List.length_drop, List.length_cons]
    omega
  · simp

theorem collapses_replaceAll (c : Char) : Collapses (· == c) (replaceAll [c, c] [c]) where
  nil := by rw [replaceAll]
  pair {d} h r := by
    obtain rfl := eq_of_beq h
    rw [replaceAll, if_pos (by simp)]
    rfl
  char {d r} h := by
    rw [replaceAll, if_neg]
    cases r with
    | nil => simp
    | cons e r =>
      simp only [List.isPrefixOf_cons_cons, List.isPrefixOf_nil_left, Bool.and_true,
        Bool.and_eq_true, beq_iff_eq]
      rintro ⟨rfl, rfl⟩
      exact h ⟨beq_self_eq_true c, rfl⟩

def delimiters : List Char := ['{', '}', '[', ']']

theorem isDelimiter_iff_mem (c : Char) : isDelimiter c = true ↔ c ∈ delimiters := by
  simp [isDelimiter, delimiters, or_assoc]

/-- Replacing the pairs of one kind after the other. -/
theorem foldl_replaceAll (kind : Char → Bool) {order : List Char} (h : order.Nodup)
    (hkind : ∀ c ∈ order, kind c = false) (text : List Char) :
    order.foldl (fun text c => replaceAll [c, c] [c] text) (halveRuns kind text) =
      halveRuns (fun c => kind c || order.contains c) text := by
  -- a replacement leaves the other kinds alone, so that the kinds done so far add up
  induction order generalizing kind with
  | nil => simp
  | cons c order ih =>
    obtain ⟨hc, ho⟩ := List.nodup_cons.mp h
    have hone : ∀ d, (d == c) = true → kind d = false := by
      intro d hd
      rw [eq_of_beq hd]
      exact hkind c List.mem_cons_self
    have hnext : ∀ d ∈ order, (kind d || d == c) = false := by
      intro d hd
      have hne : d ≠ c := fun he => hc (he ▸ hd)
      rw [hkind d (List.mem_cons_of_mem c hd), beq_eq_false_iff_ne.mpr hne]
      rfl
    rw [List.foldl_cons, (collapses_replaceAll c).eq_halveRuns, halveRuns_halveRuns hone,
      ih _ ho hnext]
    congr 1
    funext d
    rw [List.contains_cons, Bool.or_assoc]

theorem foldl_delimiters {order : List Char} (h : order.Perm delimiters) (text : List Char) :
    order.foldl (fun text c => replaceAll [c, c] [c] text) text = collapse text := by
  have hnodup : order.Nodup := h.nodup_iff.mpr (by decide)
  have hf := foldl_replaceAll (fun _ => false) hnodup (fun _ _ => rfl) text
  rw [halveRuns_none] at hf
  rw [hf, collapses_collapse.eq_halveRuns]
  congr 1
  funext c
  rw [Bool.false_or, Bool.eq_iff_iff, isDelimiter_iff_mem, List.contains_iff_mem]
  exact h.mem_iff

theorem rewriteFrom_eq (output : Option (List Char)) (literal text : List Char) :
    rewriteFrom output literal text = unescaped output literal text := by
  fun_induction rewriteFrom output literal text with
  | case1 output literal c d r h ih =>
    rw [Bool.and_eq_true, beq_iff_eq] at h
    obtain ⟨hc, rfl⟩ := h
    rw [ih, unescaped_pair output literal r hc]
  | case2 output literal c d r h ih =>
    rw [ih, unescaped_char output literal (d :: r)]
    rw [Bool.and_eq_true, beq_iff_eq] at h
    rintro ⟨hc, hd⟩
    exact h ⟨hc, (Option.some.inj hd).symm⟩
  | case3 output literal r h =>
    cases r with
    | nil => simp [unescaped_nil]
    | cons c r =>
      cases r with
      | nil => simp [unescaped_char output literal [] (c := c), unescaped_nil]
      | cons d r => exact absurd rfl (h c d r)

theorem collapse?_eq (text : List Char) :
    collapse? text = if hasPair text then some (collapse text) else none := by
  rw [collapse?, rewriteFrom_eq]
  simp [unescaped]

theorem hasPair_iff (text : List Char) :
    hasPair text = true ↔ ∃ before c r, text = before ++ c :: c :: r ∧ isDelimiter c = true := by
  fun_induction hasPair text with
  | case1 c d r ih =>
    rw [Bool.or_eq_true, Bool.and_eq_true, beq_iff_eq, ih]
    constructor
    · rintro (⟨hc, rfl⟩ | ⟨before, e, s, he, hd⟩)
      · exact ⟨[], c, r, rfl, hc⟩
      · exact ⟨c :: before, e, s, by rw [he]; rfl, hd⟩
    · rintro ⟨before, e, s, he, hd⟩
      cases before with
      | nil =>
        cases he
        exact .inl ⟨hd, rfl⟩
      | cons _ before => exact .inr ⟨before, e, s, (List.cons.inj he).2, hd⟩
  | case2 r h =>
    constructor
    · intro hp
      cases hp
    · rintro ⟨before, c, s, rfl, -⟩
      cases before with
      | nil => exact absurd rfl (h c c s)
      | cons d before =>
        obtain ⟨e, rest, hrest⟩ : ∃ e rest, before ++ c :: c :: s = e :: rest :=
          List.exists_cons_of_ne_nil (by simp)
        exact absurd (by rw [List.cons_append, hrest]) (h d e rest)

theorem length_collapse_le (text : List Char) : (collapse text).length ≤ text.length := by
  fun_induction collapse text with
  | case1 c d r h ih =>
    simp only [List.length_cons]
    omega
  | case2 c d r h ih =>
    simp only [List.length_cons] at ih ⊢
    omega
  | case3 r h => exact Nat.le_refl _

theorem collapse_eq_self_iff (text : List Char) : collapse text = text ↔ hasPair text = false := by
  constructor
  · intro h
    fun_induction collapse text with
    | case1 c d r hc ih =>
      have hl := congrArg List.length h
      have hle := length_collapse_le r
      simp only [List.length_cons] at hl
      omega
    | case2 c d r hc ih =>
      rw [Bool.not_eq_true] at hc
      rw [hasPair, hc, ih (List.cons.inj h).2]
      rfl
    | case3 r hr =>
      rw [hasPair]
      exact hr
  · exact collapse_eq_self

/-- Pairs are seen in the bytes. -/
theorem hasPair_iff_peek (text : String) :
    hasPair text.toList = true ↔ ∃ i c, isDelimiter c = true ∧
      peek (bytesOf text) i = some c ∧ peek (bytesOf text) (i + 1) = some c := by
  rw [hasPair_iff]
  constructor
  · rintro ⟨before, c, r, ht, hc⟩
    have hascii := ascii_of_isDelimiter hc
    have hfirst : At text (byteSize before) (c :: c :: r) := ⟨before, ht, rfl⟩
    have hsecond : At text (byteSize before + 1) (c :: r) := by
      have htail := hfirst.tail
      rwa [utf8Size_of_ascii hascii] at htail
    exact ⟨byteSize before, c, hc, (hfirst.peek_eq_some hascii).mpr rfl,
      (hsecond.peek_eq_some hascii).mpr rfl⟩
  · rintro ⟨i, c, hc, hi, hnext⟩
    have hascii := ascii_of_isDelimiter hc
    obtain ⟨before, r, ht, rfl⟩ := at_of_peek hascii hi
    have hfirst : At text (byteSize before) (c :: r) := ⟨before, ht, rfl⟩
    have htail := hfirst.tail
    rw [utf8Size_of_ascii hascii] at htail
    obtain ⟨s, rfl⟩ := List.head?_eq_some_iff.mp ((htail.peek_eq_some hascii).mp hnext)
    exact ⟨before, c, s, ht, hc⟩

/-- Each run of equal delimiters is halved, an odd one keeping the middle, and all else stays. The
text is the same if the four kinds of pairs are replaced in the whole text one after the other,
in whatever order. It is written anew exactly if its bytes have a delimiter next to itself, and
is another text then. -/
theorem collapse_runs (text : String) :
    let s := text.toList
    let single := ∀ i c, isDelimiter c = true → peek (bytesOf text) i = some c →
      peek (bytesOf text) (i + 1) ≠ some c
    collapse s = halveRuns isDelimiter s ∧
      (∀ order : List Char, order.Perm delimiters →
        order.foldl (fun text c => replaceAll [c, c] [c] text) s = collapse s) ∧
      (collapse? s).getD s = collapse s ∧
      (collapse? s = none ↔ single) ∧
      (collapse s = s ↔ single) ∧
      (Fits text → collapseAt text none 0 0 = .ok ((collapse? s).map String.ofList)) := by
  intro s single
  have hsingle : hasPair s = false ↔ single := by
    rw [← Bool.not_eq_true, hasPair_iff_peek]
    constructor
    · intro h i c hc hi hnext
      exact h ⟨i, c, hc, hi, hnext⟩
    · rintro h ⟨i, c, hc, hi, hnext⟩
      exact h i c hc hi hnext
  refine ⟨collapses_collapse.eq_halveRuns s, fun _ h => foldl_delimiters h s, ?_, ?_, ?_, ?_⟩
  · rw [collapse?_eq]
    cases h : hasPair s with
    | true => rfl
    | false => exact (collapse_eq_self h).symm
  · rw [← hsingle, collapse?_eq]
    cases hasPair s <;> simp
  · rw [← hsingle]
    exact collapse_eq_self_iff s
  · intro hs
    rw [collapseAt_zero hs, collapse?_eq]
    cases hasPair text.toList <;> rfl

def brackets : String := "ü\x7b\x7b\x7b[]]]ß\x7d\x7d\x7d\x7d]["

theorem collapse_runs_brackets :
    [']', '{', '[', '}'].Perm delimiters ∧ Fits brackets ∧
      [']', '{', '[', '}'].foldl (fun text c => replaceAll [c, c] [c] text)
        brackets.toList = "ü\x7b\x7b[]]ß\x7d\x7d][".toList ∧
      collapseAt brackets none 0 0 = .ok (some "ü\x7b\x7b[]]ß\x7d\x7d][") := by
  have hperm : [']', '{', '[', '}'].Perm delimiters := by decide
  have hs : Fits brackets := by
    unfold Fits
    decide
  obtain ⟨hruns, horder, -, -, -, hscan⟩ := collapse_runs brackets
  have htext : collapse brackets.toList = "ü\x7b\x7b[]]ß\x7d\x7d][".toList := by decide
  have hnew : collapse? brackets.toList = some "ü\x7b\x7b[]]ß\x7d\x7d][".toList := by decide
  refine ⟨hperm, hs, ?_, ?_⟩
  · rw [horder _ hperm, htext]
  · rw [hscan hs, hnew]
    rfl

end MessagePattern.Escape
