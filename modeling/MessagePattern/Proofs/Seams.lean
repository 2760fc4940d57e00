import MessagePattern.Proofs.Escaping
import MessagePattern.Proofs.Readings

/-!
# Seams

A text that is joined to what follows is read as it is by itself if nothing
happens at its two ends. Three things can: a brace before the text keeps its
first placeholder from opening, a brace that opens nothing finds its closing
one behind the text, and the last placeholder is closed in another way.
-/

set_option autoImplicit false

namespace MessagePattern
open Placeholder

/-- Nothing happens at the ends of a text that `rest` follows. -/
structure Meets (afterBrace : Bool) (text rest : List Char) : Prop where
  opening : afterBrace = true → open? false text = none
  loose : ∀ ps qs, pieces afterBrace text = ps ++ .char '{' :: qs →
    endsIn '{' afterBrace (written ps) = false → open? false ('{' :: (written qs ++ rest)) = none
  closing : ∀ ps p, pieces afterBrace text = ps ++ [.token p] →
    rest.head? ≠ some '}' ∧ (p.optional = true ∨ ¬ Marked rest)

theorem pieces_opening {afterBrace : Bool} {text : List Char}
    (h : afterBrace = true → open? false text = none) :
    pieces afterBrace text = pieces false text := by
  cases afterBrace with
  | false => rfl
  | true =>
    cases text with
    | nil => rw [pieces_nil, pieces_nil]
    | cons c r => rw [pieces_of_open?_eq_none (h rfl), pieces_of_open?_eq_none rfl]

theorem marked_cons (c : Char) (r : List Char) :
    Marked (c :: r) ↔ c = '?' ∧ r.head? ≠ some '}' := by
  constructor
  · intro h
    obtain ⟨s, hs, hn⟩ := h
    cases hs
    exact ⟨rfl, hn⟩
  · intro h
    exact ⟨r, by rw [h.1], h.2⟩

/-- How a placeholder is closed depends on what stands behind it, and on that only. -/
theorem closed_iff (optional : Bool) (rest : List Char) :
    ((markText optional ++ rest).head? ≠ some '}' ∧
        (optional = true ↔ Marked (markText optional ++ rest))) ↔
      rest.head? ≠ some '}' ∧ (optional = true ∨ ¬ Marked rest) := by
  cases optional with
  | false => simp [markText]
  | true =>
    show ((some '?' ≠ some '}') ∧ (true = true ↔ Marked ('?' :: rest))) ↔ _
    rw [marked_cons]
    simp

theorem marked_behind {c : Char} {r : List Char} (rest : List Char)
    (h : ¬ Marked (c :: r)) : ¬ Marked (c :: (r ++ rest)) := by
  intro hm
  obtain ⟨hc, hn⟩ := (marked_cons _ _).mp hm
  apply h
  apply (marked_cons _ _).mpr
  constructor
  · exact hc
  · intro hr
    apply hn
    rw [List.head?_append, hr]
    rfl

theorem reads_behind {taken r : List Char} {p : Placeholder} (h : Reads taken r p)
    (rest : List Char)
    (hr : r = [] → rest.head? ≠ some '}' ∧ (p.optional = true ∨ ¬ Marked rest)) :
    Reads taken (r ++ rest) p := by
  obtain ⟨key, decimals, style, conjunction, ht, hk, hd, hs, hc, hn, hm⟩ := h
  have hclosed := (closed_iff p.optional r).mp ⟨hn, hm⟩
  have hnext : (r ++ rest).head? ≠ some '}' ∧ (p.optional = true ∨ ¬ Marked (r ++ rest)) := by
    cases r with
    | nil => exact hr rfl
    | cons c s =>
      constructor
      · exact hclosed.1
      · rcases hclosed.2 with ho | hu
        · exact Or.inl ho
        · exact Or.inr (marked_behind rest hu)
  obtain ⟨hn', hm'⟩ := (closed_iff p.optional (r ++ rest)).mpr hnext
  exact ⟨key, decimals, style, conjunction, ht, hk, hd, hs, hc, hn', hm'⟩

/-- Where a text is read alike, so is each end of it. -/
theorem pieces_cut {afterBrace : Bool} {text rest : List Char} {ps qs more : List Piece}
    (hp : pieces afterBrace text = ps ++ qs)
    (hm : pieces afterBrace text ++ more = pieces afterBrace (text ++ rest)) :
    pieces (endsIn '{' afterBrace (written ps)) (written qs ++ rest) = qs ++ more := by
  have hw := written_pieces afterBrace text
  rw [hp, written_append] at hw
  rw [hp, ← hw, List.append_assoc, List.append_assoc] at hm
  exact (pieces_behind hm.symm).symm

theorem meets_of_prefix {afterBrace : Bool} {text rest : List Char}
    (h : pieces false text <+: pieces afterBrace (text ++ rest)) : Meets afterBrace text rest := by
  have hopen : afterBrace = true → open? false text = none := by
    intro hb
    cases ho : open? false text with
    | none => rfl
    | some found =>
      obtain ⟨more, hm⟩ := h
      rw [pieces_of_open?_eq_some ho, hb] at hm
      obtain ⟨r, hr, -⟩ := pieces_token hm.symm
      cases hr
  obtain ⟨more, hm⟩ := h
  rw [← pieces_opening hopen] at hm
  constructor
  · exact hopen
  · intro ps qs hp hf
    have hc := pieces_cut hp hm
    rw [hf] at hc
    obtain ⟨r, -, ho, -⟩ := pieces_char hc
    exact ho
  · intro ps p hp
    have hc := pieces_cut hp hm
    obtain ⟨r, ho, -⟩ := pieces_token hc
    obtain ⟨-, taken, ht, hr⟩ := (open_iff_reads _ _ _ _).mp ho
    have hrest : r = rest := by
      have hw := write_append_of_open? ho
      exact List.append_cancel_left (hw.trans (by simp [written, Piece.write]))
    rw [hrest] at hr
    obtain ⟨_, _, _, _, -, -, -, -, -, hn, hk⟩ := hr
    exact (closed_iff p.optional rest).mp ⟨hn, hk⟩

/-- Without a brace before it, a text that meets what follows keeps its reading. -/
theorem prefix_of_closing {afterBrace : Bool} {text rest : List Char}
    (hl : ∀ ps qs, pieces afterBrace text = ps ++ .char '{' :: qs →
      endsIn '{' afterBrace (written ps) = false → open? false ('{' :: (written qs ++ rest)) = none)
    (hc : ∀ ps p, pieces afterBrace text = ps ++ [.token p] →
      rest.head? ≠ some '}' ∧ (p.optional = true ∨ ¬ Marked rest)) :
    pieces afterBrace text <+: pieces afterBrace (text ++ rest) := by
  fun_induction pieces afterBrace text with
  | case1 => exact List.nil_prefix
  | case2 afterBrace c r p r' ho ih =>
    -- a placeholder of the text is still one with `rest` behind it
    obtain ⟨ha, taken, ht, hr⟩ := (open_iff_reads _ _ _ _).mp ho
    have hlast : r' = [] → rest.head? ≠ some '}' ∧ (p.optional = true ∨ ¬ Marked rest) := by
      intro he
      apply hc [] p
      rw [he, pieces_nil]
      rfl
    have hn : open? afterBrace (c :: r ++ rest) = some (p, r' ++ rest) := by
      apply (open_iff_reads _ _ _ _).mpr
      exact ⟨ha, taken, by rw [ht, List.append_assoc], reads_behind hr rest hlast⟩
    rw [pieces_of_open?_eq_some hn]
    apply List.cons_prefix_cons.mpr
    constructor
    · rfl
    · apply ih
      · intro ps qs hp hf
        apply hl (.token p :: ps) qs
        · rw [hp]
          rfl
        · show endsIn '{' afterBrace (p.write ++ written ps) = false
          rw [endsIn_append, endsIn_write]
          exact hf
      · intro ps q hp
        apply hc (.token p :: ps) q
        rw [hp]
        rfl
  | case3 afterBrace c r ho ih =>
    -- and a character that begins none still begins none
    have hn : open? afterBrace (c :: (r ++ rest)) = none := by
      by_cases hb : c = '{'
      · cases ha : afterBrace with
        | true => rfl
        | false =>
          have hs := hl [] (pieces (c == '{') r) (by rw [hb]; rfl) ha
          rw [written_pieces] at hs
          rw [hb]
          exact hs
      · exact open_no_brace afterBrace hb _
    rw [List.cons_append, pieces_of_open?_eq_none hn]
    apply List.cons_prefix_cons.mpr
    constructor
    · rfl
    · apply ih
      · intro ps qs hp hf
        apply hl (.char c :: ps) qs
        · rw [hp]
          rfl
        · exact hf
      · intro ps q hp
        apply hc (.char c :: ps) q
        rw [hp]
        rfl

/-- A text is read at its place as it is by itself if and only if nothing happens
at its ends. -/
theorem prefix_iff_meets (afterBrace : Bool) (text rest : List Char) :
    pieces false text <+: pieces afterBrace (text ++ rest) ↔ Meets afterBrace text rest := by
  constructor
  · exact meets_of_prefix
  · intro h
    rw [← pieces_opening h.opening]
    exact prefix_of_closing h.loose h.closing

def Seamless (afterBrace : Bool) (rest : List Char) : List (List Char) → Prop
  | [] => True
  | part :: parts =>
    Meets afterBrace part (parts.flatten ++ rest) ∧
      Seamless (endsIn '{' afterBrace part) rest parts

def tokensIn (start : Nat) : List (List Char) → List Token
  | [] => []
  | text :: texts => tokensFrom start (pieces false text) ++ tokensIn (start + byteSize text) texts

theorem tokensIn_append (start : Nat) (texts more : List (List Char)) :
    tokensIn start (texts ++ more) =
      tokensIn start texts ++ tokensIn (start + byteSize texts.flatten) more := by
  induction texts generalizing start with
  | nil => rfl
  | cons text texts ih =>
    rw [List.cons_append, tokensIn, tokensIn, ih, List.flatten_cons, byteSize_append,
      List.append_assoc, Nat.add_assoc]

theorem countP_tokensIn_concat (texts : List (List Char)) (text : List Char) :
    (tokensIn 0 (texts ++ [text])).countP Token.isKeyless =
      (tokensIn 0 texts).countP Token.isKeyless + keylessCount (pieces false text) := by
  rw [tokensIn_append, List.countP_append, tokensIn, tokensIn, List.append_nil, countP_tokensFrom]

theorem mem_tokensIn {start : Nat} {texts : List (List Char)} {t : Token}
    (h : t ∈ tokensIn start texts) : start ≤ t.start := by
  induction texts generalizing start with
  | nil => cases h
  | cons text texts ih =>
    rcases List.mem_append.mp h with hm | hm
    · exact (mem_tokensFrom hm).1
    · have hi := ih hm
      omega

theorem pairwise_tokensIn (start : Nat) (texts : List (List Char)) :
    (tokensIn start texts).Pairwise (fun s t => s.start < t.start) := by
  induction texts generalizing start with
  | nil => exact List.Pairwise.nil
  | cons text texts ih =>
    apply List.pairwise_append.mpr
    constructor
    · exact pairwise_tokensFrom start _
    · constructor
      · exact ih _
      · intro s hs t ht
        have hl := (mem_tokensFrom hs).2
        have hr := mem_tokensIn ht
        rw [written_pieces] at hl
        omega

theorem filter_tokensIn_self (start : Nat) (texts : List (List Char)) :
    (tokensIn start texts).filter (fun t => t.start < start) = [] := by
  apply List.filter_eq_nil_iff.mpr
  intro t ht
  have hm := mem_tokensIn ht
  rw [decide_eq_true_eq]
  omega

/-- Up to the end of a part that is read alike, the placeholders are its own. -/
theorem filter_alike (start extra : Nat) {afterBrace : Bool} {part rest : List Char}
    (h : pieces false part <+: pieces afterBrace (part ++ rest)) :
    (tokensFrom start (pieces afterBrace (part ++ rest))).filter
        (fun t => t.start < start + byteSize part + extra) =
      tokensFrom start (pieces false part) ++
        (tokensFrom (start + byteSize part) (pieces (endsIn '{' afterBrace part) rest)).filter
          (fun t => t.start < start + byteSize part + extra) := by
  have hf := tokensFrom_filter start extra (pieces false part)
    (pieces (endsIn '{' afterBrace part) rest)
  rw [written_pieces, ← pieces_alike h] at hf
  exact hf

theorem prefix_of_filter {start extra : Nat} {afterBrace : Bool} {part rest : List Char}
    {others : List (List Char)}
    (h : (tokensFrom start (pieces afterBrace (part ++ rest))).filter
        (fun t => t.start < start + byteSize part + extra) =
      tokensFrom start (pieces false part) ++ tokensIn (start + byteSize part) others) :
    pieces false part <+: pieces afterBrace (part ++ rest) := by
  have hw := written_pieces false part
  have hown := tokensFrom_before start (pieces false part) []
  rw [hw, List.append_nil] at hown
  have hf := congrArg (List.filter (fun t => t.start < start + byteSize part)) h
  rw [List.filter_filter, List.filter_append, filter_tokensIn_self, List.append_nil, hown] at hf
  apply prefix_of_tokens (by rw [hw, written_pieces])
  rw [hw, ← hf]
  apply List.filter_congr
  intro t _
  rw [← Bool.decide_and, decide_eq_decide]
  omega

/-- Before the end of the last part, the joined text has the placeholders that its
parts have by themselves if and only if nothing happens between them. -/
theorem tokensBefore_eq_iff (start : Nat) (afterBrace : Bool) (rest : List Char)
    (parts : List (List Char)) :
    (tokensFrom start (pieces afterBrace (parts.flatten ++ rest))).filter
        (fun t => t.start < start + byteSize parts.flatten) = tokensIn start parts ↔
      Seamless afterBrace rest parts := by
  induction parts generalizing start afterBrace with
  | nil => exact iff_of_true (filter_tokensFrom_self start _) trivial
  | cons part parts ih =>
    rw [List.flatten_cons, List.append_assoc, byteSize_append, ← Nat.add_assoc, tokensIn, Seamless,
      ← prefix_iff_meets]
    constructor
    · intro h
      have hp := prefix_of_filter h
      rw [filter_alike start _ hp] at h
      exact ⟨hp, (ih _ _).mp (List.append_cancel_left h)⟩
    · intro h
      rw [filter_alike start _ h.1, (ih _ _).mpr h.2]

theorem pieces_seamless {afterBrace : Bool} {rest : List Char} {parts : List (List Char)}
    (h : Seamless afterBrace rest parts) :
    pieces afterBrace (parts.flatten ++ rest) =
      parts.flatMap (pieces false) ++ pieces (endsIn '{' afterBrace parts.flatten) rest := by
  induction parts generalizing afterBrace with
  | nil => rfl
  | cons part parts ih =>
    have hp := (prefix_iff_meets _ _ _).mpr h.1
    rw [List.flatten_cons, List.append_assoc, pieces_alike hp, ih h.2, endsIn_append,
      List.flatMap_cons, List.append_assoc]

theorem written_flatMap (parts : List (List Char)) :
    written (parts.flatMap (pieces false)) = parts.flatten := by
  induction parts with
  | nil => rfl
  | cons part parts ih =>
    rw [List.flatMap_cons, written_append, written_pieces, ih, List.flatten_cons]

def Closed (text : List Char) : Prop :=
  .char '{' ∉ pieces false text ∧ text.head? ≠ some '}' ∧ text.head? ≠ some '?'

theorem endsIn_written {ps : List Piece} (h : .char '{' ∉ ps) :
    endsIn '{' false (written ps) = false := by
  induction ps with
  | nil => rfl
  | cons piece ps ih =>
    rw [List.mem_cons, not_or] at h
    have hp : endsIn '{' false piece.write = false := by
      cases piece with
      | char c =>
        have hc : c ≠ '{' := fun hc => h.1 (by rw [hc])
        exact beq_eq_false_iff_ne.mpr hc
      | token p => exact endsIn_write false p
    show endsIn '{' false (piece.write ++ written ps) = false
    rw [endsIn_append, hp]
    exact ih h.2

theorem head_closed {texts : List (List Char)} {c : Char} (hc : c = '}' ∨ c = '?')
    (h : ∀ text ∈ texts, Closed text) : texts.flatten.head? ≠ some c := by
  rw [List.head?_flatten]
  intro hf
  obtain ⟨text, hm, ht⟩ := List.exists_of_findSome?_eq_some hf
  obtain ⟨-, hb, hq⟩ := h text hm
  rcases hc with he | he
  · rw [he] at ht
    exact hb ht
  · rw [he] at ht
    exact hq ht

theorem meets_of_closed {text rest : List Char} (h : Closed text) (hb : rest.head? ≠ some '}')
    (hq : rest.head? ≠ some '?') : Meets false text rest := by
  constructor
  · intro hf
    cases hf
  · intro ps qs hp
    apply absurd _ h.1
    rw [hp]
    exact List.mem_append_right ps List.mem_cons_self
  · intro ps p _
    constructor
    · exact hb
    · apply Or.inr
      intro hm
      obtain ⟨r, hr, -⟩ := hm
      exact hq (by rw [hr]; rfl)

theorem seamless_of_closed {parts more : List (List Char)}
    (h : ∀ text ∈ parts ++ more, Closed text) : Seamless false more.flatten parts := by
  induction parts with
  | nil => trivial
  | cons part parts ih =>
    have hp := h part List.mem_cons_self
    have hps : ∀ text ∈ parts ++ more, Closed text := fun t hm => h t (List.mem_cons_of_mem _ hm)
    have he : endsIn '{' false part = false := by
      rw [← written_pieces false part]
      exact endsIn_written hp.1
    rw [Seamless, he, ← List.flatten_append]
    constructor
    · exact meets_of_closed hp (head_closed (Or.inl rfl) hps) (head_closed (Or.inr rfl) hps)
    · exact ih hps

end MessagePattern
