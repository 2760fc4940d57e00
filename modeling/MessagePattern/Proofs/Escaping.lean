import MessagePattern.Escape
import MessagePattern.Proofs.PlaceholderGrammar
import MessagePattern.Proofs.SectionScan

/-!
# Escaped text

Escaped text passes through every scan as it is: no section and no placeholder
opens in it, whatever comes before and behind it, and the last step of
formatting gives back the text that was escaped.
-/

set_option autoImplicit false

namespace MessagePattern
open Escape Placeholder

theorem isBracket_of_isDelimiter {c : Char} (h : isDelimiter c = false) : isBracket c = false := by
  simp only [isDelimiter, Bool.or_eq_false_iff] at h
  simp [isBracket, h]

theorem segments_no_bracket (afterBracket : Bool) {c : Char} (hc : c ≠ '[') (r : List Char) :
    segments afterBracket (c :: r) = Segment.consLiteral c (segments (c == '[') r) := by
  apply segments_of_openSection_eq_none
  apply openSection_none
  intro h
  exact hc (Option.some.inj h)

theorem segments_doubled (afterBracket : Bool) (c : Char) (r : List Char) :
    segments afterBracket (c :: c :: r) =
      Segment.consLiteral c (Segment.consLiteral c (segments (c == '[') r)) := by
  by_cases hc : c = '['
  · subst hc
    rw [segments_of_openSection_eq_none (openSection_doubled afterBracket r)]
    show Segment.consLiteral _ (segments true _) = _
    rw [segments_of_openSection_eq_none (openSection_true _)]
  · rw [segments_no_bracket _ hc, segments_no_bracket _ hc]

theorem segments_escape (afterBracket : Bool) (text rest : List Char) :
    segments afterBracket (escape text ++ rest) =
      (escape text).foldr Segment.consLiteral
        (segments (endsIn '[' afterBracket (escape text)) rest) := by
  induction text generalizing afterBracket with
  | nil => rfl
  | cons c text ih =>
    by_cases hc : isDelimiter c = true
    · rw [escape, if_pos hc, List.cons_append, List.cons_append, segments_doubled, ih]
      rfl
    · have hb : c ≠ '[' := by
        intro h
        exact hc (by rw [h]; rfl)
      rw [escape, if_neg hc, List.cons_append, segments_no_bracket _ hb, ih]
      rfl

theorem segments_plain (afterBracket : Bool) {text : List Char} (ht : '[' ∉ text)
    (rest : List Char) :
    segments afterBracket (text ++ rest) =
      text.foldr Segment.consLiteral (segments (endsIn '[' afterBracket text) rest) := by
  induction text generalizing afterBracket with
  | nil => rfl
  | cons c text ih =>
    have hc : c ≠ '[' := fun h => ht (by rw [h]; exact List.mem_cons_self)
    rw [List.cons_append, segments_no_bracket _ hc, ih _ (fun h => ht (List.mem_cons_of_mem c h))]
    rfl

theorem closeSection_escape (depth : Nat) (filled : Bool) (text rest : List Char) :
    closeSection depth filled (escape text ++ rest) =
      (closeSection depth (filled || !text.isEmpty) rest).map (inFront (escape text)) := by
  induction text generalizing filled with
  | nil => exact closeSection_plain depth filled (List.forall_mem_nil _) rest
  | cons c text ih =>
    by_cases hb : isBracket c = true
    · have hc : isDelimiter c = true := by
        simp only [isBracket, Bool.or_eq_true] at hb
        simp only [isDelimiter, Bool.or_eq_true]
        rcases hb with hb | hb <;> simp [hb]
      rw [escape, if_pos hc, List.cons_append, List.cons_append, closeSection_doubled _ _ hb, ih,
        map_inFront_append]
      simp
    · rw [Bool.not_eq_true] at hb
      by_cases hc : isDelimiter c = true
      · rw [escape, if_pos hc, List.cons_append, List.cons_append, closeSection_char _ _ hb,
          closeSection_char _ _ hb, ih, map_inFront_append, map_inFront_append]
        simp
      · rw [escape, if_neg hc, List.cons_append, closeSection_char _ _ hb, ih, map_inFront_append]
        simp

theorem open_no_brace (afterBrace : Bool) {c : Char} (hc : c ≠ '{') (r : List Char) :
    open? afterBrace (c :: r) = none := by
  cases afterBrace with
  | true => rfl
  | false =>
    show scan? (c :: r) = none
    rw [scan?]
    intro s he
    exact hc (List.cons.inj he).1

theorem open_doubled (afterBrace : Bool) (r : List Char) :
    open? afterBrace ('{' :: '{' :: r) = none := by
  cases afterBrace with
  | true => rfl
  | false =>
    have hk : isKeyChar '{' = false := by decide
    simp [open?, scan?, takePlus, takeKey, takeDecimals, takeStyle, takeConjunction, takeClose, hk]

theorem pieces_no_brace (afterBrace : Bool) {c : Char} (hc : c ≠ '{') (r : List Char) :
    pieces afterBrace (c :: r) = .char c :: pieces (c == '{') r :=
  pieces_of_open?_eq_none (open_no_brace afterBrace hc r)

theorem pieces_doubled (afterBrace : Bool) (c : Char) (r : List Char) :
    pieces afterBrace (c :: c :: r) = .char c :: .char c :: pieces (c == '{') r := by
  by_cases hc : c = '{'
  · subst hc
    have ht : ∀ s, open? true s = none := fun _ => rfl
    rw [pieces_of_open?_eq_none (open_doubled afterBrace r)]
    show _ :: pieces true _ = _
    rw [pieces_of_open?_eq_none (ht _)]
  · rw [pieces_no_brace _ hc, pieces_no_brace _ hc]

theorem pieces_escape (afterBrace : Bool) (text rest : List Char) :
    pieces afterBrace (escape text ++ rest) =
      (escape text).map Piece.char ++ pieces (endsIn '{' afterBrace (escape text)) rest := by
  induction text generalizing afterBrace with
  | nil => rfl
  | cons c text ih =>
    by_cases hc : isDelimiter c = true
    · rw [escape, if_pos hc, List.cons_append, List.cons_append, pieces_doubled, ih]
      rfl
    · have hb : c ≠ '{' := by
        intro h
        exact hc (by rw [h]; rfl)
      rw [escape, if_neg hc, List.cons_append, pieces_no_brace _ hb, ih]
      rfl

/-- A character that is no delimiter keeps the pairs on its two sides apart. -/
theorem collapse_split (s : List Char) {c : Char} (hc : isDelimiter c = false) (t : List Char) :
    collapse (s ++ c :: t) = collapse s ++ c :: collapse t := by
  fun_induction collapse s with
  | case1 d e r h ih =>
    rw [List.cons_append, List.cons_append, collapse, if_pos h, ih, List.cons_append]
  | case2 d e r h ih =>
    rw [List.cons_append, List.cons_append, collapse, if_neg h, ← List.cons_append, ih,
      List.cons_append]
  | case3 s hs =>
    cases s with
    | nil => exact collapse_of_not_isDelimiter hc t
    | cons d r =>
      cases r with
      | nil =>
        have hd : ¬ (isDelimiter d && d == c) = true := by
          intro h
          simp only [Bool.and_eq_true, beq_iff_eq] at h
          rw [h.2, hc] at h
          cases h.1
        rw [List.singleton_append, collapse, if_neg hd, collapse_of_not_isDelimiter hc]
        rfl
      | cons e r => exact absurd rfl (hs d e r)

def Bounded (text : List Char) : Prop :=
  ∃ c r d l, text = c :: r ∧ text = l ++ [d] ∧ isDelimiter c = false ∧ isDelimiter d = false

/-- Between other texts, only the escapes of a bounded text are its own. -/
theorem collapse_bounded {text : List Char} (h : Bounded text) (before after : List Char) :
    collapse (before ++ (escape text ++ after)) = collapse before ++ (text ++ collapse after) := by
  obtain ⟨c, r, d, l, hcr, hld, hc, hd⟩ := h
  have hfirst : ∀ t, collapse (before ++ (escape text ++ t)) =
      collapse before ++ collapse (escape text ++ t) := by
    intro t
    have he : escape text ++ t = c :: (escape r ++ t) := by simp [hcr, escape, hc]
    rw [he, collapse_split before hc, collapse_of_not_isDelimiter hc]
  have hlast : collapse (escape text ++ after) = text ++ collapse after := by
    have he : escape text ++ after = escape l ++ d :: after := by
      simp [hld, escape_append, escape, hd]
    rw [he, collapse_split _ hd, collapse_escape, hld]
    simp
  rw [hfirst, hlast]

end MessagePattern
