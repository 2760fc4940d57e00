import MessagePattern.Proofs.Escaping
import MessagePattern.Proofs.Keys
import MessagePattern.Proofs.Template

/-!
# Reading a printed template

A printed template is read as what it was: its placeholders are found where
they were written, and its sections are cut out at their own brackets.
-/

set_option autoImplicit false

namespace MessagePattern.Template
open Escape Placeholder

theorem isKeyChar_of_isDigit {c : Char} (h : c.isDigit = true) : isKeyChar c = true := by
  simp [isKeyChar, Char.isAlphanum, h]

theorem keyText_writeKey {key : Option Key} (h : printableKey key = true) :
    KeyText (writeKey key) key := by
  match key with
  | none => exact .missing
  | some (.index n) =>
    have hk := KeyText.given (writeDigits_ne_nil n)
      (fun c hc => isKeyChar_of_isDigit (isDigit_of_mem_writeDigits hc))
    rw [Key.parse_writeDigits] at hk
    exact hk
  | some (.name text) =>
    simp only [printableKey, Bool.and_eq_true, Bool.not_eq_true', List.isEmpty_eq_false_iff,
      List.all_eq_true, beq_iff_eq] at h
    have hk := KeyText.given h.1.1 h.1.2
    rw [String.ofList_toList, h.2] at hk
    exact hk

theorem decimalsText_writeDecimals {decimals : Option UInt64} (h : decimals ≠ some 0) :
    DecimalsText (writeDecimals decimals) decimals := by
  cases decimals with
  | none => exact .missing
  | some n =>
    have hn : n ≠ 0 := fun hz => h (by rw [hz])
    have hd : ∀ c ∈ writeDigits n, c.isDigit = true := fun c hc => isDigit_of_mem_writeDigits hc
    have h0 := head_writeDigits hn
    have hv : Nat.ofDigitChars 10 (writeDigits n) 0 = n.toNat :=
      Nat.ofDigitChars_ten_toDigits
    rw [writeDecimals]
    obtain ⟨c, r, hc⟩ := List.exists_cons_of_ne_nil (writeDigits_ne_nil n)
    rw [hc] at hd h0 hv ⊢
    exact .given (hd c List.mem_cons_self) (fun hz => h0 (by rw [hz]; rfl))
      (fun d hm => hd d (List.mem_cons_of_mem c hm)) hv

theorem styleText_writeStyle (style : Option Style) : StyleText (writeStyle style) style := by
  cases style with
  | none => exact .missing
  | some style => exact .given style

theorem units_of_not_mem {text : List Char} (h : '}' ∉ text) : Units text := by
  induction text with
  | nil => exact .nil
  | cons c r ih =>
    rw [List.mem_cons, not_or] at h
    exact .char (Ne.symm h.1) (ih h.2)

theorem conjunctionText_writeConjunction {conjunction : Option String}
    (h : printableConjunction conjunction = true) :
    ConjunctionText (writeConjunction conjunction) conjunction := by
  cases conjunction with
  | none => exact .missing
  | some text =>
    simp only [printableConjunction, Bool.and_eq_true, Bool.not_eq_true',
      List.isEmpty_eq_false_iff, List.all_eq_true] at h
    have hb : '}' ∉ text.toList := fun hm => absurd (h.2 _ hm) (by decide)
    have hc := ConjunctionText.given h.1 (units_of_not_mem hb)
    rw [String.ofList_toList] at hc
    exact hc

theorem reads_printed {p : Placeholder} (h : (Part.token p).wellFormed = true) {rest : List Char}
    (hb : rest.head? ≠ some '}') (hq : rest.head? ≠ some '?') : Reads p.write rest p := by
  simp only [Part.wellFormed, Bool.and_eq_true, bne_iff_ne] at h
  refine ⟨_, _, _, _, ?_, keyText_writeKey h.1.1, decimalsText_writeDecimals h.1.2,
    styleText_writeStyle p.style, conjunctionText_writeConjunction h.2, ?_, ?_⟩
  · simp [write, signText, markText]
  · cases p.optional with
    | true => simp [markText]
    | false => exact hb
  · cases p.optional with
    | true => exact iff_of_true rfl ⟨rest, rfl, hb⟩
    | false =>
      apply iff_of_false (by simp)
      intro hm
      obtain ⟨r, hr, -⟩ := hm
      exact ne_cons hq r hr

theorem open_printed {p : Placeholder} (h : (Part.token p).wellFormed = true) {rest : List Char}
    (hb : rest.head? ≠ some '}') (hq : rest.head? ≠ some '?') :
    open? false (p.write ++ rest) = some (p, rest) :=
  scan_reads (reads_printed h hb hq)

theorem no_bracket {test : Char → Bool} (ho : test '[' = false) (hl : test ']' = false)
    {c : Char} (hc : test c = true) : isBracket c = false := by
  rw [isBracket_eq_false]
  constructor
  · intro h
    rw [h, ho] at hc
    cases hc
  · intro h
    rw [h, hl] at hc
    cases hc

theorem keyText_no_bracket {text : List Char} {key : Option Key} (h : KeyText text key) :
    ∀ c ∈ text, isBracket c = false := by
  intro c hc
  cases h with
  | missing => cases hc
  | given hn hk => exact no_bracket (by decide) (by decide) (hk c hc)

theorem writeDecimals_no_bracket (decimals : Option UInt64) :
    ∀ c ∈ writeDecimals decimals, isBracket c = false := by
  intro c hc
  cases decimals with
  | none => cases hc
  | some n =>
    rcases List.mem_cons.mp hc with rfl | hd
    · rfl
    · exact no_bracket (by decide) (by decide) (isDigit_of_mem_writeDigits hd)

theorem writeStyle_no_bracket (style : Option Style) :
    ∀ c ∈ writeStyle style, isBracket c = false := by
  intro c hc
  cases style with
  | none => cases hc
  | some style =>
    rcases List.mem_cons.mp hc with rfl | hl
    · rfl
    · rw [List.mem_singleton.mp hl]
      cases style <;> rfl

theorem writeConjunction_no_bracket {conjunction : Option String}
    (h : printableConjunction conjunction = true) :
    ∀ c ∈ writeConjunction conjunction, isBracket c = false := by
  intro c hc
  cases conjunction with
  | none => cases hc
  | some text =>
    simp only [printableConjunction, Bool.and_eq_true, List.all_eq_true, Bool.not_eq_true'] at h
    rcases List.mem_cons.mp hc with rfl | hm
    · rfl
    · exact isBracket_of_isDelimiter (h.2 c hm)

theorem write_no_bracket {p : Placeholder} (h : (Part.token p).wellFormed = true) :
    ∀ c ∈ p.write, isBracket c = false := by
  simp only [Part.wellFormed, Bool.and_eq_true] at h
  intro c hc
  simp only [write, List.cons_append, List.mem_cons, List.mem_append] at hc
  rcases hc with rfl | ((((hs | hk) | hd) | hy) | hw) | rfl | hm
  · rfl
  · cases hp : p.plus <;> simp_all [isBracket]
  · exact keyText_no_bracket (keyText_writeKey h.1.1) c hk
  · exact writeDecimals_no_bracket p.decimals c hd
  · exact writeStyle_no_bracket p.style c hy
  · exact writeConjunction_no_bracket h.2 c hw
  · rfl
  · cases hp : p.optional <;> simp_all [isBracket]

theorem head_escape (text : List Char) : (escape text).head? = text.head? := by
  cases text with
  | nil => rfl
  | cons c r => by_cases hc : isDelimiter c = true <;> simp [escape, hc]

theorem isEmpty_escape (text : List Char) : (escape text).isEmpty = text.isEmpty := by
  cases text with
  | nil => rfl
  | cons c r => by_cases hc : isDelimiter c = true <;> simp [escape, hc]

theorem getLast_escape (text : List Char) : (escape text).getLast? = text.getLast? := by
  rcases List.eq_nil_or_concat text with rfl | ⟨l, d, rfl⟩
  · rfl
  · rw [List.concat_eq_append, escape_append]
    by_cases hd : isDelimiter d = true <;> simp [escape, hd]

/-- A literal's escapes end in no bracket or brace that could double with the next one. -/
theorem endsIn_escape {text : List Char} (h : (Part.literal text).wellFormed = true) {c : Char}
    (hc : isDelimiter c = true) : endsIn c false (escape text) = false := by
  rw [← Bool.not_eq_true, endsIn_false, getLast_escape]
  intro hl
  simp [Part.wellFormed, hl, hc] at h

theorem bounded_literal {text : List Char} (h : (Part.literal text).wellFormed = true)
    (hn : text ≠ []) : Bounded text := by
  obtain ⟨c, r, hcr⟩ := List.exists_cons_of_ne_nil hn
  rcases List.eq_nil_or_concat text with h0 | ⟨l, d, hld⟩
  · exact absurd h0 hn
  · rw [List.concat_eq_append] at hld
    have hh : text.head? = some c := by rw [hcr]; rfl
    have hl : text.getLast? = some d := by rw [hld, List.getLast?_concat]
    simp only [Part.wellFormed, hh, hl, Option.all_some, Bool.and_eq_true, Bool.not_eq_true'] at h
    exact ⟨c, r, d, l, hcr, hld, h.1.1, h.2⟩

def Begins (c : Char) : Prop := c = '{' ∨ isDelimiter c = false ∧ c ≠ '?'

theorem begins_ne {c d : Char} (h : Begins c) (hd : isDelimiter d = true ∨ d = '?')
    (hb : d ≠ '{') : c ≠ d := by
  intro he
  subst he
  rcases h with h | ⟨hn, hq⟩
  · exact hb h
  · rcases hd with hd | hd
    · rw [hn] at hd
      cases hd
    · exact hq hd

theorem head_part {part : Part} (h : part.wellFormed = true) {c : Char}
    (hc : part.print.head? = some c) : Begins c := by
  cases part with
  | literal text =>
    rw [Part.print, head_escape] at hc
    simp only [Part.wellFormed, hc, Option.all_some, Bool.and_eq_true, Bool.not_eq_true',
      bne_iff_ne] at h
    exact Or.inr h.1
  | token p => exact Or.inl (Option.some.inj hc).symm

theorem head_printParts {parts : List Part} (h : ∀ part ∈ parts, part.wellFormed = true)
    {c : Char} (hc : (printParts parts).head? = some c) : Begins c := by
  rw [printParts, List.head?_flatMap] at hc
  obtain ⟨part, hm, hp⟩ := List.exists_of_findSome?_eq_some hc
  exact head_part (h part hm) hp

theorem head_print {items : List Item} (h : wellFormed items = true) {c : Char}
    (hc : (print items).head? = some c) : c = '[' ∨ Begins c := by
  rw [wellFormed, List.all_eq_true] at h
  rw [print, List.head?_flatMap] at hc
  obtain ⟨item, hm, hi⟩ := List.exists_of_findSome?_eq_some hc
  cases item with
  | part p => exact Or.inr (head_part (h _ hm) hi)
  | bracketed parts => exact Or.inl (Option.some.inj hi).symm

def Part.pieces : Part → List Piece
  | .literal text => (escape text).map Piece.char
  | .token p => [.token p]

theorem pieces_printParts {parts : List Part} (h : ∀ part ∈ parts, part.wellFormed = true) :
    pieces false (printParts parts) = parts.flatMap Part.pieces := by
  induction parts with
  | nil => exact pieces_nil false
  | cons part parts ih =>
    have hp := h part List.mem_cons_self
    have hps := fun q hq => h q (List.mem_cons_of_mem part hq)
    rw [printParts, List.flatMap_cons, List.flatMap_cons, ← ih hps]
    cases part with
    | literal text =>
      rw [Part.print, pieces_escape, endsIn_escape hp rfl]
      rfl
    | token p =>
      have hb : (printParts parts).head? ≠ some '}' := fun hc =>
        begins_ne (head_printParts hps hc) (Or.inl rfl) (by decide) rfl
      have hq : (printParts parts).head? ≠ some '?' := fun hc =>
        begins_ne (head_printParts hps hc) (Or.inr rfl) (by decide) rfl
      exact pieces_of_open?_eq_some (open_printed hp hb hq)

theorem closeSection_part {part : Part} (h : part.wellFormed = true) (depth : Nat)
    (filled : Bool) (rest : List Char) :
    closeSection depth filled (part.print ++ rest) =
      (closeSection depth (filled || !part.print.isEmpty) rest).map (inFront part.print) := by
  cases part with
  | literal text => rw [Part.print, closeSection_escape, isEmpty_escape]
  | token p => exact closeSection_plain depth filled (write_no_bracket h) rest

theorem closeSection_printParts {parts : List Part} (h : ∀ part ∈ parts, part.wellFormed = true)
    (depth : Nat) (filled : Bool) (rest : List Char) :
    closeSection depth filled (printParts parts ++ rest) =
      (closeSection depth (filled || !(printParts parts).isEmpty) rest).map
        (inFront (printParts parts)) := by
  induction parts generalizing filled with
  | nil => exact closeSection_plain depth filled (List.forall_mem_nil _) rest
  | cons part parts ih =>
    rw [printParts, List.flatMap_cons, List.append_assoc,
      closeSection_part (h part List.mem_cons_self)]
    have he : (!(part.print ++ printParts parts).isEmpty) =
        (!part.print.isEmpty || !(printParts parts).isEmpty) := by
      cases part.print <;> rfl
    show Option.map _ (closeSection _ _ (printParts parts ++ rest)) =
      (closeSection _ (_ || !(part.print ++ printParts parts).isEmpty) rest).map
        (inFront (part.print ++ printParts parts))
    rw [ih (fun p hp => h p (List.mem_cons_of_mem part hp)), map_inFront_append, he, Bool.or_assoc]

theorem openSection_bracketed {parts : List Part} (h : ∀ part ∈ parts, part.wellFormed = true)
    (hn : printParts parts ≠ []) {rest : List Char} (hr : rest.head? ≠ some ']') :
    openSection false ('[' :: (printParts parts ++ ']' :: rest)) =
      some (printParts parts, rest) := by
  have hh : (printParts parts ++ ']' :: rest).head? ≠ some '[' := by
    rw [List.head?_append, ne_eq, Option.or_eq_some_iff]
    intro hc
    rcases hc with hc | ⟨hc, -⟩
    · exact begins_ne (head_printParts h hc) (Or.inl rfl) (by decide) rfl
    · exact hn (List.head?_eq_none_iff.mp hc)
  rw [openSection_bracket false hh, if_neg (by decide), closeSection_printParts h,
    List.isEmpty_eq_false_iff.mpr hn, Bool.not_false, Bool.or_true, closeSection_end hr]
  simp [inFront]

def segmentsOf : List Item → List Segment
  | [] => []
  | .part p :: items => p.print.foldr Segment.consLiteral (segmentsOf items)
  | .bracketed parts :: items => .bracketed (printParts parts) :: segmentsOf items

theorem segments_part {part : Part} (h : part.wellFormed = true) (rest : List Char) :
    segments false (part.print ++ rest) =
      part.print.foldr Segment.consLiteral (segments false rest) := by
  cases part with
  | literal text => rw [Part.print, segments_escape, endsIn_escape h rfl]
  | token p =>
    have hb : '[' ∉ p.write := fun hm => absurd (write_no_bracket h _ hm) (by decide)
    rw [Part.print, segments_plain false hb, endsIn_not_mem hb]

theorem segments_print {items : List Item} (h : wellFormed items = true) :
    segments false (print items) = segmentsOf items := by
  induction items with
  | nil => exact segments_nil false
  | cons item items ih =>
    rw [wellFormed, List.all_cons, Bool.and_eq_true] at h
    obtain ⟨hi, his⟩ := h
    rw [print, List.flatMap_cons]
    cases item with
    | part p =>
      have hp := segments_part hi (print items)
      rw [ih his] at hp
      exact hp
    | bracketed parts =>
      simp only [Item.wellFormed, Bool.and_eq_true, List.all_eq_true, Bool.not_eq_true',
        List.isEmpty_eq_false_iff] at hi
      have hr : (print items).head? ≠ some ']' := by
        intro hc
        rcases head_print his hc with he | hb
        · cases he
        · exact begins_ne hb (Or.inl rfl) (by decide) rfl
      have ho := segments_of_openSection_eq_some (openSection_bracketed hi.1 hi.2 hr)
      rw [ih his] at ho
      show segments false ('[' :: printParts parts ++ [']'] ++ print items) = _
      simpa [segmentsOf] using ho

end MessagePattern.Template
