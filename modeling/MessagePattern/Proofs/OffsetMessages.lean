import MessagePattern.Proofs.OffsetSections

/-!
# Messages by their offsets

The two passes that follow the sections copy what lies between placeholders, and
what lies between doubled delimiters. Put together, the scans give the message
that the text of the pattern gives, and none of them meets a fault.
-/

set_option autoImplicit false

namespace MessagePattern.Offsets

/-- The text before `copied` is in the output, with its placeholders filled. -/
def fillFrom (arguments : Arguments) (options : Options) (text : String) (copied position : Nat)
    (output : String) : List Token → Checked (Except Error String)
  | [] => do
    let rest ← cut text copied text.utf8ByteSize
    .ok (.ok (output ++ rest))
  | t :: ts => do
    let passed ← cut text copied t.start
    let (key, position) ← nextKey t.placeholder position
    match t.placeholder.fill arguments options key with
    | .error e => .ok (.error e)
    | .ok filled =>
      fillFrom arguments options text t.stop position (output ++ passed ++ String.ofList filled) ts

def renderAt (arguments : Arguments) (options : Options) (text : String) :
    Checked (Except Error String) := do
  let found ← tokensAt text 0
  fillFrom arguments options text 0 0 "" found

theorem fillFrom_split (arguments : Arguments) (options : Options) {text : String}
    {done pending : List Char} {ps : List Piece}
    (ht : text.toList = done ++ pending ++ written ps) {position : Nat}
    (hp : position + keylessCount ps < UInt64.size) (output : String) :
    fillFrom arguments options text (byteSize done) position output
        (tokensFrom (byteSize (done ++ pending)) ps) =
      .ok ((arguments.fillPieces options position ps).map
        fun filled => output ++ String.ofList (pending ++ filled)) := by
  induction ps generalizing done pending position output with
  | nil =>
    have h : At text (byteSize done) pending := ⟨done, by rw [ht]; simp [written], rfl⟩
    rw [tokensFrom, fillFrom, h.cut_rest, ok_bind, Arguments.fillPieces]
    simp [Except.map]
  | cons piece ps ih =>
    have hw : written (piece :: ps) = piece.write ++ written ps := rfl
    rw [hw, ← List.append_assoc] at ht
    cases piece with
    | char c =>
      have hi := ih (show text.toList = done ++ (pending ++ [c]) ++ written ps by
        rw [ht, ← List.append_assoc]
        rfl) hp output
      rw [← List.append_assoc, byteSize_append _ [c]] at hi
      rw [tokensFrom, Arguments.fillPieces]
      refine hi.trans ?_
      cases arguments.fillPieces options position ps with
      | error e => rfl
      | ok filled =>
        simp [Except.map]
    | token p =>
      have h : At text (byteSize done) (pending ++ (p.write ++ written ps)) :=
        ⟨done, by rw [ht]; simp [Piece.write], rfl⟩
      rw [← advance_keyless] at hp
      rw [tokensFrom, fillFrom, byteSize_append, h.cut_eq, ok_bind,
        nextKey_eq (by dsimp only; omega), ok_bind, Arguments.fillPieces]
      dsimp only
      cases p.fill arguments options (p.keyAt position) with
      | error e => rfl
      | ok text' =>
        have hi := ih (show text.toList = done ++ pending ++ p.write ++ [] ++ written ps by
          rw [ht, List.append_nil]
          rfl) hp (output ++ String.ofList pending ++ String.ofList text')
        rw [List.append_nil, byteSize_append _ p.write, byteSize_append] at hi
        dsimp only
        refine hi.trans ?_
        cases arguments.fillPieces options (p.advance position) ps with
        | error e => rfl
        | ok filled =>
          show Except.ok (Except.ok _) = Except.ok (Except.ok _)
          simp [String.append_assoc]

theorem renderAt_eq {text : String} (hs : Fits text) (arguments : Arguments) (options : Options) :
    renderAt arguments options text =
      .ok ((arguments.fillPieces options 0 (pieces false text.toList)).map String.ofList) := by
  have ht : text.toList = [] ++ [] ++ written (pieces false text.toList) := by
    rw [written_pieces]
    rfl
  have hle := keylessCount_pieces_le text.toList
  rw [← utf8ByteSize_eq] at hle
  have hf := fillFrom_split arguments options ht (hs.lt_size (n := 0 + _) (by omega)) ""
  rw [renderAt, tokensAt_zero hs, ok_bind]
  refine hf.trans ?_
  simp

def doublesAt (bytes : List UInt8) (i : Nat) : Checked Bool := do
  let b ← byteAt bytes i
  if Escape.isDelimiter (Char.ofUInt8 b) then
    let d ← byteAt bytes (i + 1)
    .ok (d == b)
  else .ok false

/-- The text before `copied` is in the output, with its pairs collapsed. -/
def collapseAt (text : String) (output : Option String) (copied i : Nat) :
    Checked (Option String) := do
  within (i + 1)
  if _h : i + 1 < (bytesOf text).length then
    if ← doublesAt (bytesOf text) i then
      let passed ← cut text copied (i + 1)
      within (i + 2)
      collapseAt text (some (output.getD "" ++ passed)) (i + 2) (i + 2)
    else collapseAt text output copied (i + 1)
  else finish text copied output
termination_by (bytesOf text).length - i

def unescaped (output : Option (List Char)) (literal rest : List Char) : Option (List Char) :=
  if output.isSome || Escape.hasPair rest then
    some (output.getD [] ++ literal ++ Escape.collapse rest)
  else none

theorem unescaped_nil (output : Option (List Char)) (literal : List Char) :
    unescaped output literal [] = output.map (· ++ literal) := by
  cases output with
  | none => rfl
  | some output => exact congrArg some (List.append_nil _)

theorem unescaped_pair (output : Option (List Char)) (literal r : List Char) {c : Char}
    (hc : Escape.isDelimiter c = true) :
    unescaped output literal (c :: c :: r) =
      unescaped (some (output.getD [] ++ literal ++ [c])) [] r := by
  simp [unescaped, Escape.hasPair, Escape.collapse, hc]

theorem unescaped_char (output : Option (List Char)) (literal r : List Char) {c : Char}
    (hc : ¬ (Escape.isDelimiter c = true ∧ r.head? = some c)) :
    unescaped output literal (c :: r) = unescaped output (literal ++ [c]) r := by
  cases r with
  | nil => simp [unescaped, Escape.hasPair, Escape.collapse]
  | cons d r =>
    have hn : (Escape.isDelimiter c && c == d) = false := by
      rw [← Bool.not_eq_true, Bool.and_eq_true, beq_iff_eq]
      rintro ⟨h, rfl⟩
      exact hc ⟨h, rfl⟩
    simp [unescaped, Escape.hasPair, Escape.collapse, hn]

theorem isDelimiter_eq_false {c : Char} (hc : 0x80 ≤ c.toNat) : Escape.isDelimiter c = false := by
  rw [Escape.isDelimiter, beq_ascii (by decide) hc, beq_ascii (by decide) hc,
    beq_ascii (by decide) hc, beq_ascii (by decide) hc]
  rfl

theorem ascii_of_isDelimiter {c : Char} (hc : Escape.isDelimiter c = true) : c.toNat < 0x80 := by
  refine Nat.lt_of_not_le fun hle => ?_
  rw [isDelimiter_eq_false hle] at hc
  cases hc

theorem doublesAt_eq {bytes : List UInt8} {i : Nat} {c : Char} (h : peek bytes i = some c)
    (hlt : i + 1 < bytes.length) :
    doublesAt bytes i = .ok (Escape.isDelimiter c && peek bytes (i + 1) == some c) := by
  obtain ⟨b, hb, rfl⟩ := Option.map_eq_some_iff.mp h
  have hd : bytes[i + 1]? = some bytes[i + 1] := List.getElem?_eq_getElem hlt
  have hinj : ∀ d : UInt8, (d == b) = (some (Char.ofUInt8 d) == some (Char.ofUInt8 b)) := by
    intro d
    rw [Bool.eq_iff_iff, beq_iff_eq, beq_iff_eq, Option.some.injEq, ← Char.toNat_inj,
      toNat_ofUInt8, toNat_ofUInt8, UInt8.toNat_inj]
  rw [doublesAt, byteAt_eq_ok hb, ok_bind, byteAt_eq_ok hd, ok_bind, peek, hd, Option.map_some,
    hinj]
  cases Escape.isDelimiter (Char.ofUInt8 b) <;> rfl

section
variable {text : String} (hs : Fits text)
include hs

theorem collapseAt_succ (output : Option String) (copied : Nat) {i : Nat} {c : Char}
    (h : peek (bytesOf text) i = some c)
    (hn : ¬ (Escape.isDelimiter c = true ∧ peek (bytesOf text) (i + 1) = some c)) :
    collapseAt text output copied i = collapseAt text output copied (i + 1) := by
  have hi := lt_of_peek h
  have hl := length_bytesOf text
  rw [collapseAt, within_of_fits hs (by omega), ok_bind]
  by_cases hlt : i + 1 < (bytesOf text).length
  · have hf : (Escape.isDelimiter c && peek (bytesOf text) (i + 1) == some c) = false := by
      rw [← Bool.not_eq_true, Bool.and_eq_true, beq_iff_eq]
      exact hn
    rw [dif_pos hlt, doublesAt_eq h hlt, hf, ok_bind, if_neg Bool.false_ne_true]
  · rw [dif_neg hlt, collapseAt, within_of_fits hs (by omega), ok_bind, dif_neg (by omega)]

/-- A character that is not doubled is passed. -/
theorem collapseAt_char (output : Option String) (copied : Nat) {i : Nat} {c : Char}
    {r : List Char} (h : At text i (c :: r))
    (hn : ¬ (Escape.isDelimiter c = true ∧ r.head? = some c)) :
    collapseAt text output copied i = collapseAt text output copied (i + c.utf8Size) := by
  by_cases hc : Escape.isDelimiter c = true
  · have hascii := ascii_of_isDelimiter hc
    have h1 := utf8Size_of_ascii hascii
    have ht := h.tail
    rw [h1] at ht ⊢
    refine collapseAt_succ hs output copied ((h.peek_eq_some hascii).mpr rfl) ?_
    rwa [ht.peek_eq_some hascii]
  · refine h.pass (collapseAt text output copied) fun k d hk hm => ?_
    refine collapseAt_succ hs output copied hk ?_
    rw [eq_of_mem_spread (fun _ => isDelimiter_eq_false) hm]
    exact fun hd => hc hd.1

/-- The first of a pair is copied with the text before it, and the second is passed. -/
theorem collapseAt_pair {done literal r : List Char} {c : Char} (hc : Escape.isDelimiter c = true)
    (ht : text.toList = done ++ literal ++ c :: c :: r) (output : Option (List Char)) :
    let behind := byteSize (done ++ literal ++ [c, c])
    collapseAt text (output.map String.ofList) (byteSize done) (byteSize (done ++ literal)) =
      collapseAt text (some (String.ofList (output.getD [] ++ literal ++ [c]))) behind behind := by
  intro behind
  have hl := length_bytesOf text
  have hascii := ascii_of_isDelimiter hc
  have h1 := utf8Size_of_ascii hascii
  have h : At text (byteSize (done ++ literal)) (c :: c :: r) := ⟨_, ht, rfl⟩
  have h2 : At text (byteSize (done ++ literal) + 1) (c :: r) := h1 ▸ h.tail
  have hend := h2.end_eq
  simp only [byteSize, h1] at hend
  have hcut : At text (byteSize done) (literal ++ [c] ++ c :: r) := ⟨done, by simp [ht], rfl⟩
  have hcopied : byteSize (done ++ literal) + 1 = byteSize done + byteSize (literal ++ [c]) := by
    rw [byteSize_append, byteSize_append, byteSize, h1, byteSize, Nat.add_assoc]
  have hbehind : byteSize (done ++ literal) + 2 = behind := by
    rw [show behind = _ from byteSize_append _ [c, c], byteSize, byteSize, h1, byteSize]
  rw [collapseAt, within_of_fits hs (by omega), ok_bind, dif_pos (by omega),
    doublesAt_eq ((h.peek_eq_some hascii).mpr rfl) (by omega), ok_bind, hc,
    (h2.peek_eq_some hascii).mpr rfl, if_pos (by simp), hcopied, hcut.cut_eq, ok_bind,
    within_of_fits hs (by omega), ok_bind, getD_append, hbehind]

theorem collapseAt_split {done literal rest : List Char}
    (ht : text.toList = done ++ literal ++ rest) (output : Option (List Char)) :
    collapseAt text (output.map String.ofList) (byteSize done) (byteSize (done ++ literal)) =
      .ok ((unescaped output literal rest).map String.ofList) := by
  have hl := length_bytesOf text
  induction hn : rest.length using Nat.strong_induction_on
    generalizing done literal rest output with
  | _ n ih =>
    have h : At text (byteSize (done ++ literal)) rest := ⟨_, ht, rfl⟩
    cases rest with
    | nil =>
      have hend := h.end_eq
      rw [byteSize] at hend
      rw [collapseAt, within_of_fits hs (by omega), ok_bind, dif_neg (by omega), unescaped_nil]
      rw [List.append_nil] at ht
      exact finish_split ht output
    | cons c r =>
      by_cases hc : Escape.isDelimiter c = true ∧ r.head? = some c
      · obtain ⟨hd, hr⟩ := hc
        obtain ⟨r, rfl⟩ := List.head?_eq_some_iff.mp hr
        have hi := ih r.length (by rw [← hn, List.length_cons, List.length_cons]; omega)
          (show text.toList = done ++ literal ++ [c, c] ++ [] ++ r by simp [ht])
          (some (output.getD [] ++ literal ++ [c])) rfl
        rw [List.append_nil] at hi
        rw [collapseAt_pair hs hd ht output, unescaped_pair output literal r hd]
        exact hi
      · have hi := ih r.length (by rw [← hn, List.length_cons]; omega)
          (show text.toList = done ++ (literal ++ [c]) ++ r by simp [ht]) output rfl
        rw [collapseAt_char hs _ _ h hc, unescaped_char output literal r hc]
        rw [← List.append_assoc, byteSize_append _ [c]] at hi
        exact hi

/-- Where some pair is collapsed, the text is written anew. -/
theorem collapseAt_zero : collapseAt text none 0 0 =
    .ok (if Escape.hasPair text.toList then
      some (String.ofList (Escape.collapse text.toList)) else none) := by
  have ht : text.toList = [] ++ [] ++ text.toList := rfl
  refine (collapseAt_split hs ht none).trans ?_
  cases hp : Escape.hasPair text.toList <;> simp [unescaped, hp]

end

def formatAt (pattern : String) (arguments : Arguments) (options : Options) :
    Checked (Except Error String) := do
  let rewritten ← rewriteAt arguments pattern none 0 0 0
  match ← renderAt arguments options (rewritten.getD pattern) with
  | .error e => .ok (.error e)
  | .ok rendered => do
    let collapsed ← collapseAt rendered none 0 0
    .ok (.ok (collapsed.getD rendered))

theorem byteSize_resolve_le (arguments : Arguments) (position : Nat) (segments : List Segment) :
    byteSize (arguments.resolve position segments) ≤
      byteSize (segments.flatMap Segment.write) := by
  induction segments generalizing position with
  | nil => exact Nat.le_refl 0
  | cons segment segments ih =>
    rw [List.flatMap_cons, byteSize_append]
    cases segment with
    | literal text =>
      have hi := ih (position + keylessCount (pieces false text))
      rw [Arguments.resolve, byteSize_append]
      exact Nat.add_le_add_left hi _
    | bracketed content =>
      have hi := ih (arguments.positionAfter position content)
      have hk : byteSize (arguments.keptContent position content) ≤ byteSize content := by
        rw [Arguments.keptContent]
        split
        · exact Nat.le_refl _
        · exact Nat.zero_le _
      have hb := byteSize_section [] content
      rw [List.nil_append] at hb
      rw [resolve_bracketed, byteSize_append, Segment.write, hb]
      omega

theorem formatAt_eq {pattern : String} (hs : Fits pattern) {arguments : Arguments}
    {options : Options}
    (hr : ∀ filled, arguments.fillPieces options 0
      (pieces false (arguments.resolveSections pattern.toList)) = .ok filled →
        Fits (String.ofList filled)) :
    formatAt pattern arguments options = .ok (format pattern arguments options) := by
  have hg : ((arguments.rewriteSections? pattern.toList).map String.ofList).getD pattern =
      String.ofList (arguments.resolveSections pattern.toList) := by
    rw [← rewriteSections_getD]
    cases arguments.rewriteSections? pattern.toList with
    | none => exact String.ofList_toList.symm
    | some text => rfl
  have hfit : Fits (String.ofList (arguments.resolveSections pattern.toList)) := by
    have hle := byteSize_resolve_le arguments 0 (segments false pattern.toList)
    rw [flatMap_write_segments] at hle
    unfold Fits at hs ⊢
    rw [utf8ByteSize_eq] at hs
    rw [utf8ByteSize_ofList]
    exact Nat.lt_of_le_of_lt hle hs
  rw [formatAt, rewriteAt_zero hs, ok_bind, hg, renderAt_eq hfit, ok_bind, String.toList_ofList,
    format, formatText]
  generalize arguments.fillPieces options 0 _ = filled at hr
  cases filled with
  | error e => rfl
  | ok filled =>
    have hc := collapseAt_zero (hr filled rfl)
    rw [String.toList_ofList] at hc
    simp only [Except.map, hc, ok_bind]
    by_cases hp : Escape.hasPair filled = true
    · rw [if_pos hp]
      rfl
    · rw [if_neg hp, Escape.collapse_eq_self (Bool.not_eq_true _ ▸ hp)]
      rfl

/-- A text in memory is gone through without a fault. Each scan finds what the text has, at
whatever offset it begins and with each counter that leaves room for the placeholders of the text,
and the scans together make the message. -/
theorem faultless {text : String} (hs : Fits text) (arguments : Arguments) (options : Options) :
    (∀ start, parseAt text start =
      .ok ((Placeholder.parseAt? text start).map fun t => (t.placeholder, t.stop))) ∧
      tokensAt text 0 = .ok (tokens text) ∧
      next text text.utf8ByteSize = .ok none ∧
      (∀ start, matchAt (bytesOf text) start = .ok (matchSection (bytesOf text) start)) ∧
      countKeyless text = .ok (keylessCount (pieces false text.toList)) ∧
      (∀ counter, counter + text.utf8ByteSize < UInt64.size → keepsAt arguments counter text =
        .ok (arguments.keeps counter (pieces false text.toList),
          arguments.positionAfter counter text.toList)) ∧
      rewriteAt arguments text none 0 0 0 =
        .ok ((arguments.rewriteSections? text.toList).map String.ofList) ∧
      renderAt arguments options text =
        .ok ((arguments.fillPieces options 0 (pieces false text.toList)).map String.ofList) ∧
      collapseAt text none 0 0 = .ok (if Escape.hasPair text.toList then
        some (String.ofList (Escape.collapse text.toList)) else none) ∧
      ((∀ filled, arguments.fillPieces options 0
        (pieces false (arguments.resolveSections text.toList)) = .ok filled →
          Fits (String.ofList filled)) →
        formatAt text arguments options = .ok (format text arguments options)) := by
  refine ⟨parseAt_eq hs, tokensAt_zero hs, ?_, ?_, countKeyless_eq hs, ?_,
    rewriteAt_zero hs arguments, renderAt_eq hs arguments options, collapseAt_zero hs,
    formatAt_eq hs⟩
  · have ht : text.toList = text.toList ++ [] := (List.append_nil _).symm
    obtain ⟨found, he, hl⟩ := next_leads hs ht
    rw [pieces_nil] at hl
    rw [utf8ByteSize_eq, he]
    cases hl
    rfl
  · exact matchAt_eq (by rw [length_bytesOf]; exact hs.lt_size (Nat.le_refl _))
  · intro counter hc
    have hle := keylessCount_pieces_le text.toList
    rw [← utf8ByteSize_eq] at hle
    exact keepsAt_eq arguments hs (by omega)

def accented : String := "ü\x7b\x7d[ é\x7bx:ß\x7d?]✓\x7d\x7d"

def accentedText : String := "ü\x7b\x7d é\x7bx:ß\x7d?✓\x7d\x7d"

def accents : Arguments :=
  .ofPairs [(.index 0, .text "a"), (.name "x", .list [.text "b", .text "c"])]

theorem faultless_accented :
    let choice : Placeholder :=
      { key := some (.name "x"), conjunction := some "ß", optional := true }
    Fits accented ∧ parseAt accented 1 = .ok none ∧
      tokensAt accented 0 = .ok [⟨2, 4, {}⟩, ⟨8, 15, choice⟩] ∧
      matchAt (bytesOf accented) 4 = .ok (some 15) ∧
      rewriteAt accents accented none 0 0 0 = .ok (some accentedText) ∧
      formatAt accented accents .standard = .ok (.ok "üa éb ß c✓\x7d") := by
  intro choice
  have hs : Fits accented := by
    unfold Fits
    decide
  obtain ⟨hp, ht, -, hm, -, -, hr, -, -, hf⟩ := faultless hs accents .standard
  have hw : accents.rewriteSections? accented.toList = some accentedText.toList := by
    decide +kernel
  have htext : accents.resolveSections accented.toList = accentedText.toList := by
    rw [← rewriteSections_getD, hw]
    rfl
  have hpieces : pieces false accentedText.toList = [.char 'ü', .token {}, .char ' ',
      .char 'é', .token choice, .char '✓', .char '}', .char '}'] := by
    decide +kernel
  have hfill : accents.fillPieces .standard 0 (pieces false
      (accents.resolveSections accented.toList)) = .ok "üa éb ß c✓\x7d\x7d".toList := by
    rw [htext, hpieces]
    rfl
  refine ⟨hs, ?_, ?_, ?_, ?_, ?_⟩
  · rw [hp 1]
    decide +kernel
  · rw [ht]
    decide +kernel
  · rw [hm 4]
    decide +kernel
  · rw [hr, hw]
    rfl
  · rw [hf, format, formatText, hfill]
    · rfl
    · intro filled h
      rw [hfill] at h
      cases h
      unfold Fits
      decide

end MessagePattern.Offsets
