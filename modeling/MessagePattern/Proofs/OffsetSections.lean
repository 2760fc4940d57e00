import MessagePattern.Proofs.OffsetPlaceholders
import MessagePattern.Proofs.SectionPass

/-!
# Sections by their offsets

The scan for a closing bracket goes byte by byte and keeps one entry for each
level that is open. What it finds lies between characters, and so does all that
is copied from a pattern. No counter of placeholders exceeds the number of bytes
that have been passed.
-/

set_option autoImplicit false

namespace MessagePattern.Offsets
open Placeholder

def fill : List Bool → List Bool
  | [] => []
  | _ :: outer => true :: outer

/-- A level is noted by whether it has content yet, the innermost one first. -/
def closeFrom (bytes : List UInt8) (levels : List Bool) (i : Nat) : Checked (Option Nat) :=
  if _h : i < bytes.length then do
    let b ← byteAt bytes i
    if isBracket (Char.ofUInt8 b) then
      within (i + 1)
      if peek bytes (i + 1) = some (Char.ofUInt8 b) then
        within (i + 2)
        closeFrom bytes (fill levels) (i + 2)
      else if Char.ofUInt8 b = '[' then closeFrom bytes (false :: levels) (i + 1)
      else if levels.head? = some true then
        if levels.tail = [] then .ok (some i)
        else closeFrom bytes (fill levels.tail) (i + 1)
      else .ok none
    else
      within (i + 1)
      closeFrom bytes (fill levels) (i + 1)
  else .ok none
termination_by bytes.length - i

def matchAt (bytes : List UInt8) (start : Nat) : Checked (Option Nat) :=
  if peek bytes start = some '[' then do
    within (start + 1)
    if peek bytes (start + 1) = some '[' then .ok none
    else if ← followsOn '[' bytes start then .ok none
    else closeFrom bytes [false] (start + 1)
  else .ok none

section
variable {bytes : List UInt8} {i : Nat}

theorem head_readBytes : (readBytes (bytes.drop i)).head? = peek bytes i := by
  rw [readBytes, List.head?_map, List.head?_drop, peek]

theorem tail_readBytes : (readBytes (bytes.drop i)).tail = readBytes (bytes.drop (i + 1)) := by
  rw [readBytes, ← List.map_tail, List.tail_drop, readBytes]

theorem readBytes_of_peek {c : Char} (h : peek bytes i = some c) :
    readBytes (bytes.drop i) = c :: readBytes (bytes.drop (i + 1)) := by
  rw [← head_readBytes] at h
  obtain ⟨r, hr⟩ := List.head?_eq_some_iff.mp h
  rw [← tail_readBytes, hr, List.tail_cons]

theorem followsOn_take (c : Char) (hi : i ≤ bytes.length) :
    followsOn c bytes i = .ok ((readBytes (bytes.take i)).getLast? == some c) := by
  cases i with
  | zero => rfl
  | succ before =>
    have hb : bytes[before]? = some bytes[before] := List.getElem?_eq_getElem hi
    rw [followsOn, byteAt_eq_ok hb, ok_bind, readBytes, List.getLast?_map, List.getLast?_take,
      if_neg (Nat.succ_ne_zero before), Nat.add_sub_cancel, hb]
    rfl

end

/-- The bytes in front of what is found are counted as well. -/
theorem count_inFront {α β : Type} (i : Nat) (s : List α) (found : Option (List α × β)) :
    ((found.map (inFront s)).map fun f => i + f.1.length) =
      found.map fun f => i + s.length + f.1.length := by
  cases found with
  | none => rfl
  | some f => simp [inFront, Nat.add_assoc]

section
variable {bytes : List UInt8} (hb : bytes.length + 2 < UInt64.size)
include hb

theorem closeFrom_eq (filled : Bool) (outer : List Bool) (i : Nat) :
    closeFrom bytes (filled :: outer) i =
      .ok ((closeSection outer.length filled (readBytes (bytes.drop i))).map
        fun found => i + found.1.length) := by
  induction hn : bytes.length - i using Nat.strong_induction_on generalizing filled outer i with
  | _ n ih =>
    rw [closeFrom]
    by_cases hi : i < bytes.length
    · have hget : bytes[i]? = some bytes[i] := List.getElem?_eq_getElem hi
      have hp : peek bytes i = some (Char.ofUInt8 bytes[i]) := by rw [peek, hget, Option.map_some]
      rw [dif_pos hi, byteAt_eq_ok hget, ok_bind, readBytes_of_peek hp]
      generalize Char.ofUInt8 bytes[i] = c
      have hnext : ∀ filled outer, closeFrom bytes (filled :: outer) (i + 1) = _ :=
        fun filled outer => ih (bytes.length - (i + 1)) (by omega) filled outer (i + 1) rfl
      rw [within_of_lt (by omega), ok_bind, within_of_lt (by omega), ok_bind]
      by_cases hc : isBracket c = true
      · rw [if_pos hc]
        by_cases hd : peek bytes (i + 1) = some c
        · have hnext' := ih (bytes.length - (i + 2)) (by omega) true outer (i + 2) rfl
          rw [if_pos hd, readBytes_of_peek hd, closeSection_doubled _ _ hc, count_inFront]
          exact hnext'
        · rw [if_neg hd]
          have hr : (readBytes (bytes.drop (i + 1))).head? ≠ some c := by rwa [head_readBytes]
          by_cases ho : c = '['
          · subst ho
            rw [if_pos rfl, closeSection_opening _ _ hr, count_inFront]
            exact hnext false (filled :: outer)
          · obtain rfl : c = ']' := by simpa [isBracket, ho] using hc
            rw [if_neg ho]
            cases filled with
            | false => rw [closeSection_hollow _ hr]; rfl
            | true =>
              rw [List.head?_cons, if_pos rfl, List.tail_cons]
              cases outer with
              | nil => rw [if_pos rfl, List.length_nil, closeSection_end hr]; rfl
              | cons level outer =>
                rw [if_neg (List.cons_ne_nil level outer), List.length_cons,
                  closeSection_closing _ hr, count_inFront]
                exact hnext true outer
      · rw [if_neg hc, closeSection_char _ _ (Bool.not_eq_true _ ▸ hc), count_inFront]
        exact hnext true outer
    · rw [dif_neg hi, List.drop_eq_nil_of_le (Nat.le_of_not_lt hi)]
      rfl

/-- The section that opens at a byte is found, whatever the bytes are. -/
theorem matchAt_eq (start : Nat) : matchAt bytes start = .ok (matchSection bytes start) := by
  rw [matchAt, matchSection]
  by_cases hp : peek bytes start = some '['
  · have hlt := lt_of_peek hp
    rw [if_pos hp, readBytes_of_peek hp, within_of_lt (by omega), ok_bind]
    by_cases hd : peek bytes (start + 1) = some '['
    · rw [if_pos hd, readBytes_of_peek hd, openSection_doubled]
      rfl
    · have hr : (readBytes (bytes.drop (start + 1))).head? ≠ some '[' := by rwa [head_readBytes]
      rw [if_neg hd, followsOn_take '[' (Nat.le_of_lt hlt), ok_bind, openSection_bracket _ hr]
      by_cases hf : ((readBytes (bytes.take start)).getLast? == some '[') = true
      · rw [if_pos hf, if_pos hf]
        rfl
      · rw [if_neg hf, if_neg hf, closeFrom_eq hb false [] (start + 1)]
        congr 2
        funext found
        omega
  · have hr : (readBytes (bytes.drop start)).head? ≠ some '[' := by rwa [head_readBytes]
    rw [if_neg hp, openSection_none _ hr]
    rfl

end

def countFrom (count : Nat) : List Token → Checked Nat
  | [] => .ok count
  | t :: ts =>
    if t.isKeyless then do
      within (count + 1)
      countFrom (count + 1) ts
    else countFrom count ts

def countKeyless (text : String) : Checked Nat := do
  let found ← tokensAt text 0
  countFrom 0 found

def nextKey (p : Placeholder) (position : Nat) : Checked (Key × Nat) :=
  match p.key with
  | some key => .ok (key, position)
  | none => do
    within (position + 1)
    let last ← predecessor (position + 1)
    .ok (.ofNat last, position + 1)

def keepsFrom (arguments : Arguments) (position : Nat) (kept : Bool) :
    List Token → Checked (Bool × Nat)
  | [] => .ok (kept, position)
  | t :: ts => do
    let (key, position) ← nextKey t.placeholder position
    keepsFrom arguments position
      (kept && (!t.placeholder.optional || arguments.fills key)) ts

def keepsAt (arguments : Arguments) (counter : Nat) (content : String) : Checked (Bool × Nat) := do
  let found ← tokensAt content 0
  let (kept, position) ← keepsFrom arguments counter true found
  .ok (kept, if kept then position else counter)

/-- A placeholder takes up some bytes. -/
theorem keylessCount_le (ps : List Piece) : keylessCount ps ≤ byteSize (written ps) := by
  induction ps with
  | nil => exact Nat.le_refl 0
  | cons piece ps ih =>
    have hw : written (piece :: ps) = piece.write ++ written ps := rfl
    have hpos := byteSize_pos piece.write_ne_nil
    have hc : keylessCount (piece :: ps) ≤ keylessCount ps + 1 := by
      rw [keylessCount, keylessCount, List.countP_cons]
      split <;> omega
    rw [hw, byteSize_append]
    omega

theorem keylessCount_pieces_le (text : List Char) :
    keylessCount (pieces false text) ≤ byteSize text := by
  have h := keylessCount_le (pieces false text)
  rwa [written_pieces] at h

theorem countFrom_eq {count : Nat} {ts : List Token}
    (h : count + ts.countP Token.isKeyless < UInt64.size) :
    countFrom count ts = .ok (count + ts.countP Token.isKeyless) := by
  induction ts generalizing count with
  | nil => rfl
  | cons t ts ih =>
    rw [List.countP_cons] at h ⊢
    by_cases ht : t.isKeyless = true
    · rw [if_pos ht] at h ⊢
      rw [countFrom, if_pos ht, within_of_lt (by omega), ok_bind, ih (by omega)]
      congr 1
      omega
    · rw [if_neg ht] at h ⊢
      rw [countFrom, if_neg ht, ih (by omega)]
      rfl

theorem countKeyless_eq {text : String} (hs : Fits text) :
    countKeyless text = .ok (keylessCount (pieces false text.toList)) := by
  have hle := keylessCount_pieces_le text.toList
  rw [← utf8ByteSize_eq] at hle
  have hc := countP_tokensFrom 0 (pieces false text.toList)
  rw [countKeyless, tokensAt_zero hs, ok_bind, tokens, countFrom_eq (hs.lt_size (by omega)), hc,
    Nat.zero_add]

theorem nextKey_eq {p : Placeholder} {position : Nat} (h : p.advance position < UInt64.size) :
    nextKey p position = .ok (p.keyAt position, p.advance position) := by
  rw [nextKey, Placeholder.keyAt]
  cases hk : p.key with
  | some key =>
    rw [advance, hk]
    rfl
  | none =>
    have ha : p.advance position = position + 1 := by
      rw [advance, hk]
      rfl
    rw [ha] at h ⊢
    simp only [within_of_lt h, ok_bind]
    rfl

theorem keepsFrom_eq (arguments : Arguments) {position : Nat} (kept : Bool) (start : Nat)
    {ps : List Piece} (h : position + keylessCount ps < UInt64.size) :
    keepsFrom arguments position kept (tokensFrom start ps) =
      .ok (kept && arguments.keeps position ps, position + keylessCount ps) := by
  induction ps generalizing position kept start with
  | nil => exact congrArg (fun b => Except.ok (b, position)) (Bool.and_true kept).symm
  | cons piece ps ih =>
    cases piece with
    | char c => exact ih kept _ h
    | token p =>
      rw [← advance_keyless] at h ⊢
      rw [tokensFrom, keepsFrom, nextKey_eq (by dsimp only; omega), ok_bind]
      dsimp only
      rw [ih _ _ h, Arguments.keeps, Bool.and_assoc]

theorem keepsAt_eq (arguments : Arguments) {counter : Nat} {content : String} (hs : Fits content)
    (h : counter + keylessCount (pieces false content.toList) < UInt64.size) :
    keepsAt arguments counter content =
      .ok (arguments.keeps counter (pieces false content.toList),
        arguments.positionAfter counter content.toList) := by
  rw [keepsAt, tokensAt_zero hs, ok_bind, tokens, keepsFrom_eq _ _ _ h, ok_bind, Bool.true_and]
  rfl

def finish (text : String) (copied : Nat) : Option String → Checked (Option String)
  | none => .ok none
  | some output => do
    let rest ← cut text copied text.utf8ByteSize
    .ok (some (output ++ rest))

def sectionAt (arguments : Arguments) (text : String) (copied counter start stop : Nat) :
    Checked (String × Nat) := do
  let literal ← cut text copied start
  let count ← countKeyless literal
  within (counter + count)
  within (start + 1)
  let content ← cut text (start + 1) stop
  let (kept, counter) ← keepsAt arguments (counter + count) content
  .ok (literal ++ if kept then content else "", counter)

/-- The search goes on at `i`, and the text before `copied` has been dealt with. -/
def rewriteAt (arguments : Arguments) (text : String) (output : Option String)
    (copied counter i : Nat) : Checked (Option String) := do
  let rest ← cut text i text.utf8ByteSize
  match find '[' rest.toList with
  | none => finish text copied output
  | some offset => do
    within (i + offset)
    match ← matchAt (bytesOf text) (i + offset) with
    | none => do
      within (i + offset + 1)
      if _h : i + offset < text.utf8ByteSize then
        rewriteAt arguments text output copied counter (i + offset + 1)
      else .error .stuck
    | some stop => do
      let (left, counter) ← sectionAt arguments text copied counter (i + offset) stop
      within (stop + 1)
      if _h : i ≤ stop ∧ stop < text.utf8ByteSize then
        rewriteAt arguments text (some (output.getD "" ++ left)) (stop + 1) counter (stop + 1)
      else .error .stuck
termination_by text.utf8ByteSize - i

theorem rewriteFrom_passed (arguments : Arguments) (position : Nat) (output : Option (List Char))
    (literal s : List Char) (rest : List Segment) :
    arguments.rewriteFrom position output literal (s.foldr Segment.consLiteral rest) =
      arguments.rewriteFrom position output (literal ++ s) rest := by
  induction s generalizing literal with
  | nil => rw [List.foldr_nil, List.append_nil]
  | cons c s ih =>
    have hc : ∀ segments, arguments.rewriteFrom position output literal
        (Segment.consLiteral c segments) =
          arguments.rewriteFrom position output (literal ++ [c]) segments := by
      intro segments
      rcases segments with _ | ⟨text | content, segments⟩ <;>
        simp [Segment.consLiteral, Arguments.rewriteFrom]
    rw [List.foldr_cons, hc, ih, List.append_assoc, List.singleton_append]

theorem finish_split {text : String} {done rest : List Char} (ht : text.toList = done ++ rest)
    (output : Option (List Char)) :
    finish text (byteSize done) (output.map String.ofList) =
      .ok ((output.map (· ++ rest)).map String.ofList) := by
  have h : At text (byteSize done) rest := ⟨done, ht, rfl⟩
  cases output with
  | none => rfl
  | some output =>
    rw [Option.map_some, finish, h.cut_rest, ok_bind, ← String.ofList_append]
    rfl

section
variable {text : String} (hs : Fits text)
include hs

/-- A part of a text fits as well. -/
theorem fits_part {before middle after : List Char} (ht : text.toList = before ++ middle ++ after) :
    Fits (String.ofList middle) := by
  unfold Fits at hs ⊢
  rw [utf8ByteSize_eq, ht, byteSize_append, byteSize_append] at hs
  rw [utf8ByteSize_ofList]
  omega

omit hs in
theorem positionAfter_le (arguments : Arguments) (position : Nat) (content : List Char) :
    arguments.positionAfter position content ≤ position + byteSize content := by
  have hle := keylessCount_pieces_le content
  rw [Arguments.positionAfter]
  split <;> omega

theorem sectionAt_split (arguments : Arguments) {done literal content rest : List Char}
    (ht : text.toList = done ++ literal ++ ('[' :: content ++ [']']) ++ rest) {counter : Nat}
    (hc : counter ≤ byteSize done) :
    let before := counter + keylessCount (pieces false literal)
    sectionAt arguments text (byteSize done) counter (byteSize (done ++ literal))
        (byteSize (done ++ literal) + byteSize content + 1) =
      .ok (String.ofList (literal ++ arguments.keptContent before content),
        arguments.positionAfter before content) := by
  intro before
  have h1 : '['.utf8Size = 1 := rfl
  have hl : At text (byteSize done) (literal ++ ('[' :: (content ++ ']' :: rest))) :=
    ⟨done, by simp [ht], rfl⟩
  have hcontent : At text (byteSize done + byteSize literal + 1) (content ++ ']' :: rest) :=
    hl.drop.tail
  have hend := hcontent.end_eq
  have hlit := keylessCount_pieces_le literal
  have hcon := keylessCount_pieces_le content
  rw [byteSize_append] at hend
  have hfl : Fits (String.ofList literal) :=
    fits_part hs (show text.toList = done ++ literal ++ ('[' :: content ++ [']'] ++ rest) by
      rw [ht, List.append_assoc])
  have hfc : Fits (String.ofList content) :=
    fits_part hs (show text.toList = (done ++ literal ++ ['[']) ++ content ++ ']' :: rest by
      simp [ht])
  have hk : before + keylessCount (pieces false content) < UInt64.size → _ := fun hlt =>
    keepsAt_eq arguments hfc (by rwa [String.toList_ofList])
  rw [String.toList_ofList] at hk
  have hkept : String.ofList (arguments.keptContent before content) =
      if arguments.keeps before (pieces false content) then String.ofList content else "" := by
    rw [Arguments.keptContent]
    split <;> rfl
  rw [sectionAt, byteSize_append, hl.cut_eq, ok_bind, countKeyless_eq hfl, ok_bind,
    String.toList_ofList, within_of_fits hs (by omega), ok_bind, within_of_fits hs (by omega),
    ok_bind, Nat.add_right_comm _ (byteSize content) 1, hcontent.cut_eq, ok_bind,
    hk (hs.lt_size (by omega)), ok_bind, String.ofList_append, hkept]

omit hs in
theorem getD_append (output : Option (List Char)) (s t : List Char) :
    (output.map String.ofList).getD "" ++ String.ofList (s ++ t) =
      String.ofList (output.getD [] ++ s ++ t) := by
  cases output <;> simp [String.ofList_append]

omit hs in
theorem byteSize_section (before content : List Char) :
    byteSize (before ++ ('[' :: content ++ [']'])) =
      byteSize before + byteSize content + 1 + 1 := by
  have h1 : '['.utf8Size = 1 := rfl
  have h2 : ']'.utf8Size = 1 := rfl
  simp only [byteSize_append, byteSize, List.cons_append, h1, h2]
  omega

/-- A bracket that opens nothing is passed, a section is dealt with, and the search goes on behind
them. -/
theorem rewriteAt_found (arguments : Arguments) (output : Option String) (copied counter : Nat)
    {before s r : List Char} (ht : text.toList = before ++ (s ++ '[' :: r))
    (hf : find '[' (s ++ '[' :: r) = some (byteSize s)) :
    rewriteAt arguments text output copied counter (byteSize before) =
      match openSection (endsIn '[' false (before ++ s)) ('[' :: r) with
      | none => rewriteAt arguments text output copied counter (byteSize (before ++ s ++ ['[']))
      | some (content, _) => (do
        let behind := byteSize (before ++ s ++ ('[' :: content ++ [']']))
        let (left, counter) ← sectionAt arguments text copied counter (byteSize (before ++ s))
          (byteSize (before ++ s) + byteSize content + 1)
        rewriteAt arguments text (some (output.getD "" ++ left)) behind counter behind) := by
  have h : At text (byteSize before) (s ++ '[' :: r) := ⟨before, ht, rfl⟩
  have ht' : text.toList = before ++ s ++ '[' :: r := by rw [ht, List.append_assoc]
  have hm := matchSection_utf8 (before ++ s) ('[' :: r)
  have hend := h.drop.end_eq
  rw [← byteSize_append] at hend
  rw [← ht'] at hm
  rw [rewriteAt, h.cut_rest, ok_bind, String.toList_ofList, hf]
  dsimp only
  rw [← byteSize_append, within_of_fits hs (by omega), ok_bind,
    matchAt_eq (by rw [length_bytesOf]; exact hs.lt_size (Nat.le_refl _)), hm, ok_bind]
  cases ho : openSection (endsIn '[' false (before ++ s)) ('[' :: r) with
  | none =>
    have hpos : 0 < byteSize ('[' :: r) := byteSize_pos (List.cons_ne_nil _ _)
    have hsize : byteSize (before ++ s ++ ['[']) = byteSize (before ++ s) + 1 := byteSize_append _ _
    simp only [Option.map_none]
    rw [hsize, within_of_fits hs (by omega), ok_bind, dif_pos (by omega)]
  | some found =>
    obtain ⟨content, left⟩ := found
    have hgrow : byteSize (before ++ s) = byteSize before + byteSize s := byteSize_append _ _
    have hw : At text (byteSize (before ++ s ++ ('[' :: content ++ [']']))) left := by
      refine ⟨_, ?_, rfl⟩
      rw [ht', ← openSection_append ho]
      simp
    have hend' := hw.end_eq
    rw [byteSize_section] at hend'
    simp only [Option.map_some]
    congr 1
    funext ⟨left, counter⟩
    dsimp only
    rw [within_of_fits hs (by omega), ok_bind, dif_pos (by omega), byteSize_section]

/-- The counter stays below the number of bytes that have been copied. -/
theorem rewriteAt_split (arguments : Arguments) {done literal rest : List Char}
    (ht : text.toList = done ++ literal ++ rest) {counter : Nat} (hc : counter ≤ byteSize done)
    (output : Option (List Char)) :
    rewriteAt arguments text (output.map String.ofList) (byteSize done) counter
        (byteSize (done ++ literal)) =
      .ok ((arguments.rewriteFrom counter output literal
        (segments (endsIn '[' false (done ++ literal)) rest)).map String.ofList) := by
  induction hn : rest.length using Nat.strong_induction_on
    generalizing done literal rest counter output with
  | _ n ih =>
    cases hf : find '[' rest with
    | none =>
      have h : At text (byteSize (done ++ literal)) rest := ⟨_, ht, rfl⟩
      have hp := segments_plain (endsIn '[' false (done ++ literal)) (find_eq_none hf) []
      rw [List.append_nil, segments_nil] at hp
      rw [rewriteAt, h.cut_rest, ok_bind, String.toList_ofList, hf, hp, rewriteFrom_passed]
      exact finish_split (by rw [ht, List.append_assoc]) output
    | some offset =>
      obtain ⟨s, r, rfl, hb, rfl⟩ := find_eq_some hf
      rw [rewriteAt_found hs arguments _ _ _ ht hf, segments_plain _ hb, rewriteFrom_passed,
        ← endsIn_append]
      cases ho : openSection (endsIn '[' false (done ++ literal ++ s)) ('[' :: r) with
      | none =>
        -- the bracket opens nothing and becomes literal text
        have hfront : done ++ (literal ++ s ++ ['[']) = done ++ literal ++ s ++ ['['] := by
          simp only [List.append_assoc]
        have hi := ih r.length (by rw [← hn, List.length_append, List.length_cons]; omega)
          (show text.toList = done ++ (literal ++ s ++ ['[']) ++ r by simp [ht]) hc output rfl
        rw [hfront, endsIn_concat] at hi
        have hl := rewriteFrom_passed arguments counter output (literal ++ s) ['[']
          (segments true r)
        rw [segments_of_openSection_eq_none ho]
        exact hi.trans (congrArg (fun x => Except.ok (Option.map String.ofList x)) hl.symm)
      | some found =>
        obtain ⟨content, left⟩ := found
        have hw : text.toList = done ++ (literal ++ s) ++ ('[' :: content ++ [']']) ++ left := by
          rw [ht, ← openSection_append ho]
          simp
        have hlen : left.length < n := by
          have hl := length_lt_of_openSection ho
          rw [List.length_append] at hn
          omega
        -- every placeholder takes up a byte, so that the counter is never ahead of the offset
        have hafter : arguments.positionAfter
            (counter + keylessCount (pieces false (literal ++ s))) content ≤
              byteSize (done ++ (literal ++ s) ++ ('[' :: content ++ [']'])) := by
          have hle := positionAfter_le arguments
            (counter + keylessCount (pieces false (literal ++ s))) content
          have hlit := keylessCount_pieces_le (literal ++ s)
          rw [byteSize_section, byteSize_append]
          omega
        have hflag : endsIn '[' false (done ++ (literal ++ s) ++ ('[' :: content ++ [']'])) =
            false := by
          rw [← List.append_assoc, endsIn_concat]
          rfl
        have hi := ih left.length hlen
          (show text.toList = done ++ (literal ++ s) ++ ('[' :: content ++ [']']) ++ [] ++ left by
            rw [hw, List.append_nil]) hafter
          (some (output.getD [] ++ (literal ++ s) ++ arguments.keptContent
            (counter + keylessCount (pieces false (literal ++ s))) content)) rfl
        rw [List.append_nil, hflag] at hi
        dsimp only
        rw [segments_of_openSection_eq_some ho, rewriteFrom_bracketed, List.append_assoc done,
          sectionAt_split hs arguments hw hc, ok_bind]
        dsimp only
        rw [getD_append]
        exact hi

/-- The pattern is made into the text that its sections leave of it. -/
theorem rewriteAt_zero (arguments : Arguments) :
    rewriteAt arguments text none 0 0 0 =
      .ok ((arguments.rewriteSections? text.toList).map String.ofList) := by
  have ht : text.toList = [] ++ [] ++ text.toList := rfl
  exact rewriteAt_split hs arguments ht (Nat.le_refl 0) none

end

end MessagePattern.Offsets
