import MessagePattern.Proofs.Filling
import MessagePattern.Proofs.Seams
import MessagePattern.Proofs.TemplateReading

/-!
# Numbered placeholders

A placeholder without a key stands for one whose key is its number. Writing the
numbers into a text changes neither what is found in it nor how it is filled: a
number is put inside a placeholder, and a brace that opened nothing before
opens nothing now, since what it lacks cannot be supplied by a key.
-/

set_option autoImplicit false

namespace MessagePattern
open Placeholder

def Token.keyPlace (t : Token) : Nat := t.start + byteSize ('{' :: signText t.placeholder.plus)

def numbers (position : Nat) : List Token → List Replacement
  | [] => []
  | t :: ts =>
    if t.placeholder.key.isNone then
      ⟨t.keyPlace, t.keyPlace, (Key.ofNat position).display⟩ :: numbers (position + 1) ts
    else numbers position ts

def numbered (text : String) : String := splice text 0 (numbers 0 (tokens text))

def Placeholder.keyedAt (p : Placeholder) (position : Nat) : Placeholder :=
  { p with key := some (p.keyAt position) }

def keyedPieces (position : Nat) : List Piece → List Piece
  | [] => []
  | .char c :: ps => .char c :: keyedPieces position ps
  | .token p :: ps => .token (p.keyedAt position) :: keyedPieces (p.advance position) ps

theorem keyedAt_of_some {p : Placeholder} {key : Key} (h : p.key = some key) (position : Nat) :
    p.keyedAt position = p := by
  have hk : p.keyAt position = key := by rw [keyAt, h, Option.getD_some]
  rw [keyedAt, hk, ← h]

/-- The key of a placeholder stands behind its brace and its plus. -/
theorem exists_write (p : Placeholder) : ∃ tail, ∀ key : Option Key,
    { p with key := key }.write = '{' :: signText p.plus ++ writeKey key ++ tail := by
  exact ⟨writeDecimals p.decimals ++ writeStyle p.style ++ writeConjunction p.conjunction ++
    '}' :: markText p.optional, fun key => by simp [write, signText, markText]⟩

theorem splice_insert (done kept rest : List Char) (new : String) (rs : List Replacement) :
    splice (String.ofList (done ++ kept ++ rest)) (byteSize done)
        (⟨byteSize (done ++ kept), byteSize (done ++ kept), new⟩ :: rs) =
      String.ofList kept ++ new ++
        splice (String.ofList (done ++ kept ++ rest)) (byteSize (done ++ kept)) rs := by
  have hs := splice_cons done kept [] rest new rs
  rwa [List.append_nil] at hs

/-- `pending` has been passed since the last number and is not yet copied. -/
theorem splice_numbers (done pending : List Char) (position : Nat) (ps : List Piece) :
    splice (String.ofList (done ++ pending ++ written ps)) (byteSize done)
        (numbers position (tokensFrom (byteSize (done ++ pending)) ps)) =
      String.ofList (pending ++ written (keyedPieces position ps)) := by
  induction ps generalizing done pending position with
  | nil =>
    have hs := splice_nil done pending
    simpa [written, tokensFrom, numbers, keyedPieces] using hs
  | cons piece ps ih =>
    cases piece with
    | char c =>
      have hi := ih done (pending ++ [c]) position
      have hc : byteSize (done ++ (pending ++ [c])) = byteSize (done ++ pending) + c.utf8Size := by
        simp [byteSize_append, byteSize, Nat.add_assoc]
      rw [hc] at hi
      simpa [written, tokensFrom, keyedPieces, Piece.write] using hi
    | token p =>
      have hstop : byteSize (done ++ pending ++ p.write) =
          byteSize (done ++ pending) + byteSize p.write := byteSize_append _ _
      have hw : written (.token p :: ps) = p.write ++ written ps := rfl
      have hk : written (keyedPieces position (.token p :: ps)) =
          (p.keyedAt position).write ++ written (keyedPieces (p.advance position) ps) := rfl
      rw [tokensFrom, ← hstop, numbers, hw, hk]
      cases hkey : p.key with
      | some key =>
        have hi := ih done (pending ++ p.write) (p.advance position)
        rw [keyedAt_of_some hkey]
        simpa [hkey, advance] using hi
      | none =>
        -- the number goes between the `front` and the `tail` of the placeholder
        obtain ⟨tail, htail⟩ := exists_write p
        obtain ⟨front, hfront⟩ : ∃ front, front = '{' :: signText p.plus := ⟨_, rfl⟩
        have hp : p.write = front ++ tail := by
          simpa [← hkey, writeKey, hfront] using htail none
        have hn : (p.keyedAt position).write =
            front ++ (Key.ofNat position).write ++ tail := by
          rw [hfront]
          have hat : p.keyAt position = .ofNat position := by rw [keyAt, hkey, Option.getD_none]
          exact hat ▸ htail (some (p.keyAt position))
        have ha : p.advance position = position + 1 := by simp [advance, hkey]
        have hplace : Token.keyPlace ⟨byteSize (done ++ pending),
            byteSize (done ++ pending ++ p.write), p⟩ = byteSize (done ++ (pending ++ front)) := by
          rw [Token.keyPlace, hfront, ← byteSize_append, List.append_assoc]
        have hi := ih (done ++ (pending ++ front)) tail (position + 1)
        have hend : done ++ (pending ++ front) ++ tail = done ++ pending ++ p.write := by
          simp [hp]
        have htext : done ++ pending ++ (p.write ++ written ps) =
            done ++ (pending ++ front) ++ (tail ++ written ps) := by
          simp [hp]
        rw [if_pos Option.isNone_none, hplace, htext, splice_insert, ← List.append_assoc, ← hend,
          hi, ha, hn, Key.display]
        simp [← String.ofList_append]

theorem toList_numbered (text : String) :
    (numbered text).toList = written (keyedPieces 0 (pieces false text.toList)) := by
  have hs := splice_numbers [] [] 0 (pieces false text.toList)
  rw [written_pieces, List.nil_append, List.nil_append, List.nil_append, String.ofList_toList] at hs
  exact (congrArg String.toList hs).trans String.toList_ofList

/-- What follows a placeholder matters by how it begins. -/
theorem reads_next {taken rest rest' : List Char} {p : Placeholder} (h : Reads taken rest p)
    (hh : rest'.head? = rest.head?) (hm : Marked rest' ↔ Marked rest) : Reads taken rest' p := by
  obtain ⟨key, decimals, style, conjunction, ht, hk, hd, hs, hc, hn, ho⟩ := h
  have hclosed := (closed_iff p.optional rest).mp ⟨hn, ho⟩
  rw [← hh, ← hm] at hclosed
  obtain ⟨hn', ho'⟩ := (closed_iff p.optional rest').mpr hclosed
  exact ⟨key, decimals, style, conjunction, ht, hk, hd, hs, hc, hn', ho'⟩

theorem reads_keyedAt {taken rest : List Char} {p : Placeholder} (h : Reads taken rest p)
    (position : Nat) : Reads (p.keyedAt position).write rest (p.keyedAt position) := by
  cases hkey : p.key with
  | some key =>
    rw [keyedAt_of_some hkey, ← reads_write h]
    exact h
  | none =>
    obtain ⟨key, decimals, style, conjunction, -, -, hd, hs, hc, hn, ho⟩ := h
    have hat : p.keyAt position = .ofNat position := by rw [keyAt, hkey, Option.getD_none]
    have hk : KeyText (writeKey (some (p.keyAt position))) (some (p.keyAt position)) := by
      rw [hat]
      exact Template.keyText_writeKey rfl
    refine ⟨_, decimals, style, conjunction, ?_, hk, hd, hs, hc, hn, ho⟩
    rw [decimals_text_write hd, style_text_write hs, conjunction_text_write hc]
    simp [write, keyedAt, signText, markText, writeKey]

theorem head_keyedPieces (position : Nat) (ps : List Piece) :
    (written (keyedPieces position ps)).head? = (written ps).head? := by
  cases ps with
  | nil => rfl
  | cons piece ps =>
    cases piece with
    | char c => rfl
    | token p => rfl

theorem marked_keyedPieces (position : Nat) (afterBrace : Bool) (text : List Char) :
    Marked (written (keyedPieces position (pieces afterBrace text))) ↔ Marked text := by
  cases hp : pieces afterBrace text with
  | nil =>
    have hw := written_pieces afterBrace text
    rw [hp] at hw
    rw [← hw]
    rfl
  | cons piece ps =>
    have hw := written_pieces afterBrace text
    rw [hp] at hw
    rw [← hw]
    cases piece with
    | char c =>
      show Marked (c :: written (keyedPieces position ps)) ↔ Marked (c :: written ps)
      rw [marked_cons, marked_cons, head_keyedPieces]
    | token p =>
      apply iff_of_false
      · rintro ⟨r, hr, -⟩
        cases hr
      · rintro ⟨r, hr, -⟩
        cases hr

theorem open_keyedAt {afterBrace : Bool} {text rest : List Char} {p : Placeholder}
    (h : open? afterBrace text = some (p, rest)) (position next : Nat) :
    open? afterBrace
        ((p.keyedAt position).write ++ written (keyedPieces next (pieces false rest))) =
      some (p.keyedAt position, written (keyedPieces next (pieces false rest))) := by
  obtain ⟨hf, taken, -, hr⟩ := (open_iff_reads _ _ _ _).mp h
  have hh : (written (keyedPieces next (pieces false rest))).head? = rest.head? := by
    rw [head_keyedPieces, written_pieces]
  apply (open_iff_reads _ _ _ _).mpr
  exact ⟨hf, _, rfl, reads_next (reads_keyedAt hr position) hh (marked_keyedPieces next false rest)⟩

theorem units_append {s t : List Char} (hs : Units s) (ht : Units t) : Units (s ++ t) := by
  induction hs with
  | nil => exact ht
  | char hc _ ih => exact .char hc ih
  | pair _ ih => exact .pair ih

/-- Whole units before an opening brace are whole units by themselves. -/
theorem units_before {s t u : List Char} (h : Units u) (he : u = s ++ '{' :: t) : Units s := by
  induction h generalizing s with
  | nil => simp at he
  | char hc _ ih =>
    cases s with
    | nil => exact .nil
    | cons d s =>
      obtain ⟨rfl, hs⟩ := List.cons.inj he
      exact .char hc (ih hs)
  | pair _ ih =>
    match s with
    | [] => exact .nil
    | [d] =>
      cases (List.cons.inj (List.cons.inj he).2).1
    | d :: d' :: s =>
      obtain ⟨rfl, hs⟩ := List.cons.inj he
      obtain ⟨rfl, hr⟩ := List.cons.inj hs
      exact .pair (ih hr)

/-- What may follow a closing brace is a question mark and the rest, or the rest. -/
theorem exists_mark {next : List Char} (h : next.head? ≠ some '}') :
    ∃ optional rest, next = markText optional ++ rest ∧
      (markText optional ++ rest).head? ≠ some '}' ∧
      (optional = true ↔ Marked (markText optional ++ rest)) := by
  by_cases hm : Marked next
  · obtain ⟨r, rfl, hr⟩ := hm
    exact ⟨true, r, rfl, by simp [markText], iff_of_true rfl ⟨r, rfl, hr⟩⟩
  · exact ⟨false, next, rfl, h, iff_of_false (by simp) hm⟩

theorem key_text_braceless {text : List Char} {key : Option Key} (h : KeyText text key) :
    '{' ∉ text ∧ '}' ∉ text := by
  cases h with
  | missing => exact ⟨List.not_mem_nil, List.not_mem_nil⟩
  | given _ hk =>
    exact ⟨fun hm => absurd (hk '{' hm) (by decide), fun hm => absurd (hk '}' hm) (by decide)⟩

theorem decimals_text_braceless {text : List Char} {decimals : Option UInt64}
    (h : DecimalsText text decimals) : '{' ∉ text ∧ '}' ∉ text := by
  cases h with
  | missing => exact ⟨List.not_mem_nil, List.not_mem_nil⟩
  | @given c digits n hc _ hd _ =>
    have hall : ∀ d ∈ '.' :: c :: digits, d = '.' ∨ d.isDigit = true := by
      intro d hm
      rcases List.mem_cons.mp hm with rfl | hm
      · exact .inl rfl
      · rcases List.mem_cons.mp hm with rfl | hm
        · exact .inr hc
        · exact .inr (hd d hm)
    exact ⟨fun hm => absurd (hall _ hm) (by decide), fun hm => absurd (hall _ hm) (by decide)⟩

theorem style_text_braceless {text : List Char} {style : Option Style} (h : StyleText text style) :
    '{' ∉ text ∧ '}' ∉ text := by
  cases h with
  | missing => exact ⟨List.not_mem_nil, List.not_mem_nil⟩
  | given style => cases style <;> decide

theorem units_conjunction {text : List Char} {conjunction : Option String}
    (h : ConjunctionText text conjunction) : Units text := by
  cases h with
  | missing => exact .nil
  | given _ hu => exact .char (by decide) hu

/-- Behind an opening brace a conjunction may go on in another way. -/
theorem conjunction_text_cut {text before after body : List Char} {conjunction : Option String}
    (h : ConjunctionText text conjunction) (he : text = before ++ '{' :: after)
    (hb : Units body) : ∃ other, ConjunctionText (before ++ '{' :: body) other := by
  cases h with
  | missing => simp at he
  | @given word hw hu =>
    cases before with
    | nil => cases (List.cons.inj he).1
    | cons c before =>
      obtain ⟨rfl, hword⟩ := List.cons.inj he
      exact ⟨_, .given (by simp) (units_append (units_before hu hword) (.char (by decide) hb))⟩

/-- The braces of a placeholder stand at its ends and in its conjunction, in front of which
it may go on in another way. -/
theorem reads_ends {taken rest : List Char} {p : Placeholder} (h : Reads taken rest p) :
    ∃ front back, taken = '{' :: (front ++ (back ++ '}' :: markText p.optional)) ∧
      '{' ∉ front ∧ '}' ∉ front ∧ ConjunctionText back p.conjunction ∧
      ∀ other conjunction next, ConjunctionText other conjunction → next.head? ≠ some '}' →
        ∃ found, scan? ('{' :: (front ++ (other ++ '}' :: next))) = some found := by
  obtain ⟨key, decimals, style, back, ht, hk, hd, hs, hc, -, -⟩ := h
  have hk' := key_text_braceless hk
  have hd' := decimals_text_braceless hd
  have hs' := style_text_braceless hs
  have hp : '{' ∉ signText p.plus ∧ '}' ∉ signText p.plus := by cases p.plus <;> decide
  refine ⟨signText p.plus ++ (key ++ (decimals ++ style)), back, by simpa using ht,
    by simp [hp, hk', hd', hs'], by simp [hp, hk', hd', hs'], hc, ?_⟩
  intro other conjunction next ho hn
  obtain ⟨optional, rest, rfl, hh, hm⟩ := exists_mark hn
  have hr : Reads _ rest { p with conjunction := conjunction, optional := optional } :=
    ⟨key, decimals, style, other, rfl, hk, hd, hs, ho, hh, hm⟩
  have hscan := scan_reads hr
  exact ⟨_, by simpa using hscan⟩

/-- Behind its opening brace a placeholder runs on to a single closing one. -/
theorem reads_closes {taken rest : List Char} {p : Placeholder} (h : Reads taken rest p) :
    ∃ body next, taken ++ rest = '{' :: (body ++ '}' :: next) ∧ Units body ∧
      next.head? ≠ some '}' := by
  obtain ⟨front, back, ht, -, hclosing, hc, -⟩ := reads_ends h
  obtain ⟨-, -, -, -, -, -, -, -, -, hn, -⟩ := h
  refine ⟨front ++ back, markText p.optional ++ rest, ?_, ?_, hn⟩
  · simp [ht]
  · exact units_append (Template.units_of_not_mem hclosing) (units_conjunction hc)

/-- A brace that opens a placeholder before another brace does so whatever is behind that one,
if only a single closing brace comes. -/
theorem opens_alike {taken rest before after body next : List Char} {p : Placeholder}
    (h : Reads taken rest p) (he : taken ++ rest = '{' :: (before ++ '{' :: after))
    (hb : Units body) (hn : next.head? ≠ some '}') :
    ∃ found, scan? ('{' :: (before ++ '{' :: (body ++ '}' :: next))) = some found := by
  obtain ⟨front, back, rfl, hopening, -, hc, hscan⟩ := reads_ends h
  obtain ⟨-, -, -, -, -, -, -, -, -, hh, -⟩ := h
  have hsplit : front ++ (back ++ '}' :: (markText p.optional ++ rest)) =
      before ++ '{' :: after := by
    simpa using he
  obtain ⟨middle, rfl, hm⟩ : ∃ middle, before = front ++ middle ∧
      back ++ '}' :: (markText p.optional ++ rest) = middle ++ '{' :: after := by
    rcases List.append_eq_append_iff.mp hsplit with ⟨m, hm, hr⟩ | ⟨m, hm, hr⟩
    · exact ⟨m, hm, hr⟩
    · cases m with
      | nil => exact ⟨[], by simpa using hm.symm, by simpa using hr.symm⟩
      | cons c m =>
        cases (List.cons.inj hr).1
        exact absurd (by rw [hm]; simp) hopening
  rcases List.append_eq_append_iff.mp hm with ⟨m, rfl, hr⟩ | ⟨m, hback, hr⟩
  · -- the placeholder is closed before the other brace
    cases m with
    | nil => cases (List.cons.inj hr).1
    | cons c m =>
      obtain ⟨rfl, hrest⟩ := List.cons.inj hr
      have hhead : (m ++ '{' :: (body ++ '}' :: next)).head? ≠ some '}' := by
        rw [show _ = _ from hrest] at hh
        cases m with
        | nil => simp
        | cons d m => exact hh
      have hs := hscan back p.conjunction _ hc hhead
      simpa using hs
  · -- the other brace stands in the conjunction
    cases m with
    | nil => cases (List.cons.inj hr).1
    | cons c m =>
      cases (List.cons.inj hr).1
      obtain ⟨other, ho⟩ := conjunction_text_cut hc hback hb
      have hs := hscan _ other next ho hn
      simpa using hs

/-- Up to the first placeholder nothing is written into a text. -/
theorem keyedPieces_cases (position : Nat) (ps : List Piece) :
    keyedPieces position ps = ps ∨ ∃ (before : List Char) (p : Placeholder) (qs : List Piece),
      ps = before.map Piece.char ++ .token p :: qs ∧
      ∃ next, keyedPieces position ps =
        before.map Piece.char ++ .token (p.keyedAt position) :: keyedPieces next qs := by
  induction ps with
  | nil => exact .inl rfl
  | cons piece ps ih =>
    cases piece with
    | char c =>
      rcases ih with he | ⟨before, p, qs, rfl, next, he⟩
      · exact .inl (congrArg (List.cons _) he)
      · exact .inr ⟨c :: before, p, qs, rfl, next, congrArg (List.cons _) he⟩
    | token p => exact .inr ⟨[], p, ps, rfl, p.advance position, rfl⟩

theorem written_chars (text : List Char) : written (text.map Piece.char) = text := by
  rw [written, List.flatMap_map]
  exact List.flatMap_singleton' text

theorem open_keyedPieces {afterBrace : Bool} {c : Char} {r : List Char}
    (h : open? afterBrace (c :: r) = none) (position : Nat) :
    open? afterBrace (c :: written (keyedPieces position (pieces (c == '{') r))) = none := by
  by_contra hn
  obtain ⟨⟨q, rest⟩, ho⟩ := Option.ne_none_iff_exists'.mp hn
  obtain ⟨rfl, taken, he, hr⟩ := (open_iff_reads _ _ _ _).mp ho
  have hw := written_pieces (c == '{') r
  rcases keyedPieces_cases position (pieces (c == '{') r) with hk | ⟨before, p, qs, hp, next, hk⟩
  · rw [hk, hw, h] at ho
    cases ho
  · rw [hp] at hw
    have hq : pieces (c == '{') (written (before.map Piece.char) ++ (p.write ++ written qs)) =
        before.map Piece.char ++ .token p :: qs := by
      rw [← hp, ← hw, written_append]
      rfl
    obtain ⟨rest', ho', -⟩ := pieces_token (pieces_behind hq).symm
    have hrest := List.append_cancel_left (write_append_of_open? ho')
    obtain ⟨-, taken', ht', hr'⟩ := (open_iff_reads _ _ _ _).mp ho'
    obtain ⟨body, tail, hclose, hbody, htail⟩ := reads_closes hr'
    obtain ⟨after, hafter⟩ : ∃ after, c :: written (keyedPieces position (pieces (c == '{') r)) =
        c :: (before ++ '{' :: after) := by
      rw [hk, written_append, written_chars]
      exact ⟨_, rfl⟩
    have hc : c = '{' := by
      obtain ⟨key, decimals, style, conjunction, htaken, -⟩ := hr
      rw [htaken] at he
      exact (List.cons.inj he).1
    have htext : r = before ++ '{' :: (body ++ '}' :: tail) := by
      rw [← hw, ← hclose, ← ht', written_append, written_chars]
      rfl
    rw [hafter, hc] at he
    obtain ⟨found, hf⟩ := opens_alike hr he.symm hbody htail
    rw [htext, hc, open?, if_neg (by decide), hf] at h
    cases h

/-- With the keys written in it, a text has the pieces that it had. -/
theorem pieces_keyedPieces (position : Nat) (afterBrace : Bool) (text : List Char) :
    pieces afterBrace (written (keyedPieces position (pieces afterBrace text))) =
      keyedPieces position (pieces afterBrace text) := by
  fun_induction pieces afterBrace text generalizing position with
  | case1 => exact pieces_nil _
  | case2 afterBrace c r p rest h ih =>
    have ho := pieces_of_open?_eq_some (open_keyedAt h position (p.advance position))
    rw [ih] at ho
    exact ho
  | case3 afterBrace c r h ih =>
    have ho := pieces_of_open?_eq_none (open_keyedPieces h position)
    rw [ih] at ho
    exact ho

theorem pieces_numbered (text : String) :
    pieces false (numbered text).toList = keyedPieces 0 (pieces false text.toList) := by
  rw [toList_numbered, pieces_keyedPieces]

theorem keyed_keyedPieces (position next : Nat) (ps : List Piece) :
    keyed next (keyedPieces position ps) =
      (keyed position ps).map fun e => ({ e.1 with key := some e.2 }, e.2) := by
  induction ps generalizing position next with
  | nil => rfl
  | cons piece ps ih =>
    cases piece with
    | char c => exact ih position next
    | token p => exact congrArg (List.cons _) (ih _ _)

/-- A placeholder with its key in it is filled as it is under that key. -/
theorem fillPieces_keyedPieces (arguments : Arguments) (options : Options) (position next : Nat)
    (ps : List Piece) :
    arguments.fillPieces options next (keyedPieces position ps) =
      arguments.fillPieces options position ps := by
  induction ps generalizing position next with
  | nil => rfl
  | cons piece ps ih =>
    cases piece with
    | char c => rw [keyedPieces, Arguments.fillPieces, Arguments.fillPieces, ih]
    | token p =>
      rw [keyedPieces, Arguments.fillPieces, Arguments.fillPieces, ih]
      rfl

/-- With the numbers of the keyless placeholders written into it, a text has the same
placeholders, now all with a key, and it is filled in the same way. -/
theorem numbered_alike (text : String) (arguments : Arguments) (options : Options) :
    let ts := tokens text
    let ts' := tokens (numbered text)
    (∀ n, n < UInt64.size → (Key.ofNat n).display = toString n) ∧
      ts'.length = ts.length ∧
      (∀ (i : Nat) t, ts[i]? = some t → ∃ t', ts'[i]? = some t' ∧
        t'.placeholder = { t.placeholder with key := some (t.key 0 (ts.take i)) }) ∧
      arguments.fillPieces options 0 (pieces false (numbered text).toList) =
        arguments.fillPieces options 0 (pieces false text.toList) := by
  intro ts ts'
  have hk : keyed 0 (pieces false (numbered text).toList) =
      (keyed 0 (pieces false text.toList)).map fun e => ({ e.1 with key := some e.2 }, e.2) := by
    rw [pieces_numbered, keyed_keyedPieces]
  refine ⟨?_, ?_, ?_, ?_⟩
  · intro n hn
    rw [Key.display, Key.ofNat, Key.write, writeDigits, UInt64.toNat_ofNat_of_lt' hn]
    rfl
  · show (tokensFrom 0 _).length = (tokensFrom 0 _).length
    rw [← length_keyed 0 0, ← length_keyed 0 0, hk, List.length_map]
  · intro i t ht
    have he := getElem_keyed 0 0 (pieces false (numbered text).toList) i
    have hold := getElem_keyed 0 0 (pieces false text.toList) i
    rw [show (tokensFrom 0 (pieces false text.toList))[i]? = some t from ht] at hold
    rw [hk, List.getElem?_map, hold] at he
    obtain ⟨t', ht', hp⟩ := Option.map_eq_some_iff.mp he.symm
    exact ⟨t', ht', (Prod.mk.inj hp).1⟩
  · rw [pieces_numbered, fillPieces_keyedPieces]

-- The plus stays in front of the number, and a doubled brace is not counted.
example : (numbered "\x7b\x7b\x7d \x7b+.2\x7d\x7b\x7d").toList =
    "\x7b\x7b\x7d \x7b+0.2\x7d\x7b1\x7d".toList := by
  rw [toList_numbered]
  decide +kernel

end MessagePattern
