import MessagePattern.Proofs.Escaping
import MessagePattern.Proofs.Offsets
import MessagePattern.Proofs.Readings

/-!
# Placeholders by their offsets

A placeholder is read from a byte of a text on, part by part, each of which
ends at an offset where the next one begins. The parts are those that are taken
from the front of the text behind the offset, so that no offset lies inside a
character.
-/

set_option autoImplicit false

namespace MessagePattern.Offsets
open Placeholder

def plusAt (bytes : List UInt8) (i : Nat) : Checked (Bool × Nat) :=
  if peek bytes i = some '+' then do
    within (i + 1)
    .ok (true, i + 1)
  else .ok (false, i)

def keyAt (text : String) (i : Nat) : Checked (Option Key × Nat) := do
  let stop ← skipWhile isKeyChar (bytesOf text) i
  if i < stop then
    let name ← cut text i stop
    .ok (some (Key.parse name), stop)
  else .ok (none, stop)

def isLeadingDigit (c : Char) : Bool := c.isDigit && c != '0'

def decimalsAt (text : String) (i : Nat) : Checked (Option (Option UInt64 × Nat)) :=
  if peek (bytesOf text) i = some '.' then do
    within (i + 1)
    if (peek (bytesOf text) (i + 1)).any isLeadingDigit then
      let stop ← skipWhile Char.isDigit (bytesOf text) (i + 1)
      let digits ← cut text (i + 1) stop
      .ok ((readDigits digits.toList).map fun n => (some n, stop))
    else .ok (some (none, i))
  else .ok (some (none, i))

def styleAt (bytes : List UInt8) (i : Nat) : Checked (Option Style × Nat) :=
  if peek bytes i = some '#' then do
    within (i + 1)
    match (peek bytes (i + 1)).bind Style.ofLetter? with
    | some style =>
      within (i + 2)
      .ok (some style, i + 2)
    | none => .ok (none, i)
  else .ok (none, i)

def braceFrom (bytes : List UInt8) (i : Nat) : Checked Nat :=
  match _h : peek bytes i with
  | none => .ok i
  | some c =>
    if c = '}' then do
      within (i + 1)
      if peek bytes (i + 1) = some '}' then
        within (i + 2)
        braceFrom bytes (i + 2)
      else .ok i
    else do
      within (i + 1)
      braceFrom bytes (i + 1)
termination_by bytes.length - i
decreasing_by
  all_goals
    have hlt := lt_of_peek _h
    omega

def conjunctionAt (text : String) (i : Nat) : Checked (Option (Option String × Nat)) :=
  if peek (bytesOf text) i = some ':' then do
    within (i + 1)
    let stop ← braceFrom (bytesOf text) (i + 1)
    if stop = i + 1 ∨ stop = (bytesOf text).length then .ok none
    else
      let word ← cut text (i + 1) stop
      .ok (some (some word, stop))
  else .ok (some (none, i))

def closeAt (bytes : List UInt8) (i : Nat) : Checked (Option (Bool × Nat)) :=
  if peek bytes i = some '}' then do
    within (i + 1)
    if peek bytes (i + 1) = some '}' then .ok none
    else if peek bytes (i + 1) = some '?' then
      within (i + 2)
      if peek bytes (i + 2) = some '}' then .ok (some (false, i + 1))
      else .ok (some (true, i + 2))
    else .ok (some (false, i + 1))
  else .ok none

def bodyAt (text : String) (i : Nat) : Checked (Option (Placeholder × Nat)) := do
  let (plus, i) ← plusAt (bytesOf text) i
  let (key, i) ← keyAt text i
  match ← decimalsAt text i with
  | none => .ok none
  | some (decimals, i) => do
    let (style, i) ← styleAt (bytesOf text) i
    match ← conjunctionAt text i with
    | none => .ok none
    | some (conjunction, i) => do
      match ← closeAt (bytesOf text) i with
      | none => .ok none
      | some (mark, i) =>
        .ok (some ({ plus, key, decimals, style, conjunction, optional := mark }, i))

def followsOn (c : Char) (bytes : List UInt8) : Nat → Checked Bool
  | 0 => .ok false
  | before + 1 => do
    let b ← byteAt bytes before
    .ok (Char.ofUInt8 b == c)

def parseAt (text : String) (start : Nat) : Checked (Option (Placeholder × Nat)) :=
  if peek (bytesOf text) start = some '{' then do
    if ← followsOn '{' (bytesOf text) start then .ok none
    else
      within (start + 1)
      bodyAt text (start + 1)
  else .ok none

inductive Follows {α : Type} (text : String) :
    Checked (Option (α × Nat)) → Option (α × List Char) → Prop
  | none : Follows text (.ok none) none
  | some {a : α} {i : Nat} {rest : List Char} (h : At text i rest) :
      Follows text (.ok (some (a, i))) (some (a, rest))

theorem isDigit_eq_false {c : Char} (hc : 0x80 ≤ c.toNat) : c.isDigit = false := by
  rw [← Bool.not_eq_true, Char.isDigit_iff_toNat]
  have : '9'.toNat = 57 := rfl
  omega

theorem isKeyChar_eq_false {c : Char} (hc : 0x80 ≤ c.toNat) : isKeyChar c = false := by
  have hle : ∀ d : Char, d.toNat < 0x80 → ¬ c.val ≤ d.val := by
    intro d hd h
    have hn : c.toNat ≤ d.toNat := UInt32.le_iff_toNat_le.mp h
    omega
  have hu : c.isUpper = false := decide_eq_false fun h => hle 'Z' (by decide) h.2
  have hl : c.isLower = false :=
    Bool.and_eq_false_iff.mpr (.inr (decide_eq_false (hle 'z' (by decide))))
  have hn : c.isAlphanum = (c.isUpper || c.isLower || c.isDigit) := rfl
  rw [isKeyChar, beq_ascii (by decide) hc, beq_ascii (by decide) hc, hn, hu, hl,
    isDigit_eq_false hc]
  rfl

theorem ofLetter?_eq_none {c : Char} (hc : 0x80 ≤ c.toNat) : Style.ofLetter? c = none := by
  rw [Option.eq_none_iff_forall_ne_some]
  intro style h
  have hl := Style.letter_of_ofLetter? h
  have hlt : style.letter.toNat < 0x80 := by cases style <;> decide
  rw [hl] at hlt
  omega

section
variable {text : String} (hs : Fits text) {i : Nat} {rest : List Char} (h : At text i rest)
include hs h

theorem plusAt_at : ∃ j, plusAt (bytesOf text) i = .ok ((takePlus rest).1, j) ∧
    At text j (takePlus rest).2 := by
  have hp := h.peek_eq_some (c := '+') (by decide)
  by_cases hr : rest.head? = some '+'
  · obtain ⟨r, rfl⟩ := List.head?_eq_some_iff.mp hr
    rw [plusAt, if_pos (hp.mpr hr), h.within_ok hs (by decide)]
    exact ⟨i + 1, rfl, h.tail⟩
  · have ht : takePlus rest = (false, rest) := by
      rw [takePlus]
      exact ne_cons hr
    rw [plusAt, if_neg (mt hp.mp hr), ht]
    exact ⟨i, rfl, h⟩

theorem keyAt_at : ∃ j, keyAt text i = .ok ((takeKey rest).1, j) ∧ At text j (takeKey rest).2 := by
  rw [keyAt, skipWhile_at (fun _ => isKeyChar_eq_false) hs h, ok_bind]
  cases hw : rest.takeWhile isKeyChar with
  | nil =>
    have ht : takeKey rest = (none, rest) := by rw [takeKey, hw]
    have hi : ¬ i < i + byteSize [] := Nat.lt_irrefl i
    rw [ht, if_neg hi]
    exact ⟨i, rfl, h⟩
  | cons c name =>
    have ht : takeKey rest = (some (Key.parse (String.ofList (c :: name))),
        rest.dropWhile isKeyChar) := by rw [takeKey, hw]
    have hr : At text i (c :: name ++ rest.dropWhile isKeyChar) := by
      rwa [← hw, List.takeWhile_append_dropWhile]
    have hn : 0 < byteSize (c :: name) := byteSize_pos (List.cons_ne_nil c name)
    rw [ht, if_pos (by omega), hr.cut_eq]
    exact ⟨_, rfl, hr.drop⟩

theorem decimalsAt_follows : Follows text (decimalsAt text i) (takeDecimals rest) := by
  have hp := h.peek_eq_some (c := '.') (by decide)
  by_cases hr : rest.head? = some '.'
  · obtain ⟨r, rfl⟩ := List.head?_eq_some_iff.mp hr
    have hd : At text (i + 1) r := h.tail
    have hl : ∀ c : Char, 0x80 ≤ c.toNat → isLeadingDigit c = false := by
      intro c hc
      rw [isLeadingDigit, isDigit_eq_false hc, Bool.false_and]
    rw [decimalsAt, if_pos (hp.mpr hr), h.within_ok hs (by decide), ok_bind, hd.peek_any hl]
    cases r with
    | nil => exact .some h
    | cons c r =>
      rw [List.head?_cons, Option.any_some, isLeadingDigit, takeDecimals]
      by_cases hc : (c.isDigit && c != '0') = true
      · have hw : (c :: r).takeWhile Char.isDigit = c :: r.takeWhile Char.isDigit :=
          List.takeWhile_cons_of_pos (Bool.and_eq_true_iff.mp hc).1
        have ha : At text (i + 1) (c :: r.takeWhile Char.isDigit ++ r.dropWhile Char.isDigit) := by
          rwa [List.cons_append, List.takeWhile_append_dropWhile]
        rw [if_pos hc, if_pos hc, skipWhile_at (fun _ => isDigit_eq_false) hs hd, ok_bind, hw,
          ha.cut_eq, ok_bind, String.toList_ofList]
        cases readDigits (c :: r.takeWhile Char.isDigit) with
        | none => exact .none
        | some n => exact .some ha.drop
      · rw [if_neg hc, if_neg hc]
        exact .some h
  · have ht : takeDecimals rest = some (none, rest) := by
      rw [takeDecimals]
      intro c r
      exact ne_cons hr (c :: r)
    rw [decimalsAt, if_neg (mt hp.mp hr), ht]
    exact .some h

theorem styleAt_at : ∃ j, styleAt (bytesOf text) i = .ok ((takeStyle rest).1, j) ∧
    At text j (takeStyle rest).2 := by
  have hp := h.peek_eq_some (c := '#') (by decide)
  by_cases hr : rest.head? = some '#'
  · obtain ⟨r, rfl⟩ := List.head?_eq_some_iff.mp hr
    have hl : At text (i + 1) r := h.tail
    rw [styleAt, if_pos (hp.mpr hr), h.within_ok hs (by decide), ok_bind,
      hl.peek_bind (fun _ => ofLetter?_eq_none)]
    cases r with
    | nil => exact ⟨i, rfl, h⟩
    | cons c r =>
      rw [List.head?_cons, Option.bind_some, takeStyle]
      cases hc : Style.ofLetter? c with
      | none => exact ⟨i, rfl, h⟩
      | some style =>
        have h1 : c.utf8Size = 1 := by
          refine utf8Size_of_ascii (Nat.lt_of_not_le fun hle => ?_)
          rw [ofLetter?_eq_none hle] at hc
          cases hc
        have hd : At text (i + 1 + 1) r := h1 ▸ hl.tail
        simp only [h.within_ok hs (Nat.le_refl 2)]
        exact ⟨i + 2, rfl, hd⟩
  · have ht : takeStyle rest = (none, rest) := by
      rw [takeStyle]
      intro c r
      exact ne_cons hr (c :: r)
    rw [styleAt, if_neg (mt hp.mp hr), ht]
    exact ⟨i, rfl, h⟩

theorem closeAt_follows : Follows text (closeAt (bytesOf text) i) (takeClose rest) := by
  have hp := h.peek_eq_some (c := '}') (by decide)
  by_cases hr : rest.head? = some '}'
  · obtain ⟨r, rfl⟩ := List.head?_eq_some_iff.mp hr
    have hb : At text (i + 1) r := h.tail
    have hb' := hb.peek_eq_some (c := '}') (by decide)
    have hq' := hb.peek_eq_some (c := '?') (by decide)
    rw [closeAt, if_pos (hp.mpr hr), h.within_ok hs (by decide), ok_bind]
    by_cases hrb : r.head? = some '}'
    · obtain ⟨s, rfl⟩ := List.head?_eq_some_iff.mp hrb
      rw [if_pos (hb'.mpr hrb)]
      exact .none
    · rw [if_neg (mt hb'.mp hrb)]
      by_cases hrq : r.head? = some '?'
      · obtain ⟨s, rfl⟩ := List.head?_eq_some_iff.mp hrq
        have hq : At text (i + 2) s := hb.tail
        have hs' := hq.peek_eq_some (c := '}') (by decide)
        rw [if_pos (hq'.mpr hrq), h.within_ok hs (by decide), ok_bind]
        by_cases hsb : s.head? = some '}'
        · obtain ⟨t, rfl⟩ := List.head?_eq_some_iff.mp hsb
          rw [if_pos (hs'.mpr hsb)]
          exact .some hb
        · have ht : takeClose ('}' :: '?' :: s) = some (true, s) := by
            rw [takeClose]
            exact ne_cons hsb
          rw [if_neg (mt hs'.mp hsb), ht]
          exact .some hq
      · have ht : takeClose ('}' :: r) = some (false, r) := by
          rw [takeClose]
          · exact ne_cons hrb
          · exact fun s => ne_cons hrq ('}' :: s)
          · exact ne_cons hrq
        rw [if_neg (mt hq'.mp hrq), ht]
        exact .some hb
  · have ht : takeClose rest = none := by
      rw [takeClose]
      · exact fun s => ne_cons hr ('}' :: s)
      · exact fun s => ne_cons hr ('?' :: '}' :: s)
      · exact fun s => ne_cons hr ('?' :: s)
      · exact ne_cons hr
    rw [closeAt, if_neg (mt hp.mp hr), ht]
    exact .none

omit hs h in
theorem braceFrom_none {bytes : List UInt8} (hn : peek bytes i = none) :
    braceFrom bytes i = .ok i := by
  rw [braceFrom]
  split
  · rfl
  · rename_i h
    rw [hn] at h
    cases h

omit hs h in
theorem braceFrom_brace {bytes : List UInt8} (hb : peek bytes i = some '}') :
    braceFrom bytes i = (do
      within (i + 1)
      if peek bytes (i + 1) = some '}' then
        within (i + 2)
        braceFrom bytes (i + 2)
      else .ok i) := by
  rw [braceFrom]
  split
  · rename_i h
    rw [hb] at h
    cases h
  · rename_i h
    cases hb.symm.trans h
    rw [if_pos rfl]

omit h in
/-- A byte that is no brace is passed. -/
theorem braceFrom_other {c : Char} (hc : peek (bytesOf text) i = some c) (hn : c ≠ '}') :
    braceFrom (bytesOf text) i = braceFrom (bytesOf text) (i + 1) := by
  have hlt := lt_of_peek hc
  rw [length_bytesOf] at hlt
  rw [braceFrom]
  split
  · rename_i h
    rw [hc] at h
    cases h
  · rename_i h
    cases hc.symm.trans h
    rw [if_neg hn, within_of_fits hs (by omega), ok_bind]

theorem braceFrom_at :
    braceFrom (bytesOf text) i = .ok (i + byteSize (spanConjunction rest).1) := by
  fun_induction spanConjunction rest generalizing i with
  | case1 => exact braceFrom_none h.peek_nil
  | case2 r word left he ih =>
    have h1 : At text (i + 1) ('}' :: r) := h.tail
    have h2 : At text (i + 2) r := h.drop (s := ['}', '}'])
    rw [braceFrom_brace ((h.peek_eq_some (by decide)).mpr rfl), h.within_ok hs (by decide),
      ok_bind, if_pos ((h1.peek_eq_some (by decide)).mpr rfl), h.within_ok hs (by decide),
      ok_bind, ih h2, he]
    have hb : '}'.utf8Size = 1 := rfl
    simp only [byteSize, hb]
    congr 1
    omega
  | case3 r hr =>
    have h1 : At text (i + 1) r := h.tail
    rw [braceFrom_brace ((h.peek_eq_some (by decide)).mpr rfl), h.within_ok hs (by decide), ok_bind,
      if_neg (mt (h1.peek_eq_some (by decide)).mp (head_ne hr))]
    rfl
  | case4 c r hr hc word left he ih =>
    have hp := h.pass (braceFrom (bytesOf text)) fun k d hk hm => by
      have hd := eq_of_mem_spread (fun _ => beq_ascii (c := '}') (by decide)) hm
      rw [beq_eq_false_iff_ne.mpr hc, beq_eq_false_iff_ne] at hd
      exact braceFrom_other hs hk hd
    rw [hp, ih h.tail, he, byteSize, Nat.add_assoc]

theorem conjunctionAt_at :
    (∃ word left j, takeConjunction rest = some (word, left) ∧
      conjunctionAt text i = .ok (some (word, j)) ∧ At text j left) ∨
    conjunctionAt text i = .ok none ∧
      ∀ word left, takeConjunction rest = some (word, left) → left = [] := by
  have hp := h.peek_eq_some (c := ':') (by decide)
  by_cases hr : rest.head? = some ':'
  · obtain ⟨r, rfl⟩ := List.head?_eq_some_iff.mp hr
    have h1 : At text (i + 1) r := h.tail
    have happ := spanConjunction_append r
    rw [conjunctionAt, if_pos (hp.mpr hr), h.within_ok hs (by decide), ok_bind, braceFrom_at hs h1,
      ok_bind]
    obtain ⟨⟨word, left⟩, he⟩ : ∃ e, spanConjunction r = e := ⟨_, rfl⟩
    rw [he] at happ ⊢
    have ha : At text (i + 1) (word ++ left) := by rwa [happ]
    have hend := ha.drop.end_eq
    rw [← length_bytesOf] at hend
    cases word with
    | nil =>
      have ht : takeConjunction (':' :: r) = none := by rw [takeConjunction, he]
      rw [ht, if_pos (.inl rfl)]
      exact .inr ⟨rfl, fun _ _ hn => by cases hn⟩
    | cons c word =>
      have ht : takeConjunction (':' :: r) = some (some (String.ofList (c :: word)), left) := by
        rw [takeConjunction, he]
      have hpos : 0 < byteSize (c :: word) := byteSize_pos (List.cons_ne_nil c word)
      rw [ht]
      by_cases hl : left = []
      · subst hl
        rw [if_pos (.inr hend)]
        exact .inr ⟨rfl, fun _ _ hn => by cases hn; rfl⟩
      · have hleft : 0 < byteSize left := byteSize_pos hl
        rw [if_neg (by dsimp only; omega), ha.cut_eq]
        exact .inl ⟨_, _, _, rfl, rfl, ha.drop⟩
  · have ht : takeConjunction rest = some (none, rest) := by
      rw [takeConjunction]
      exact ne_cons hr
    rw [conjunctionAt, if_neg (mt hp.mp hr), ht]
    exact .inl ⟨none, rest, i, rfl, rfl, h⟩

theorem bodyAt_follows : Follows text (bodyAt text i) (scan? ('{' :: rest)) := by
  obtain ⟨i₁, e₁, h₁⟩ := plusAt_at hs h
  obtain ⟨i₂, e₂, h₂⟩ := keyAt_at hs h₁
  have hd := decimalsAt_follows hs h₂
  simp only [bodyAt, scan?, e₁, e₂, ok_bind, Option.bind_eq_bind]
  generalize decimalsAt text i₂ = x, takeDecimals _ = y at hd ⊢
  cases hd with
  | none => exact .none
  | @some decimals i₃ left₃ h₃ =>
    obtain ⟨i₄, e₄, h₄⟩ := styleAt_at hs h₃
    simp only [e₄, ok_bind, Option.bind_some]
    rcases conjunctionAt_at hs h₄ with ⟨word, left, i₅, ht, e₅, h₅⟩ | ⟨e₅, hl⟩
    · have ho := closeAt_follows hs h₅
      simp only [e₅, ht, ok_bind, Option.bind_some]
      generalize closeAt (bytesOf text) i₅ = x, takeClose left = y at ho ⊢
      cases ho with
      | none => exact .none
      | some h₆ => exact .some h₆
    · simp only [e₅, ok_bind]
      -- A conjunction that is never closed is taken up to the end, where no brace is left.
      cases ht : takeConjunction (takeStyle left₃).2 with
      | none => exact .none
      | some found =>
        obtain ⟨word, left⟩ := found
        obtain rfl := hl word left ht
        exact .none

end

theorem followsOn_at {c : Char} (hc : c.toNat < 0x80) {text : String} {before rest : List Char}
    (ht : text.toList = before ++ rest) :
    followsOn c (bytesOf text) (byteSize before) = .ok (endsIn c false before) := by
  rcases List.eq_nil_or_concat before with rfl | ⟨s, d, rfl⟩
  · rfl
  · have h : At text (byteSize s) (d :: rest) := ⟨s, by simpa using ht, rfl⟩
    have hpos := d.utf8Size_pos
    obtain ⟨b, hb, hm⟩ := h.byte (k := d.utf8Size - 1) (by omega)
    have hsize : byteSize (s ++ [d]) = byteSize s + (d.utf8Size - 1) + 1 := by
      simp only [byteSize_append, byteSize]
      omega
    rw [List.concat_eq_append, hsize, followsOn, byteAt_eq_ok hb, ok_bind, endsIn_concat,
      eq_of_mem_spread (fun _ => beq_ascii hc) hm]

theorem head_of_open {afterBrace : Bool} {text rest : List Char} {p : Placeholder}
    (h : open? afterBrace text = some (p, rest)) : text.head? = some '{' := by
  rw [← write_append_of_open? h, write]
  rfl

theorem openAt_split (afterBrace : Bool) (before rest : List Char) :
    openAt? afterBrace (byteSize before) (before ++ rest) =
      open? (endsIn '{' afterBrace before) rest := by
  apply Option.ext
  rintro ⟨p, left⟩
  rw [openAt_iff]
  constructor
  · rintro ⟨b, r, ht, hb, ho⟩
    obtain ⟨rfl, rfl⟩ := append_inj_of_byteSize ht hb.symm
    exact ho
  · intro ho
    exact ⟨before, rest, rfl, rfl, ho⟩

section
variable {text : String} (hs : Fits text)
include hs

/-- Between two characters, the scan finds what stands behind. -/
theorem parseAt_split {before rest : List Char} (ht : text.toList = before ++ rest) :
    parseAt text (byteSize before) = .ok ((open? (endsIn '{' false before) rest).map
      fun (p, _) => (p, byteSize before + byteSize p.write)) := by
  have h : At text (byteSize before) rest := ⟨before, ht, rfl⟩
  have hp := h.peek_eq_some (c := '{') (by decide)
  by_cases hr : rest.head? = some '{'
  · obtain ⟨r, rfl⟩ := List.head?_eq_some_iff.mp hr
    rw [parseAt, if_pos (hp.mpr hr), followsOn_at (by decide) ht, ok_bind]
    cases endsIn '{' false before with
    | true => rfl
    | false =>
      have hb := bodyAt_follows hs h.tail
      have hw : ∀ p left, scan? ('{' :: r) = some (p, left) → p.write ++ left = '{' :: r :=
        fun p left => write_append_of_scan?
      have h1 : '{'.utf8Size = 1 := rfl
      rw [h1] at hb
      rw [if_neg (by decide), h.within_ok hs (by decide), ok_bind]
      show bodyAt text (byteSize before + 1) = .ok ((scan? ('{' :: r)).map _)
      generalize bodyAt text (byteSize before + 1) = x, scan? ('{' :: r) = y at hb hw
      cases hb with
      | none => rfl
      | @some p j left hj =>
        rw [← hw p left rfl] at h
        rw [h.unique hj]
        rfl
  · rw [parseAt, if_neg (mt hp.mp hr)]
    cases ho : open? (endsIn '{' false before) rest with
    | none => rfl
    | some found => exact absurd (head_of_open ho) hr

/-- At each offset, be it inside a character or behind the end, a placeholder is read as the
text has it there. -/
theorem parseAt_eq (start : Nat) :
    parseAt text start = .ok ((parseAt? text start).map fun t => (t.placeholder, t.stop)) := by
  by_cases hp : peek (bytesOf text) start = some '{'
  · obtain ⟨before, r, ht, rfl⟩ := at_of_peek (by decide) hp
    rw [parseAt_split hs ht, parseAt?, ht, openAt_split, Option.map_map]
    rfl
  · have hn : parseAt? text start = none := by
      rw [parseAt?, Option.map_eq_none_iff, Option.eq_none_iff_forall_ne_some]
      rintro ⟨p, left⟩ ho
      obtain ⟨before, rest, ht, hb, ho⟩ := (openAt_iff _ _ _ _ _).mp ho
      have h : At text start rest := ⟨before, ht, hb⟩
      exact hp ((h.peek_eq_some (by decide)).mpr (head_of_open ho))
    rw [parseAt, if_neg hp, hn]
    rfl

end

def next (text : String) (pos : Nat) : Checked (Option Token) := do
  let rest ← cut text pos text.utf8ByteSize
  match find '{' rest.toList with
  | none => .ok none
  | some offset => do
    within (pos + offset)
    match ← parseAt text (pos + offset) with
    | some (p, stop) => .ok (some ⟨pos + offset, stop, p⟩)
    | none => do
      within (pos + offset + 1)
      if _h : pos + offset < text.utf8ByteSize then next text (pos + offset + 1)
      else .error .stuck
termination_by text.utf8ByteSize - pos

def tokensAt (text : String) (pos : Nat) : Checked (List Token) := do
  match ← next text pos with
  | none => .ok []
  | some token =>
    if _h : pos < token.stop ∧ token.stop ≤ text.utf8ByteSize then do
      let later ← tokensAt text token.stop
      .ok (token :: later)
    else .error .stuck
termination_by text.utf8ByteSize - pos

inductive Leads (text : String) (start : Nat) : Option Token → List Token → Prop
  | none : Leads text start none []
  | some {t : Token} {before rest : List Char} (ht : text.toList = before ++ rest)
      (hb : byteSize before = t.stop) (hf : endsIn '{' false before = false)
      (hlt : start < t.stop) :
      Leads text start (some t) (t :: tokensFrom t.stop (pieces false rest))

theorem tokensFrom_passed (start : Nat) (afterBrace : Bool) {s : List Char} (hs : '{' ∉ s)
    (rest : List Char) :
    tokensFrom start (pieces afterBrace (s ++ rest)) =
      tokensFrom (start + byteSize s) (pieces (endsIn '{' afterBrace s) rest) := by
  induction s generalizing start afterBrace with
  | nil => rfl
  | cons c s ih =>
    rw [List.mem_cons, not_or] at hs
    rw [List.cons_append, pieces_no_brace _ (Ne.symm hs.1), tokensFrom, ih _ _ hs.2, byteSize,
      Nat.add_assoc]
    rfl

theorem Leads.mono {text : String} {start first : Nat} {found : Option Token} {ts : List Token}
    (h : Leads text first found ts) (hle : start ≤ first) : Leads text start found ts := by
  cases h with
  | none => exact .none
  | some ht hb hf hlt => exact .some ht hb hf (Nat.lt_of_le_of_lt hle hlt)

section
variable {text : String} (hs : Fits text)
include hs

/-- A brace that opens nothing is passed, and the search goes on behind it. -/
theorem next_found {before s r : List Char} (ht : text.toList = before ++ (s ++ '{' :: r))
    (hf : find '{' (s ++ '{' :: r) = some (byteSize s)) :
    next text (byteSize before) =
      match open? (endsIn '{' false (before ++ s)) ('{' :: r) with
      | none => next text (byteSize (before ++ s ++ ['{']))
      | some (p, _) =>
        .ok (some ⟨byteSize (before ++ s), byteSize (before ++ s) + byteSize p.write, p⟩) := by
  have h : At text (byteSize before) (s ++ '{' :: r) := ⟨before, ht, rfl⟩
  have ht' : text.toList = before ++ s ++ '{' :: r := by rw [ht, List.append_assoc]
  have hend := h.drop.end_eq
  have hpos : 0 < byteSize ('{' :: r) := byteSize_pos (List.cons_ne_nil _ _)
  rw [← byteSize_append] at hend
  rw [next, h.cut_rest, ok_bind, String.toList_ofList, hf]
  dsimp only
  rw [← byteSize_append, within_of_fits hs (by omega), ok_bind, parseAt_split hs ht', ok_bind]
  cases open? (endsIn '{' false (before ++ s)) ('{' :: r) with
  | none =>
    have hsize : byteSize (before ++ s ++ ['{']) = byteSize (before ++ s) + 1 := byteSize_append _ _
    simp only [Option.map_none]
    rw [hsize, within_of_fits hs (by omega), ok_bind, dif_pos (by omega)]
  | some found => rfl

theorem next_leads {before rest : List Char} (ht : text.toList = before ++ rest) :
    ∃ found, next text (byteSize before) = .ok found ∧ Leads text (byteSize before) found
      (tokensFrom (byteSize before) (pieces (endsIn '{' false before) rest)) := by
  induction hn : rest.length using Nat.strong_induction_on generalizing before rest with
  | _ n ih =>
    cases hf : find '{' rest with
    | none =>
      have h : At text (byteSize before) rest := ⟨before, ht, rfl⟩
      have hp := tokensFrom_passed (byteSize before) (endsIn '{' false before) (find_eq_none hf) []
      rw [List.append_nil, pieces_nil] at hp
      rw [next, h.cut_rest, ok_bind, String.toList_ofList, hf, hp]
      exact ⟨none, rfl, .none⟩
    | some offset =>
      obtain ⟨s, r, rfl, hb, rfl⟩ := find_eq_some hf
      have hle : byteSize before ≤ byteSize (before ++ s) := by
        rw [byteSize_append]
        omega
      rw [next_found hs ht hf, tokensFrom_passed _ _ hb, ← endsIn_append, ← byteSize_append]
      cases ho : open? (endsIn '{' false (before ++ s)) ('{' :: r) with
      | some found =>
        obtain ⟨p, left⟩ := found
        have hp : 0 < byteSize p.write := byteSize_pos (Piece.token p).write_ne_nil
        have hw : text.toList = before ++ s ++ p.write ++ left := by
          rw [ht, List.append_assoc _ p.write, write_append_of_open? ho, List.append_assoc]
        rw [pieces_of_open?_eq_some ho, tokensFrom]
        refine ⟨_, rfl, .some hw (byteSize_append _ _) ?_ (by dsimp only; omega)⟩
        rw [endsIn_append, endsIn_write]
      | none =>
        have hw : text.toList = before ++ s ++ ['{'] ++ r := by
          rw [ht, List.append_assoc _ ['{'], List.singleton_append, List.append_assoc]
        have hsize : byteSize (before ++ s ++ ['{']) = byteSize (before ++ s) + 1 :=
          byteSize_append _ _
        have hlen : r.length < n := by
          rw [← hn, List.length_append, List.length_cons]
          omega
        obtain ⟨found, he, hl⟩ := ih r.length hlen hw rfl
        rw [endsIn_concat, hsize] at hl
        rw [pieces_of_open?_eq_none ho, tokensFrom]
        exact ⟨found, he, hl.mono (Nat.le_succ_of_le hle)⟩

theorem tokensAt_split {before rest : List Char} (ht : text.toList = before ++ rest) :
    tokensAt text (byteSize before) =
      .ok (tokensFrom (byteSize before) (pieces (endsIn '{' false before) rest)) := by
  induction hn : byteSize rest using Nat.strong_induction_on generalizing before rest with
  | _ n ih =>
    have h : At text (byteSize before) rest := ⟨before, ht, rfl⟩
    have hend := h.end_eq
    obtain ⟨found, he, hl⟩ := next_leads hs ht
    rw [tokensAt, he, ok_bind]
    generalize tokensFrom (byteSize before) _ = ts at hl
    cases hl with
    | none => rfl
    | @some t front left hw hb hf hlt =>
      have hw' : At text (byteSize front) left := ⟨front, hw, rfl⟩
      have hend' := hw'.end_eq
      have hi := ih (byteSize left) (by omega) hw rfl
      rw [hf, hb] at hi
      simp only [dif_pos (show byteSize before < t.stop ∧ t.stop ≤ text.utf8ByteSize by omega), hi,
        ok_bind]

/-- The iteration finds the placeholders of the text. -/
theorem tokensAt_zero : tokensAt text 0 = .ok (tokens text) := by
  have ht : text.toList = [] ++ text.toList := rfl
  exact tokensAt_split hs ht

end

end MessagePattern.Offsets
