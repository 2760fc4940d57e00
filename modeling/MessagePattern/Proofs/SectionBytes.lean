import MessagePattern.Proofs.SectionGrammar
import MessagePattern.Proofs.Texts

/-!
# Sections by their bytes

A section is looked for from a byte of a text to another one. Only the two
brackets matter for it, so that the bytes may be any, and in an encoded text
the characters outside ASCII count as content byte by byte.
-/

set_option autoImplicit false

namespace MessagePattern

def matchSection (bytes : List UInt8) (start : Nat) : Option Nat :=
  (openSection ((readBytes (bytes.take start)).getLast? == some '[')
    (readBytes (bytes.drop start))).map fun found => start + found.1.length + 1

def SectionAt (bytes : List UInt8) (start stop : Nat) : Prop :=
  bytes[start]? = some '['.toUInt8 ∧
  (∀ before, start = before + 1 → bytes[before]? ≠ some '['.toUInt8) ∧
  bytes[start + 1]? ≠ some '['.toUInt8 ∧
  ∃ us later, units (readBytes (bytes.drop (start + 1))) = us ++ later ∧
    Derives .bracketed (.opening :: us) ∧ stop = start + (writeUnits us).length

theorem ofUInt8_opening (b : UInt8) : Char.ofUInt8 b = '[' ↔ b = '['.toUInt8 :=
  ofUInt8_iff (by decide) b

theorem map_ofUInt8_opening (b : Option UInt8) :
    b.map Char.ofUInt8 = some '[' ↔ b = some '['.toUInt8 := by
  cases b with
  | none => simp
  | some b => simp [ofUInt8_opening]

theorem readBytes_drop (bytes : List UInt8) (start : Nat) (r : List Char) :
    readBytes (bytes.drop start) = '[' :: r ↔
      bytes[start]? = some '['.toUInt8 ∧ r = readBytes (bytes.drop (start + 1)) := by
  rw [← List.head?_drop, ← List.tail_drop]
  cases bytes.drop start with
  | nil => simp [readBytes]
  | cons b bs => simp [readBytes, ofUInt8_opening, eq_comm (a := r)]

theorem readBytes_take (bytes : List UInt8) (start : Nat) (hs : start ≤ bytes.length) :
    ((readBytes (bytes.take start)).getLast? == some '[') = false ↔
      ∀ before, start = before + 1 → bytes[before]? ≠ some '['.toUInt8 := by
  rw [beq_eq_false_iff_ne, readBytes, List.getLast?_map, ne_eq, map_ofUInt8_opening,
    List.getLast?_take]
  cases start with
  | zero => simp
  | succ before => simp [List.getElem?_eq_getElem hs]

theorem matchSection_iff (bytes : List UInt8) (start stop : Nat) :
    matchSection bytes start = some stop ↔ SectionAt bytes start stop := by
  rw [matchSection, Option.map_eq_some_iff]
  constructor
  · intro h
    obtain ⟨⟨content, rest⟩, ho, rfl⟩ := h
    obtain ⟨hb, r, hr, hn, hc⟩ := (openSection_iff _ _ _ _).mp ho
    obtain ⟨h0, rfl⟩ := (readBytes_drop _ _ _).mp hr
    obtain ⟨inner, later, hu, rfl, hi⟩ := (closeSection_iff _ _).mp ⟨rest, hc⟩
    have hs : start ≤ bytes.length := by
      have := (List.getElem?_eq_some_iff.mp h0).1
      omega
    refine ⟨h0, (readBytes_take _ _ hs).mp hb, ?_, inner ++ [.closing], later, by simpa using hu,
      .bracketed hi, ?_⟩
    · intro h
      apply hn
      rw [readBytes, List.head?_map, List.head?_drop, h]
      rfl
    · simp [writeUnits, BracketUnit.write, Nat.add_assoc]
  · intro h
    obtain ⟨h0, hb, hn, us, later, hu, hd, rfl⟩ := h
    have hs : start ≤ bytes.length := by
      have := (List.getElem?_eq_some_iff.mp h0).1
      omega
    cases hd with
    | @bracketed inner hi =>
      obtain ⟨rest, hc⟩ := (closeSection_iff _ _).mpr ⟨inner, later, by simpa using hu, rfl, hi⟩
      refine ⟨(writeUnits inner, rest), (openSection_iff _ _ _ _).mpr
        ⟨(readBytes_take _ _ hs).mpr hb, _, (readBytes_drop _ _ _).mpr ⟨h0, rfl⟩, ?_, hc⟩, ?_⟩
      · rw [readBytes, List.head?_map, List.head?_drop, ne_eq, map_ofUInt8_opening]
        exact hn
      · simp [writeUnits, BracketUnit.write, Nat.add_assoc]

theorem spread_isBracket {c : Char} (hc : isBracket c = false) :
    ∀ d ∈ spread [c], isBracket d = false := by
  intro d hd
  rcases mem_spread hd with rfl | hh
  · exact hc
  · apply isBracket_eq_false.mpr
    constructor
    · intro he
      subst he
      exact absurd hh (by decide)
    · intro he
      subst he
      exact absurd hh (by decide)

theorem spread_cons_bracket {c : Char} (hc : isBracket c = true) (r : List Char) :
    spread (c :: r) = c :: spread r := by
  have h : c = '[' ∨ c = ']' := by simpa [isBracket] using hc
  have hs : spread [c] = [c] := by
    rcases h with rfl | rfl
    · exact spread_ascii (by decide)
    · exact spread_ascii (by decide)
  show spread ([c] ++ r) = _
  rw [spread_append, hs]
  rfl

theorem head_spread {c : Char} (hc : isBracket c = true) (text : List Char) :
    (spread text).head? = some c ↔ text.head? = some c := by
  cases text with
  | nil => simp [spread, utf8, readBytes]
  | cons d r =>
    cases hd : isBracket d with
    | true => rw [spread_cons_bracket hd, List.head?_cons, List.head?_cons]
    | false =>
      obtain ⟨e, s, he⟩ := List.exists_cons_of_ne_nil (spread_ne_nil d)
      have hb : isBracket e = false := spread_isBracket hd e (by rw [he]; exact List.mem_cons_self)
      have hs : spread (d :: r) = e :: (s ++ spread r) := by
        show spread ([d] ++ r) = _
        rw [spread_append, he]
        rfl
      rw [hs, List.head?_cons, List.head?_cons]
      constructor
      · intro h
        rw [Option.some.inj h, hc] at hb
        cases hb
      · intro h
        rw [Option.some.inj h, hc] at hd
        cases hd

def spreadFound (found : List Char × List Char) : List Char × List Char :=
  (spread found.1, spread found.2)

theorem spreadFound_inFront (text : List Char) (found : Option (List Char × List Char)) :
    (found.map spreadFound).map (inFront (spread text)) =
      (found.map (inFront text)).map spreadFound := by
  cases found with
  | none => rfl
  | some f => simp [spreadFound, inFront, spread_append]

theorem closeSection_spread (depth : Nat) (filled : Bool) (text : List Char) :
    closeSection depth filled (spread text) =
      (closeSection depth filled text).map spreadFound := by
  induction text using units.induct generalizing depth filled with
  | case1 => rfl
  | case2 r ih =>
    rw [spread_cons_bracket rfl, spread_cons_bracket rfl, closeSection_doubled depth filled rfl,
      closeSection_doubled depth filled rfl, ih]
    exact spreadFound_inFront ['[', '['] _
  | case3 r ih =>
    rw [spread_cons_bracket rfl, spread_cons_bracket rfl, closeSection_doubled depth filled rfl,
      closeSection_doubled depth filled rfl, ih]
    exact spreadFound_inFront [']', ']'] _
  | case4 r hr ih =>
    have hh : r.head? ≠ some '[' := head_ne hr
    have hs : (spread r).head? ≠ some '[' := mt (head_spread rfl r).mp hh
    rw [spread_cons_bracket rfl, closeSection_opening depth filled hs,
      closeSection_opening depth filled hh, ih]
    exact spreadFound_inFront ['['] _
  | case5 r hr ih =>
    have hh : r.head? ≠ some ']' := head_ne hr
    have hs : (spread r).head? ≠ some ']' := mt (head_spread rfl r).mp hh
    rw [spread_cons_bracket rfl]
    cases filled with
    | false => rw [closeSection_hollow depth hs, closeSection_hollow depth hh]; rfl
    | true =>
      cases depth with
      | zero => rw [closeSection_end hs, closeSection_end hh]; rfl
      | succ depth =>
        rw [closeSection_closing depth hs, closeSection_closing depth hh, ih]
        exact spreadFound_inFront [']'] _
  | case6 c r _ _ ho hl ih =>
    -- a character of several bytes is as many characters, none of them a bracket
    have hc := isBracket_eq_false.mpr ⟨ho, hl⟩
    have he : spread (c :: r) = spread [c] ++ spread r := spread_append [c] r
    have hn : (spread [c]).isEmpty = false := by simpa using spread_ne_nil c
    rw [he, closeSection_plain depth filled (spread_isBracket hc),
      closeSection_char depth filled hc, hn, Bool.not_false, Bool.or_true, ih]
    exact spreadFound_inFront [c] _

theorem openSection_spread (afterBracket : Bool) (text : List Char) :
    openSection afterBracket (spread text) = (openSection afterBracket text).map spreadFound := by
  by_cases ho : text.head? = some '['
  · obtain ⟨r, rfl⟩ := List.head?_eq_some_iff.mp ho
    rw [spread_cons_bracket rfl]
    by_cases hr : r.head? = some '['
    · obtain ⟨s, rfl⟩ := List.head?_eq_some_iff.mp hr
      rw [spread_cons_bracket rfl]
      rfl
    · rw [openSection_bracket _ (mt (head_spread rfl r).mp hr), openSection_bracket _ hr,
        closeSection_spread]
      cases afterBracket with
      | true => rfl
      | false => rfl
  · rw [openSection_none _ (mt (head_spread rfl text).mp ho), openSection_none _ ho]
    rfl

theorem getLast_spread (text : List Char) :
    (spread text).getLast? = some '[' ↔ text.getLast? = some '[' := by
  rcases List.eq_nil_or_concat text with rfl | ⟨s, c, rfl⟩
  · simp [spread, utf8, readBytes]
  · rcases List.eq_nil_or_concat (spread [c]) with hn | ⟨u, d, hu⟩
    · exact absurd hn (spread_ne_nil c)
    · rw [List.concat_eq_append] at hu
      have hd : d ∈ spread [c] := by simp [hu]
      rw [List.concat_eq_append, spread_append, hu, ← List.append_assoc, List.getLast?_concat,
        List.getLast?_concat]
      constructor
      · intro h
        rcases mem_spread hd with rfl | hh
        · exact h
        · rw [Option.some.inj h] at hh
          exact absurd hh (by decide)
      · intro h
        rw [Option.some.inj h, spread_ascii (by decide)] at hd
        rw [List.mem_singleton.mp hd]

theorem endsIn_spread (text : List Char) :
    ((spread text).getLast? == some '[') = endsIn '[' false text := by
  rw [Bool.eq_iff_iff, beq_iff_eq, endsIn_false]
  exact getLast_spread text

theorem matchSection_utf8 (before text : List Char) :
    matchSection (utf8 (before ++ text)) (byteSize before) =
      (openSection (endsIn '[' false before) text).map
        fun found => byteSize before + byteSize found.1 + 1 := by
  have ht : readBytes ((utf8 (before ++ text)).take (byteSize before)) = spread before := by
    rw [utf8_append, ← length_utf8, List.take_left]
    rfl
  have hd : readBytes ((utf8 (before ++ text)).drop (byteSize before)) = spread text := by
    rw [utf8_append, ← length_utf8, List.drop_left]
    rfl
  rw [matchSection, ht, hd, openSection_spread, Option.map_map, endsIn_spread]
  have hf : (fun found : List Char × List Char => byteSize before + found.1.length + 1) ∘
      spreadFound = fun found => byteSize before + byteSize found.1 + 1 := by
    funext found
    simp [spreadFound, length_spread]
  rw [← hf]

/-- The closing bracket of a section is the one that the grammar gives, there is
at most one, and where the grammar gives none nothing is found. The bytes of a
text have the same sections as its characters. -/
theorem section_grammar (bytes : List UInt8) (start : Nat) :
    (∀ stop, matchSection bytes start = some stop ↔ SectionAt bytes start stop) ∧
    (matchSection bytes start = none ↔ ∀ stop, ¬ SectionAt bytes start stop) ∧
    (∀ m n, SectionAt bytes start m → SectionAt bytes start n → m = n) ∧
    (∀ before text, bytes = utf8 (before ++ text) → start = byteSize before →
      matchSection bytes start = (openSection (endsIn '[' false before) text).map
        fun found => byteSize before + byteSize found.1 + 1) := by
  constructor
  · exact matchSection_iff bytes start
  · constructor
    · rw [Option.eq_none_iff_forall_ne_some]
      constructor
      · intro h stop hs
        exact h stop ((matchSection_iff bytes start stop).mpr hs)
      · intro h stop hs
        exact h stop ((matchSection_iff bytes start stop).mp hs)
    · constructor
      · intro m n hm hn
        have h₁ := (matchSection_iff bytes start m).mpr hm
        have h₂ := (matchSection_iff bytes start n).mpr hn
        exact Option.some.inj (h₁.symm.trans h₂)
      · intro before text hb hs
        rw [hb, hs]
        exact matchSection_utf8 before text

end MessagePattern
