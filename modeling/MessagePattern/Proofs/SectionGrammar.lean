import MessagePattern.Proofs.SectionScan

/-!
# The grammar of sections

A text is a sequence of units: two equal brackets next to each other are plain
content, a bracket alone opens or closes, and any other character is content.
A section is an opening bracket, one or more items, and a closing bracket; an
item is a unit of content or a section. The scan, which only counts how many
sections are open, finds the closing bracket that this grammar gives.
-/

set_option autoImplicit false

namespace MessagePattern

inductive BracketUnit where
  | opening
  | closing
  | content (text : List Char)

def BracketUnit.write : BracketUnit → List Char
  | .opening => ['[']
  | .closing => [']']
  | .content text => text

def units : List Char → List BracketUnit
  | [] => []
  | '[' :: '[' :: r => .content ['[', '['] :: units r
  | ']' :: ']' :: r => .content [']', ']'] :: units r
  | '[' :: r => .opening :: units r
  | ']' :: r => .closing :: units r
  | c :: r => .content [c] :: units r

theorem units_opening {r : List Char} (hr : r.head? ≠ some '[') :
    units ('[' :: r) = .opening :: units r := by
  rw [units]
  exact ne_cons hr

theorem units_closing {r : List Char} (hr : r.head? ≠ some ']') :
    units (']' :: r) = .closing :: units r := by
  rw [units]
  exact ne_cons hr

theorem units_char {c : Char} (hc : isBracket c = false) (r : List Char) :
    units (c :: r) = .content [c] :: units r := by
  obtain ⟨ho, hl⟩ := isBracket_eq_false.mp hc
  rw [units]
  · intro s he _
    exact ho he
  · intro s he _
    exact hl he
  · exact ho
  · exact hl

def writeUnits (us : List BracketUnit) : List Char := us.flatMap BracketUnit.write

inductive Phrase where
  | bracketed
  | item
  | items

/-- The grammar: what stands in brackets is one or more items, and an item is
a unit of content or bracketed again. -/
inductive Derives : Phrase → List BracketUnit → Prop
  | bracketed {inner : List BracketUnit} (h : Derives .items inner) :
      Derives .bracketed (.opening :: (inner ++ [.closing]))
  | content (text : List Char) : Derives .item [.content text]
  | nested {us : List BracketUnit} (h : Derives .bracketed us) : Derives .item us
  | one {us : List BracketUnit} (h : Derives .item us) : Derives .items us
  | more {us vs : List BracketUnit} (h : Derives .item us) (hs : Derives .items vs) :
      Derives .items (us ++ vs)

/-- A text is nothing but its units. -/
theorem write_units (text : List Char) : writeUnits (units text) = text := by
  fun_induction units text with
  | case1 => rfl
  | case2 r ih => simpa [writeUnits, BracketUnit.write] using ih
  | case3 r ih => simpa [writeUnits, BracketUnit.write] using ih
  | case4 r _ ih => simpa [writeUnits, BracketUnit.write] using ih
  | case5 r _ ih => simpa [writeUnits, BracketUnit.write] using ih
  | case6 c r _ _ _ _ ih => simpa [writeUnits, BracketUnit.write] using ih

def closeUnits (depth : Nat) (filled : Bool) :
    List BracketUnit → Option (List BracketUnit × List BracketUnit)
  | [] => none
  | .content text :: us => (closeUnits depth true us).map (inFront [.content text])
  | .opening :: us => (closeUnits (depth + 1) false us).map (inFront [.opening])
  | .closing :: us =>
    if filled then
      match depth with
      | 0 => some ([], us)
      | depth + 1 => (closeUnits depth true us).map (inFront [.closing])
    else none

def readFound (found : List Char × List Char) : List Char × List BracketUnit :=
  (found.1, units found.2)

def writeFound (found : List BracketUnit × List BracketUnit) : List Char × List BracketUnit :=
  (writeUnits found.1, found.2)

theorem found_step (u : BracketUnit) {a : Option (List Char × List Char)}
    {b : Option (List BracketUnit × List BracketUnit)}
    (h : a.map readFound = b.map writeFound) :
    (a.map (inFront u.write)).map readFound = (b.map (inFront [u])).map writeFound := by
  have hr : readFound ∘ inFront u.write = inFront u.write ∘ readFound := rfl
  have hw : writeFound ∘ inFront [u] = inFront u.write ∘ writeFound := by
    funext found
    simp [writeFound, inFront, writeUnits]
  rw [Option.map_map, Option.map_map, hr, hw, ← Option.map_map, ← Option.map_map, h]

/-- Reading characters and reading units find the same closing bracket. -/
theorem closeSection_units (depth : Nat) (filled : Bool) (text : List Char) :
    (closeSection depth filled text).map readFound =
      (closeUnits depth filled (units text)).map writeFound := by
  induction text using units.induct generalizing depth filled with
  | case1 => rfl
  | case2 r ih =>
    rw [closeSection_doubled depth filled rfl, units]
    exact found_step (.content _) (ih depth true)
  | case3 r ih =>
    rw [closeSection_doubled depth filled rfl, units]
    exact found_step (.content _) (ih depth true)
  | case4 r hr ih =>
    have hh : r.head? ≠ some '[' := head_ne hr
    rw [closeSection_opening depth filled hh, units_opening hh]
    exact found_step .opening (ih (depth + 1) false)
  | case5 r hr ih =>
    have hh : r.head? ≠ some ']' := head_ne hr
    rw [units_closing hh]
    cases filled with
    | false => rw [closeSection_hollow depth hh]; rfl
    | true =>
      cases depth with
      | zero => rw [closeSection_end hh]; rfl
      | succ depth =>
        rw [closeSection_closing depth hh]
        exact found_step .closing (ih depth true)
  | case6 c r _ _ h₃ h₄ ih =>
    have hc := isBracket_eq_false.mpr ⟨h₃, h₄⟩
    rw [closeSection_char depth filled hc, units_char hc]
    exact found_step (.content [c]) (ih depth true)

def Fills (filled : Bool) (us : List BracketUnit) : Prop :=
  filled = true ∧ us = [] ∨ Derives .items us

/-- What lies between a place at some depth and the bracket that ends the
outermost section: each open level ends in turn. -/
def Ends : Nat → Bool → List BracketUnit → Prop
  | 0, filled, us => Fills filled us
  | depth + 1, filled, us =>
    ∃ first later, us = first ++ .closing :: later ∧ Fills filled first ∧ Ends depth true later

theorem fills_item {us vs : List BracketUnit} (h : Derives .item us) (hv : Fills true vs)
    (filled : Bool) : Fills filled (us ++ vs) := by
  rcases hv with ⟨-, rfl⟩ | hv
  · rw [List.append_nil]
    exact Or.inr (.one h)
  · exact Or.inr (.more h hv)

theorem ends_item {us vs : List BracketUnit} (h : Derives .item us) {depth : Nat}
    (hv : Ends depth true vs) (filled : Bool) : Ends depth filled (us ++ vs) := by
  cases depth with
  | zero => exact fills_item h hv filled
  | succ depth =>
    obtain ⟨first, later, rfl, hf, hl⟩ := hv
    exact ⟨us ++ first, later, by simp, fills_item h hf filled, hl⟩

theorem closeUnits_ends {depth : Nat} {filled : Bool} {us inner rest : List BracketUnit}
    (h : closeUnits depth filled us = some (inner, rest)) :
    us = inner ++ .closing :: rest ∧ Ends depth filled inner := by
  fun_induction closeUnits depth filled us generalizing inner with
  | case1 => cases h
  | case2 depth filled text us ih =>
    obtain ⟨⟨found, behind⟩, hf, he⟩ := Option.map_eq_some_iff.mp h
    cases he
    obtain ⟨rfl, hends⟩ := ih hf
    exact ⟨rfl, ends_item (.content text) hends filled⟩
  | case3 depth filled us ih =>
    obtain ⟨⟨found, behind⟩, hf, he⟩ := Option.map_eq_some_iff.mp h
    cases he
    obtain ⟨rfl, first, later, rfl, hitems, hends⟩ := ih hf
    -- the level that is open here has ended as an item of the one around it
    refine ⟨rfl, ?_⟩
    rcases hitems with ⟨hfalse, -⟩ | hitems
    · cases hfalse
    · have := ends_item (.nested (.bracketed hitems)) hends filled
      simpa [inFront] using this
  | case4 =>
    cases h
    exact ⟨rfl, Or.inl ⟨rfl, rfl⟩⟩
  | case5 us depth ih =>
    obtain ⟨⟨found, behind⟩, hf, he⟩ := Option.map_eq_some_iff.mp h
    cases he
    obtain ⟨rfl, hends⟩ := ih hf
    exact ⟨rfl, [], found, rfl, Or.inl ⟨rfl, rfl⟩, hends⟩
  | case6 => cases h

/-- A phrase is read from its first unit to its last, and the depth is as before. -/
theorem closeUnits_derives {phrase : Phrase} {us : List BracketUnit} (h : Derives phrase us)
    (depth : Nat) (filled : Bool) (rest : List BracketUnit) :
    closeUnits depth filled (us ++ rest) = (closeUnits depth true rest).map (inFront us) := by
  induction h generalizing depth filled rest with
  | bracketed _ ih =>
    rw [List.cons_append, closeUnits, List.append_assoc, ih, List.singleton_append,
      closeUnits, if_pos rfl, map_inFront_append, map_inFront_append]
    rfl
  | content text => rfl
  | nested _ ih => exact ih depth filled rest
  | one _ ih => exact ih depth filled rest
  | more _ _ ih ihs => rw [List.append_assoc, ih, ihs, map_inFront_append]

theorem closeUnits_iff (us inner rest : List BracketUnit) :
    closeUnits 0 false us = some (inner, rest) ↔
      us = inner ++ .closing :: rest ∧ Derives .items inner := by
  constructor
  · intro h
    obtain ⟨he, ⟨hf, -⟩ | hi⟩ := closeUnits_ends h
    · cases hf
    · exact ⟨he, hi⟩
  · intro h
    obtain ⟨rfl, hi⟩ := h
    rw [closeUnits_derives hi]
    simp [closeUnits, inFront]

theorem closeSection_iff (text content : List Char) :
    (∃ rest, closeSection 0 false text = some (content, rest)) ↔
      ∃ inner later, units text = inner ++ .closing :: later ∧ content = writeUnits inner ∧
        Derives .items inner := by
  have hunits := closeSection_units 0 false text
  constructor
  · intro h
    obtain ⟨rest, h⟩ := h
    rw [h] at hunits
    obtain ⟨⟨inner, later⟩, hc, he⟩ := Option.map_eq_some_iff.mp hunits.symm
    obtain ⟨hu, hi⟩ := (closeUnits_iff _ _ _).mp hc
    exact ⟨inner, later, hu, (congrArg Prod.fst he).symm, hi⟩
  · intro h
    obtain ⟨inner, later, hu, rfl, hi⟩ := h
    rw [(closeUnits_iff _ _ _).mpr ⟨hu, hi⟩] at hunits
    obtain ⟨⟨content, rest⟩, hc, he⟩ := Option.map_eq_some_iff.mp hunits
    have hf : content = writeUnits inner := congrArg Prod.fst he
    exact ⟨rest, hf ▸ hc⟩

theorem openSection_iff (afterBracket : Bool) (text content rest : List Char) :
    openSection afterBracket text = some (content, rest) ↔
      afterBracket = false ∧ ∃ r, text = '[' :: r ∧ r.head? ≠ some '[' ∧
        closeSection 0 false r = some (content, rest) := by
  unfold openSection
  split
  · apply iff_of_false (by simp)
    intro h
    obtain ⟨-, r, he, hr, -⟩ := h
    cases he
    exact hr rfl
  · rename_i r hr
    have hh : r.head? ≠ some '[' := head_ne hr
    cases afterBracket with
    | true => simp
    | false => simp [hh]
  · rename_i ho
    apply iff_of_false (by simp)
    intro h
    obtain ⟨-, r, he, -, -⟩ := h
    exact ho r he

end MessagePattern
