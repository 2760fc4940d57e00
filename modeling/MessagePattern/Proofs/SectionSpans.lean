import MessagePattern.Proofs.SectionBytes

/-!
# The spans of the sections

The sections of a pattern are chosen from the left: each opening bracket that
is not yet inside of a section opens one if it can. The bytes of their brackets
are the only ones that can be chosen in this way.
-/

set_option autoImplicit false

namespace MessagePattern

structure SectionSpans (bytes : List UInt8) (start : Nat) (spans : List (Nat × Nat)) : Prop where
  later : ∀ span ∈ spans, start ≤ span.1
  matched : ∀ span ∈ spans, matchSection bytes span.1 = some span.2
  apart : spans.Pairwise fun a b => a.2 < b.1
  outside : ∀ i, start ≤ i → bytes[i]? = some '['.toUInt8 →
    (∀ span ∈ spans, ¬ (span.1 ≤ i ∧ i ≤ span.2)) → matchSection bytes i = none

theorem opening_of_matchSection {bytes : List UInt8} {start stop : Nat}
    (h : matchSection bytes start = some stop) : bytes[start]? = some '['.toUInt8 :=
  ((matchSection_iff bytes start stop).mp h).1

/-- Only an opening bracket needs to be looked at. -/
theorem matchSection_eq_none {bytes : List UInt8} {start : Nat}
    (h : bytes[start]? = some '['.toUInt8 → matchSection bytes start = none) :
    matchSection bytes start = none := by
  rw [Option.eq_none_iff_forall_ne_some]
  intro stop hm
  have hn := h (opening_of_matchSection hm)
  rw [hm] at hn
  cases hn

theorem lt_of_matchSection {bytes : List UInt8} {start stop : Nat}
    (h : matchSection bytes start = some stop) : start < stop := by
  obtain ⟨found, -, rfl⟩ := Option.map_eq_some_iff.mp h
  omega

namespace SectionSpans

variable {bytes : List UInt8} {start : Nat}

theorem tail {span : Nat × Nat} {spans : List (Nat × Nat)}
    (h : SectionSpans bytes start (span :: spans)) : SectionSpans bytes (span.2 + 1) spans := by
  have hm := h.matched span List.mem_cons_self
  have hl := h.later span List.mem_cons_self
  have hlt := lt_of_matchSection hm
  constructor
  · exact (List.pairwise_cons.mp h.apart).1
  · intro other ho
    exact h.matched other (List.mem_cons_of_mem _ ho)
  · exact (List.pairwise_cons.mp h.apart).2
  · intro i hi hb hout
    apply h.outside i (by omega) hb
    intro other ho
    rcases List.mem_cons.mp ho with rfl | ho
    · omega
    · exact hout other ho

theorem cons {stop : Nat} {spans : List (Nat × Nat)}
    (hm : matchSection bytes start = some stop) (h : SectionSpans bytes (stop + 1) spans) :
    SectionSpans bytes start ((start, stop) :: spans) := by
  have hlt := lt_of_matchSection hm
  constructor
  · intro span hs
    rcases List.mem_cons.mp hs with rfl | hs
    · exact Nat.le_refl start
    · have hl := h.later span hs
      omega
  · intro span hs
    rcases List.mem_cons.mp hs with rfl | hs
    · exact hm
    · exact h.matched span hs
  · exact List.pairwise_cons.mpr ⟨h.later, h.apart⟩
  · intro i hi hb hout
    have hi' := hout _ List.mem_cons_self
    apply h.outside i (by omega) hb
    intro span hs
    exact hout span (List.mem_cons_of_mem _ hs)

/-- Bytes at which no section opens may be passed. -/
theorem skip {next : Nat} {spans : List (Nat × Nat)} (hn : start ≤ next)
    (hs : ∀ i, start ≤ i → i < next → matchSection bytes i = none)
    (h : SectionSpans bytes next spans) : SectionSpans bytes start spans := by
  constructor
  · intro span hm
    exact Nat.le_trans hn (h.later span hm)
  · exact h.matched
  · exact h.apart
  · intro i hi hb hout
    by_cases hlt : i < next
    · exact hs i hi hlt
    · exact h.outside i (by omega) hb hout

/-- The first section that is chosen is the first that can be. -/
theorem first_le {a : Nat × Nat} {as bs : List (Nat × Nat)}
    (ha : SectionSpans bytes start (a :: as)) (hb : SectionSpans bytes start bs) :
    ∃ b rest, bs = b :: rest ∧ b.1 ≤ a.1 := by
  have hm := ha.matched a List.mem_cons_self
  have hcover : ∃ span ∈ bs, span.1 ≤ a.1 ∧ a.1 ≤ span.2 := by
    apply Classical.byContradiction
    intro hn
    have ho := hb.outside a.1 (ha.later a List.mem_cons_self) (opening_of_matchSection hm)
      (fun span hs hc => hn ⟨span, hs, hc⟩)
    rw [hm] at ho
    cases ho
  obtain ⟨span, hs, hle, -⟩ := hcover
  cases bs with
  | nil => cases hs
  | cons b rest =>
    refine ⟨b, rest, rfl, ?_⟩
    rcases List.mem_cons.mp hs with rfl | hs
    · exact hle
    · have hlt := lt_of_matchSection (hb.matched b List.mem_cons_self)
      have hap := (List.pairwise_cons.mp hb.apart).1 span hs
      omega

theorem unique {as bs : List (Nat × Nat)} (ha : SectionSpans bytes start as)
    (hb : SectionSpans bytes start bs) : as = bs := by
  induction as generalizing start bs with
  | nil =>
    cases bs with
    | nil => rfl
    | cons b rest =>
      obtain ⟨_, _, h, -⟩ := hb.first_le ha
      cases h
  | cons a as ih =>
    obtain ⟨b, rest, rfl, hle⟩ := ha.first_le hb
    obtain ⟨_, _, he, hge⟩ := hb.first_le ha
    obtain ⟨rfl, rfl⟩ := List.cons.inj he
    have h1 : a.1 = b.1 := Nat.le_antisymm hge hle
    have hm := ha.matched a List.mem_cons_self
    rw [h1, hb.matched b List.mem_cons_self] at hm
    have hab : a = b := Prod.ext h1 (Option.some.inj hm).symm
    subst hab
    rw [ih ha.tail hb.tail]

end SectionSpans

def spansFrom (start : Nat) : List Segment → List (Nat × Nat)
  | [] => []
  | .literal text :: rest => spansFrom (start + byteSize text) rest
  | .bracketed content :: rest =>
    (start, start + byteSize content + 1) :: spansFrom (start + byteSize content + 2) rest

def sectionSpans (pattern : List Char) : List (Nat × Nat) := spansFrom 0 (segments false pattern)

theorem spansFrom_consLiteral (start : Nat) (c : Char) (segments : List Segment) :
    spansFrom start (Segment.consLiteral c segments) =
      spansFrom (start + c.utf8Size) segments := by
  cases segments with
  | nil => rfl
  | cons segment rest =>
    cases segment with
    | literal text => simp [Segment.consLiteral, spansFrom, byteSize, Nat.add_assoc]
    | bracketed content => simp [Segment.consLiteral, spansFrom, byteSize]

/-- The byte of a bracket among the bytes of a character. -/
theorem getElem_spread {c d : Char} (hc : c.toNat < 0x80) {i : Nat}
    (h : (spread [d])[i]? = some c) : d = c ∧ i = 0 := by
  rcases mem_spread (List.mem_of_getElem? h) with rfl | hh
  · rw [spread_ascii hc] at h
    cases i with
    | zero => exact ⟨rfl, rfl⟩
    | succ i => cases h
  · omega

theorem getElem_utf8 {c : Char} (hc : c.toNat < 0x80) (before : List Char) (d : Char)
    (rest : List Char) {i : Nat} (hi : byteSize before ≤ i) (hlt : i < byteSize before + d.utf8Size)
    (h : (utf8 (before ++ d :: rest))[i]? = some c.toUInt8) : d = c ∧ i = byteSize before := by
  have hs : (spread [d])[i - byteSize before]? = some c := by
    have he := congrArg (Option.map Char.ofUInt8) h
    have hl := length_spread before
    have hd := length_spread [d]
    rw [← List.getElem?_map, Option.map_some, (ofUInt8_iff hc _).mpr rfl] at he
    change (spread (before ++ ([d] ++ rest)))[i]? = some c at he
    simp only [byteSize, Nat.add_zero] at hd
    rwa [spread_append, spread_append, List.getElem?_append_right (by omega), hl,
      List.getElem?_append_left (by omega)] at he
  obtain ⟨rfl, h0⟩ := getElem_spread hc hs
  exact ⟨rfl, by omega⟩

/-- An ASCII byte is a character wherever it is met. -/
theorem exists_split {c : Char} (hc : c.toNat < 0x80) {text : List Char} {i : Nat}
    (h : (utf8 text)[i]? = some c.toUInt8) :
    ∃ before rest, text = before ++ c :: rest ∧ byteSize before = i := by
  induction text generalizing i with
  | nil => cases h
  | cons d text ih =>
    by_cases hi : i < d.utf8Size
    · obtain ⟨rfl, rfl⟩ :=
        getElem_utf8 hc [] d text (Nat.zero_le i) (by simpa [byteSize] using hi) h
      exact ⟨[], text, rfl, rfl⟩
    · have hd : (utf8 [d]).length = d.utf8Size := length_utf8 [d]
      have hr : (utf8 ([d] ++ text))[i]? = some c.toUInt8 := h
      rw [utf8_append, List.getElem?_append_right (by omega), hd] at hr
      obtain ⟨before, rest, rfl, hb⟩ := ih hr
      refine ⟨d :: before, rest, rfl, ?_⟩
      rw [byteSize, hb]
      omega

theorem sectionSpans_segments (before : List Char) (afterBracket : Bool) (text : List Char)
    (hb : endsIn '[' false before = afterBracket) :
    SectionSpans (utf8 (before ++ text)) (byteSize before)
      (spansFrom (byteSize before) (segments afterBracket text)) := by
  fun_induction segments afterBracket text generalizing before with
  | case1 afterBracket =>
    constructor
    · exact List.forall_mem_nil _
    · exact List.forall_mem_nil _
    · exact List.Pairwise.nil
    · intro i hi h
      have hlt := (List.getElem?_eq_some_iff.mp h).1
      rw [List.append_nil, length_utf8] at hlt
      omega
  | case2 afterBracket c r content rest h ih =>
    have he := openSection_append h
    have hm := matchSection_utf8 before (c :: r)
    rw [hb, h] at hm
    have hi := ih (before ++ ('[' :: content ++ [']'])) (by
      rw [← List.append_assoc, endsIn_concat]
      rfl)
    have hsize : byteSize (before ++ ('[' :: content ++ [']'])) =
        byteSize before + byteSize content + 1 + 1 := by
      simp only [byteSize_append, byteSize, List.cons_append]
      have h1 : '['.utf8Size = 1 := rfl
      have h2 : ']'.utf8Size = 1 := rfl
      omega
    have htext : before ++ ('[' :: content ++ [']']) ++ rest = before ++ c :: r := by
      rw [← he]
      simp
    rw [hsize, htext] at hi
    exact SectionSpans.cons hm hi
  | case3 afterBracket c r h ih =>
    have hi := ih (before ++ [c]) (endsIn_concat '[' false before c)
    rw [byteSize_append, List.append_assoc, List.singleton_append] at hi
    rw [spansFrom_consLiteral]
    apply SectionSpans.skip (Nat.le_add_right _ _) _ hi
    intro i hge hlt
    apply matchSection_eq_none
    intro ho
    obtain ⟨rfl, rfl⟩ := getElem_utf8 (by decide) before c r hge hlt ho
    rw [matchSection_utf8, hb, h]
    rfl

theorem sectionSpans_spec (pattern : List Char) :
    SectionSpans (utf8 pattern) 0 (sectionSpans pattern) :=
  sectionSpans_segments [] false pattern rfl

-- A bracket that is never closed leaves the brackets behind it to themselves.
example : sectionSpans "[a [b] [[c]]".toList = [(3, 5)] := by decide +kernel

end MessagePattern
