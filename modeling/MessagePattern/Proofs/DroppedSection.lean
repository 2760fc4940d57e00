import MessagePattern.Proofs.SectionExchange
import MessagePattern.Proofs.SectionPass

/-!
# Sections that are gone

A section that is dropped leaves neither text nor a count behind. When its
content is exchanged for another one that is dropped as well, the brackets
around it still pair in the same way, and each of the other sections is decided
as before.
-/

set_option autoImplicit false

namespace MessagePattern

theorem byteSize_write_bracketed (content : List Char) :
    byteSize (Segment.write (.bracketed content)) = byteSize content + 2 :=
  byteSize_enclosed content []

theorem spansFrom_append (start : Nat) (before after : List Segment) :
    spansFrom start (before ++ after) = spansFrom start before ++
      spansFrom (start + byteSize (before.flatMap Segment.write)) after := by
  induction before generalizing start with
  | nil => rfl
  | cons segment before ih =>
    rw [List.flatMap_cons, byteSize_append, ← Nat.add_assoc]
    cases segment with
    | literal text => exact ih _
    | bracketed content =>
      rw [byteSize_write_bracketed]
      exact congrArg _ (ih _)

theorem spansFrom_add (more start : Nat) (segments : List Segment) :
    spansFrom (more + start) segments =
      (spansFrom start segments).map fun span => (more + span.1, more + span.2) := by
  induction segments generalizing start with
  | nil => rfl
  | cons segment rest ih =>
    cases segment with
    | literal text =>
      rw [spansFrom, spansFrom, Nat.add_assoc]
      exact ih _
    | bracketed content =>
      rw [spansFrom, spansFrom, List.map_cons, ← ih]
      simp only [Nat.add_assoc]

def relocate (f : Nat → Nat) (ruling : (Nat × Nat) × Decision) : (Nat × Nat) × Decision :=
  ((f ruling.1.1, f ruling.1.2), ruling.2)

namespace Arguments

def positionBehind (arguments : Arguments) (position : Nat) : List Segment → Nat
  | [] => position
  | .literal text :: rest =>
    arguments.positionBehind (position + keylessCount (pieces false text)) rest
  | .bracketed content :: rest =>
    arguments.positionBehind (arguments.positionAfter position content) rest

theorem resolve_append (arguments : Arguments) (position : Nat) (before after : List Segment) :
    arguments.resolve position (before ++ after) = arguments.resolve position before ++
      arguments.resolve (arguments.positionBehind position before) after := by
  induction before generalizing position with
  | nil => rfl
  | cons segment before ih =>
    cases segment with
    | literal text =>
      rw [List.cons_append, resolve, resolve, ih, List.append_assoc]
      rfl
    | bracketed content =>
      rw [List.cons_append, resolve_bracketed, resolve_bracketed, ih, List.append_assoc]
      rfl

theorem keptTexts_bracketed (arguments : Arguments) (position : Nat) (content : List Char)
    (rest : List Segment) :
    arguments.keptTexts position (.bracketed content :: rest) =
      (if arguments.keeps position (pieces false content) then [content] else []) ++
        arguments.keptTexts (arguments.positionAfter position content) rest := by
  by_cases h : arguments.keeps position (pieces false content) = true <;>
    simp [keptTexts, positionAfter, h]

theorem decisions_append (arguments : Arguments) (position : Nat) (parts : List (List Char))
    (before after : List Segment) :
    arguments.decisions position parts (before ++ after) =
      arguments.decisions position parts before ++
        arguments.decisions (arguments.positionBehind position before)
          (parts ++ arguments.keptTexts position before) after := by
  induction before generalizing position parts with
  | nil => rw [List.nil_append, keptTexts, List.append_nil]; rfl
  | cons segment before ih =>
    cases segment with
    | literal text =>
      rw [List.cons_append, decisions, decisions, ih, keptTexts, List.append_assoc]
      rfl
    | bracketed content =>
      rw [List.cons_append, decisions_bracketed, decisions_bracketed, ih, keptTexts_bracketed]
      by_cases h : arguments.keeps position (pieces false content) = true <;>
        simp [h, positionBehind]

theorem rulings_append (arguments : Arguments) (start position : Nat)
    (parts : List (List Char)) (before after : List Segment) :
    arguments.rulings start position parts (before ++ after) =
      arguments.rulings start position parts before ++
        arguments.rulings (start + byteSize (before.flatMap Segment.write))
          (arguments.positionBehind position before)
          (parts ++ arguments.keptTexts position before) after := by
  rw [rulings, spansFrom_append, decisions_append,
    List.zip_append (length_decisions arguments position start parts before).symm]
  rfl

/-- The segments around a section that is decided, and what it is decided by. -/
theorem segments_of_rulings {arguments : Arguments} {start position : Nat}
    {parts : List (List Char)} {segments : List Segment} {span : Nat × Nat} {d : Decision}
    {first later : List ((Nat × Nat) × Decision)}
    (h : arguments.rulings start position parts segments = first ++ (span, d) :: later) :
    ∃ before after, segments = before ++ .bracketed d.content :: after ∧
      first = arguments.rulings start position parts before ∧
      span.1 = start + byteSize (before.flatMap Segment.write) ∧
      span.2 = span.1 + byteSize d.content + 1 ∧
      d.counter = arguments.positionBehind position before ∧
      d.kept = arguments.keeps d.counter (pieces false d.content) := by
  induction segments generalizing start position parts first with
  | nil => cases first <;> cases h
  | cons segment rest ih =>
    cases segment with
    | literal text =>
      obtain ⟨before, after, rfl, rfl, h1, hd⟩ := ih h
      refine ⟨.literal text :: before, after, rfl, rfl, ?_, hd⟩
      rw [h1, List.flatMap_cons, byteSize_append, Nat.add_assoc]
      rfl
    | bracketed content =>
      rw [rulings_bracketed] at h
      cases first with
      | nil =>
        cases h
        exact ⟨[], rest, rfl, rfl, rfl, rfl, rfl, rfl⟩
      | cons head first =>
        obtain ⟨rfl, hr⟩ := List.cons.inj h
        obtain ⟨before, after, rfl, rfl, h1, hd⟩ := ih hr
        refine ⟨.bracketed content :: before, after, rfl, (rulings_bracketed ..).symm, ?_, hd⟩
        rw [h1, List.flatMap_cons, byteSize_append, byteSize_write_bracketed]
        omega

/-- Decisions do not depend on where the segments stand. -/
theorem rulings_add (arguments : Arguments) (more start position : Nat)
    (parts : List (List Char)) (segments : List Segment) :
    arguments.rulings (more + start) position parts segments =
      (arguments.rulings start position parts segments).map (relocate (more + ·)) := by
  rw [rulings, spansFrom_add, rulings, List.zip_map_left]
  rfl

section
variable {arguments : Arguments} {position : Nat} {before : List Segment} {content : List Char}

theorem resolve_dropped (after : List Segment)
    (h : arguments.keeps (arguments.positionBehind position before)
      (pieces false content) = false) :
    arguments.resolve position (before ++ .bracketed content :: after) =
      arguments.resolve position (before ++ after) := by
  simp [resolve_append, resolve_bracketed, keptContent, positionAfter, h]

theorem rulings_dropped (start : Nat) (parts : List (List Char)) (after : List Segment)
    (h : arguments.keeps (arguments.positionBehind position before)
      (pieces false content) = false) :
    let opening := start + byteSize (before.flatMap Segment.write)
    let closing := opening + byteSize content + 1
    let counter := arguments.positionBehind position before
    let passed := parts ++ arguments.keptTexts position before
    arguments.rulings start position parts (before ++ .bracketed content :: after) =
      arguments.rulings start position parts before ++
        ((opening, closing), ⟨passed, counter, content, false⟩) ::
          (arguments.rulings 1 counter passed after).map (relocate (closing + ·)) := by
  intro opening closing counter passed
  rw [← rulings_add, rulings_append, rulings_bracketed, positionAfter, h]
  rfl

end

end Arguments

theorem relocate_moved (pre c c' : List Char) : relocate (moved pre c c') ∘
      relocate (byteSize pre + byteSize c + 1 + ·) =
    relocate (byteSize pre + byteSize c' + 1 + ·) := by
  funext ruling
  simp only [Function.comp_apply, relocate, moved_behind]

def Lacking (arguments : Arguments) (position : Nat) (content : String) : Prop :=
  ∃ (i : Nat) (t : Token), (tokens content)[i]? = some t ∧ t.placeholder.optional = true ∧
    ∀ v, arguments.get? (t.key position ((tokens content).take i)) = some v → v.isEmpty = true

theorem Lacking.dropped {arguments : Arguments} {position : Nat} {content : List Char}
    (h : Lacking arguments position (String.ofList content)) :
    arguments.keeps position (pieces false content) = false := by
  rw [← Bool.not_eq_true, keeps_iff]
  intro hs
  obtain ⟨i, t, ht, ho, he⟩ := h
  obtain ⟨v, hv, hn⟩ := hs i t ht ho
  rw [he v hv] at hn
  cases hn

/-- A section that is chosen and dropped may have any other content that makes it a
section and lets it be dropped. The text that is left is the same, all other brackets
pair as before, and all other sections are decided as before, from the same counts. -/
theorem resolveSections_dropped {pre c c' post : List Char} {arguments : Arguments}
    {first later : List ((Nat × Nat) × Decision)} {d : Decision}
    (hchosen : (sectionSpans (pre ++ enclosed c post)).zip
        (arguments.decisions 0 [] (segments false (pre ++ enclosed c post))) =
      first ++ ((byteSize pre, byteSize pre + byteSize c + 1), d) :: later)
    (hdropped : d.kept = false)
    (hmatch : matchSection (utf8 (pre ++ enclosed c' post)) (byteSize pre) =
      some (byteSize pre + byteSize c' + 1))
    (hlacking : Lacking arguments d.counter (String.ofList c')) :
    arguments.resolveSections (pre ++ enclosed c' post) =
        arguments.resolveSections (pre ++ enclosed c post) ∧
      (∀ start, start ≤ byteSize pre ∨ byteSize pre + byteSize c < start →
        matchSection (utf8 (pre ++ enclosed c' post)) (moved pre c c' start) =
          (matchSection (utf8 (pre ++ enclosed c post)) start).map (moved pre c c')) ∧
      (sectionSpans (pre ++ enclosed c' post)).zip
          (arguments.decisions 0 [] (segments false (pre ++ enclosed c' post))) =
        first ++ ((byteSize pre, byteSize pre + byteSize c' + 1), { d with content := c' }) ::
          later.map (relocate (moved pre c c')) := by
  obtain ⟨hopen, hw⟩ := (matchSection_enclosed pre c post).mp <|
    (sectionSpans_spec _).matched _ (List.of_mem_zip (hchosen ▸ List.mem_append_cons_self)).1
  obtain ⟨-, hw'⟩ := (matchSection_enclosed pre c' post).mp hmatch
  obtain ⟨before, after, hs, hfirst, hstart, hstop, hcounter, hkept⟩ :=
    Arguments.segments_of_rulings hchosen
  -- By their sizes, the segments fall into the same three parts as the pattern.
  have htext : before.flatMap Segment.write ++ enclosed d.content (after.flatMap Segment.write) =
      pre ++ enclosed c post := by
    rw [← flatMap_write_segments false (pre ++ enclosed c post), hs]
    simp [Segment.write, enclosed]
  rw [Nat.zero_add] at hstart
  obtain ⟨rfl, he⟩ := append_inj_of_byteSize htext hstart.symm
  obtain ⟨hcontent, -⟩ := append_inj_of_byteSize (List.cons.inj he).2 (by omega)
  rw [hcontent] at hs hkept
  have hs' := segments_exchange hw hw' rfl hopen hs
  have hk := hkept.symm.trans hdropped
  have hk' := hlacking.dropped
  rw [hcounter] at hk hk'
  constructor
  · rw [Arguments.resolveSections, Arguments.resolveSections, hs, hs',
      Arguments.resolve_dropped after hk, Arguments.resolve_dropped after hk']
  · constructor
    · intro start hside
      exact matchSection_moved hw hw' hopen hside
    · change arguments.rulings 0 0 [] _ = _ at hchosen ⊢
      rw [hs, Arguments.rulings_dropped 0 [] after hk, hfirst, Nat.zero_add] at hchosen
      obtain ⟨hd, hlater⟩ := List.cons.inj (List.append_cancel_left hchosen)
      rw [hs', Arguments.rulings_dropped 0 [] after hk', hfirst, Nat.zero_add, ← hlater,
        ← (Prod.mk.inj hd).2, List.map_map, relocate_moved]

theorem resolveSections_dropped_nested :
    let arguments := Arguments.ofValues [.text "v"]
    let pre := "a [ {} ".toList
    let post := " [{0}?]".toList
    let pattern := pre ++ enclosed "{}?".toList post
    let d : Decision := ⟨[pre], 1, "{}?".toList, false⟩
    let later : Decision := ⟨[pre, [' ']], 1, "{0}?".toList, true⟩
    (sectionSpans pattern).zip (arguments.decisions 0 [] (segments false pattern)) =
        [((7, 11), d), ((13, 18), later)] ∧
      matchSection (utf8 (pre ++ enclosed "é [q] {}?".toList post)) 7 = some 18 ∧
      Lacking arguments 1 "é [q] {}?" ∧
      arguments.resolveSections (pre ++ enclosed "é [q] {}?".toList post) =
        "a [ {}  {0}?".toList := by
  intro arguments pre post pattern d later
  have hchosen : (sectionSpans pattern).zip (arguments.decisions 0 [] (segments false pattern)) =
      [] ++ ((7, 11), d) :: [((13, 18), later)] := by
    decide +kernel
  have hmatch : matchSection (utf8 (pre ++ enclosed "é [q] {}?".toList post)) 7 = some 18 := by
    decide +kernel
  have hlacking : Lacking arguments 1 "é [q] {}?" := by
    refine ⟨0, ⟨7, 10, { optional := true }⟩, by decide +kernel, rfl, ?_⟩
    have hnone : arguments.get? (.index 1) = none := by decide +kernel
    intro v hv
    exact absurd (hnone.symm.trans hv) (Option.some_ne_none v).symm
  refine ⟨hchosen, hmatch, hlacking, ?_⟩
  rw [(resolveSections_dropped hchosen rfl hmatch hlacking).1]
  decide +kernel

end MessagePattern
