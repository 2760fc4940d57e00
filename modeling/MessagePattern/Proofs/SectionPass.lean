import MessagePattern.Proofs.Filling
import MessagePattern.Proofs.Positions
import MessagePattern.Proofs.SectionSpans

/-!
# The pass over the sections

A pattern is gone through in rounds, each of some literal text and the section
behind it, and some literal text is left at the end. What becomes of a round
depends on the rounds before it by one number only, which counts the keyless
placeholders of literal text and of kept contents.
-/

set_option autoImplicit false

namespace MessagePattern

structure Round where
  literal : List Char
  content : List Char

def literalOf (text : List Char) : List Segment :=
  if text = [] then [] else [.literal text]

def assemble (last : List Char) : List Round → List Segment
  | [] => literalOf last
  | round :: rounds =>
    literalOf round.literal ++ .bracketed round.content :: assemble last rounds

theorem consLiteral_literalOf (c : Char) (text : List Char) :
    Segment.consLiteral c (literalOf text) = literalOf (c :: text) := by
  by_cases h : text = [] <;> simp [literalOf, Segment.consLiteral, h]

theorem consLiteral_assemble (c : Char) (round : Round) (last : List Char)
    (rounds : List Round) :
    Segment.consLiteral c (assemble last (round :: rounds)) =
      assemble last (⟨c :: round.literal, round.content⟩ :: rounds) := by
  by_cases h : round.literal = [] <;> simp [assemble, literalOf, Segment.consLiteral, h]

/-- No two literal segments stand side by side. -/
theorem exists_rounds (afterBracket : Bool) (text : List Char) :
    ∃ last rounds, segments afterBracket text = assemble last rounds := by
  fun_induction segments afterBracket text with
  | case1 => exact ⟨[], [], rfl⟩
  | case2 afterBracket c r content rest h ih =>
    obtain ⟨last, rounds, hr⟩ := ih
    exact ⟨last, ⟨[], content⟩ :: rounds, by rw [hr]; rfl⟩
  | case3 afterBracket c r h ih =>
    obtain ⟨last, rounds, hr⟩ := ih
    cases rounds with
    | nil => exact ⟨c :: last, [], by rw [hr]; exact consLiteral_literalOf c last⟩
    | cons round rounds => exact ⟨last, _, by rw [hr]; exact consLiteral_assemble c round last rounds⟩

namespace Arguments

def keptContent (arguments : Arguments) (position : Nat) (content : List Char) : List Char :=
  if arguments.keeps position (pieces false content) then content else []

def positionAfter (arguments : Arguments) (position : Nat) (content : List Char) : Nat :=
  if arguments.keeps position (pieces false content) then
    position + keylessCount (pieces false content)
  else position

end Arguments

section
variable (arguments : Arguments) (start position : Nat) (text : List Char)
  (rest : List Segment)

theorem write_literalOf : (literalOf text ++ rest).flatMap Segment.write =
    text ++ rest.flatMap Segment.write := by
  by_cases h : text = [] <;> simp [literalOf, Segment.write, h]

theorem spansFrom_literalOf :
    spansFrom start (literalOf text ++ rest) = spansFrom (start + byteSize text) rest := by
  by_cases h : text = [] <;> simp [literalOf, spansFrom, byteSize, h]

theorem decisions_literalOf (parts : List (List Char)) :
    arguments.decisions position parts (literalOf text ++ rest) =
      arguments.decisions (position + keylessCount (pieces false text))
        (parts ++ (literalOf text).map Segment.text) rest := by
  by_cases h : text = []
  · simp [literalOf, h, pieces_nil, keylessCount]
  · simp [literalOf, Arguments.decisions, Segment.text, h]

theorem resolve_literalOf :
    arguments.resolve position (literalOf text ++ rest) =
      text ++ arguments.resolve (position + keylessCount (pieces false text)) rest := by
  by_cases h : text = []
  · simp [literalOf, h, pieces_nil, keylessCount]
  · simp [literalOf, Arguments.resolve, h]

theorem rewriteFrom_literalOf (output : Option (List Char)) :
    arguments.rewriteFrom position output [] (literalOf text ++ rest) =
      arguments.rewriteFrom position output text rest := by
  by_cases h : text = [] <;> simp [literalOf, Arguments.rewriteFrom, h]

theorem decisions_bracketed (parts : List (List Char)) :
    arguments.decisions position parts (.bracketed text :: rest) =
      ⟨parts, position, text, arguments.keeps position (pieces false text)⟩ ::
        arguments.decisions (arguments.positionAfter position text)
          (if arguments.keeps position (pieces false text) then parts ++ [text] else parts)
          rest := by
  by_cases h : arguments.keeps position (pieces false text) = true <;>
    simp [Arguments.decisions, Arguments.positionAfter, h]

theorem resolve_bracketed :
    arguments.resolve position (.bracketed text :: rest) =
      arguments.keptContent position text ++
        arguments.resolve (arguments.positionAfter position text) rest := by
  by_cases h : arguments.keeps position (pieces false text) = true <;>
    simp [Arguments.resolve, Arguments.positionAfter, Arguments.keptContent, h]

theorem rewriteFrom_bracketed (output : Option (List Char)) (literal : List Char) :
    let before := position + keylessCount (pieces false literal)
    arguments.rewriteFrom position output literal (.bracketed text :: rest) =
      arguments.rewriteFrom (arguments.positionAfter before text)
        (some (output.getD [] ++ literal ++ arguments.keptContent before text)) [] rest := by
  intro before
  by_cases h : arguments.keeps before (pieces false text) = true <;>
    simp [Arguments.rewriteFrom, Arguments.positionAfter, Arguments.keptContent, before, h]

end

theorem rewriteFrom_some (arguments : Arguments) (position : Nat) (output last : List Char)
    (rounds : List Round) :
    arguments.rewriteFrom position (some output) [] (assemble last rounds) =
      some (output ++ arguments.resolve position (assemble last rounds)) := by
  induction rounds generalizing position output with
  | nil =>
    rw [assemble, ← List.append_nil (literalOf last), rewriteFrom_literalOf, resolve_literalOf]
    simp [Arguments.rewriteFrom, Arguments.resolve]
  | cons round rounds ih =>
    rw [assemble, rewriteFrom_literalOf, rewriteFrom_bracketed, ih, resolve_literalOf,
      resolve_bracketed]
    simp

theorem rewriteFrom_none (arguments : Arguments) (last : List Char) (rounds : List Round) :
    arguments.rewriteFrom 0 none [] (assemble last rounds) =
      if rounds = [] then none else some (arguments.resolve 0 (assemble last rounds)) := by
  cases rounds with
  | nil =>
    rw [assemble, ← List.append_nil (literalOf last), rewriteFrom_literalOf]
    rfl
  | cons round rounds =>
    rw [assemble, rewriteFrom_literalOf, rewriteFrom_bracketed, rewriteFrom_some,
      resolve_literalOf, resolve_bracketed]
    simp

/-- A pattern that need not be changed is the text itself. -/
theorem rewriteSections_getD (arguments : Arguments) (pattern : List Char) :
    (arguments.rewriteSections? pattern).getD pattern = arguments.resolveSections pattern := by
  obtain ⟨last, rounds, hr⟩ := exists_rounds false pattern
  have hw := flatMap_write_segments false pattern
  rw [Arguments.rewriteSections?, Arguments.resolveSections, hr, rewriteFrom_none]
  by_cases h : rounds = []
  · subst h
    have hl := resolve_literalOf arguments 0 last []
    have hw' := write_literalOf last []
    rw [hr] at hw
    rw [List.append_nil] at hl hw'
    rw [if_pos rfl, Option.getD_none, ← hw, assemble, hl, hw']
    rfl
  · rw [if_neg h]
    rfl

def Arguments.rulings (arguments : Arguments) (start position : Nat) (parts : List (List Char))
    (segments : List Segment) : List ((Nat × Nat) × Decision) :=
  (spansFrom start segments).zip (arguments.decisions position parts segments)

theorem rulings_literalOf (arguments : Arguments) (start position : Nat)
    (parts : List (List Char)) (text : List Char) (rest : List Segment) :
    arguments.rulings start position parts (literalOf text ++ rest) =
      arguments.rulings (start + byteSize text) (position + keylessCount (pieces false text))
        (parts ++ (literalOf text).map Segment.text) rest := by
  rw [Arguments.rulings, spansFrom_literalOf, decisions_literalOf]
  rfl

theorem rulings_bracketed (arguments : Arguments) (start position : Nat)
    (parts : List (List Char)) (content : List Char) (rest : List Segment) :
    let kept := arguments.keeps position (pieces false content)
    arguments.rulings start position parts (.bracketed content :: rest) =
      ((start, start + byteSize content + 1), ⟨parts, position, content, kept⟩) ::
        arguments.rulings (start + byteSize content + 2)
          (arguments.positionAfter position content)
          (if kept then parts ++ [content] else parts) rest := by
  intro kept
  rw [Arguments.rulings, decisions_bracketed, spansFrom, List.zip_cons_cons]
  rfl

theorem rulings_round (arguments : Arguments) (start position : Nat) (parts : List (List Char))
    (round : Round) (last : List Char) (rounds : List Round) :
    let opening := start + byteSize round.literal
    let before := position + keylessCount (pieces false round.literal)
    let kept := arguments.keeps before (pieces false round.content)
    let passed := parts ++ (literalOf round.literal).map Segment.text
    arguments.rulings start position parts (assemble last (round :: rounds)) =
      ((opening, opening + byteSize round.content + 1), ⟨passed, before, round.content, kept⟩) ::
        arguments.rulings (opening + byteSize round.content + 2)
          (arguments.positionAfter before round.content)
          (if kept then passed ++ [round.content] else passed) (assemble last rounds) := by
  intro opening before kept passed
  rw [assemble, rulings_literalOf, rulings_bracketed]

theorem rulings_last (arguments : Arguments) (start position : Nat) (parts : List (List Char))
    (last : List Char) : arguments.rulings start position parts (assemble last []) = [] := by
  rw [assemble, ← List.append_nil (literalOf last), rulings_literalOf]
  rfl

theorem append_round (done : List Char) (round : Round) (last : List Char)
    (rounds : List Round) :
    done ++ (assemble last (round :: rounds)).flatMap Segment.write =
      done ++ round.literal ++ ('[' :: round.content ++ [']']) ++
        (assemble last rounds).flatMap Segment.write := by
  rw [assemble, write_literalOf, List.append_assoc, List.append_assoc]
  rfl

theorem byteSize_round (done literal content : List Char) :
    byteSize (done ++ literal ++ ('[' :: content ++ [']'])) =
      byteSize done + byteSize literal + byteSize content + 2 := by
  have h1 : '['.utf8Size = 1 := rfl
  have h2 : ']'.utf8Size = 1 := rfl
  simp only [byteSize_append, byteSize, List.cons_append]
  omega

/-- The two texts of a round, by their bytes. -/
theorem slice_round (done literal content rest : List Char) :
    let text := String.ofList (done ++ literal ++ ('[' :: content ++ [']']) ++ rest)
    let opening := byteSize done + byteSize literal
    slice text (byteSize done) opening = String.ofList literal ∧
      slice text (opening + 1) (opening + byteSize content + 1) = String.ofList content := by
  intro text opening
  have h1 := slice_append done literal ('[' :: content ++ [']'] ++ rest)
  have h2 := slice_append (done ++ literal ++ ['[']) content (']' :: rest)
  have hb : byteSize (done ++ literal) = opening := byteSize_append done literal
  have he : byteSize ['['] = 1 := rfl
  have hs : byteSize (done ++ literal ++ ['['] ++ content) = opening + byteSize content + 1 := by
    rw [byteSize_append, byteSize_append, hb, he]
    omega
  have ht : done ++ literal ++ ['['] ++ content ++ ']' :: rest =
      done ++ literal ++ ('[' :: content ++ [']']) ++ rest := by simp
  rw [hb, ← List.append_assoc] at h1
  rw [hs, ht, byteSize_append, hb, he] at h2
  exact ⟨h1, h2⟩

def keylessIn (texts : List String) : Nat := (texts.flatMap tokens).countP Token.isKeyless

theorem keylessIn_append (texts more : List String) :
    keylessIn (texts ++ more) = keylessIn texts + keylessIn more := by
  simp [keylessIn]

theorem keylessIn_singleton (text : List Char) :
    keylessIn [String.ofList text] = keylessCount (pieces false text) := by
  simp [keylessIn, tokens, countP_tokensFrom]

def passed (pattern : String) (copied stop : Nat) : List ((Nat × Nat) × Decision) → List String
  | [] => [slice pattern copied stop]
  | (span, d) :: rest =>
    [slice pattern copied span.1] ++
      (if d.kept then [slice pattern (span.1 + 1) span.2] else []) ++
      passed pattern (span.2 + 1) stop rest

def Supplied (arguments : Arguments) (position : Nat) (content : String) : Prop :=
  ∀ (i : Nat) (t : Token), (tokens content)[i]? = some t → t.placeholder.optional = true →
    ∃ v, arguments.get? (t.key position ((tokens content).take i)) = some v ∧ v.isEmpty = false

theorem fills_iff (arguments : Arguments) (key : Key) :
    arguments.fills key = true ↔ ∃ v, arguments.get? key = some v ∧ v.isEmpty = false := by
  rw [Arguments.fills]
  cases arguments.get? key <;> simp

theorem keeps_iff (arguments : Arguments) (position : Nat) (content : List Char) :
    arguments.keeps position (pieces false content) = true ↔
      Supplied arguments position (String.ofList content) := by
  have ht : tokens (String.ofList content) = tokensFrom 0 (pieces false content) := by
    rw [tokens, String.toList_ofList]
  rw [keeps_keyed, List.all_eq_true, Supplied, ht]
  constructor
  · intro h i t hi ho
    have hm := getElem_keyed 0 position (pieces false content) i
    rw [hi] at hm
    have hf := h _ (List.mem_of_getElem? hm)
    simpa [ho, fills_iff] using hf
  · intro h e he
    obtain ⟨i, hi⟩ := List.getElem?_of_mem he
    rw [getElem_keyed 0] at hi
    obtain ⟨t, ht, rfl⟩ := Option.map_eq_some_iff.mp hi
    by_cases ho : t.placeholder.optional = true
    · simpa [ho, fills_iff] using h i t ht ho
    · simp [ho]

/-- What comes before a section decides about it by its keyless placeholders only. -/
theorem rulings_spec {arguments : Arguments} {position : Nat} {parts : List (List Char)}
    {done last : List Char} {rounds : List Round} {before after : List ((Nat × Nat) × Decision)}
    {span : Nat × Nat} {d : Decision} {pattern : String}
    (hp : pattern = String.ofList (done ++ (assemble last rounds).flatMap Segment.write))
    (h : arguments.rulings (byteSize done) position parts (assemble last rounds) =
      before ++ (span, d) :: after) :
    d.counter = position + keylessIn (passed pattern (byteSize done) span.1 before) ∧
      d.kept = arguments.keeps d.counter (pieces false d.content) ∧
      slice pattern (span.1 + 1) span.2 = String.ofList d.content := by
  induction rounds generalizing position parts done before with
  | nil =>
    rw [rulings_last] at h
    cases before <;> cases h
  | cons round rounds ih =>
    rw [append_round] at hp
    obtain ⟨hl, hc⟩ := slice_round done round.literal round.content
      ((assemble last rounds).flatMap Segment.write)
    rw [← hp] at hl hc
    rw [rulings_round] at h
    cases before with
    | nil =>
      obtain ⟨he, -⟩ := List.cons.inj h
      cases he
      rw [passed, hl, keylessIn_singleton]
      exact ⟨rfl, rfl, hc⟩
    | cons first before =>
      obtain ⟨rfl, hr⟩ := List.cons.inj h
      rw [← byteSize_round] at hr
      obtain ⟨hi, hk⟩ := ih hp hr
      constructor
      · rw [hi, passed, hl, hc, keylessIn_append, keylessIn_append, keylessIn_singleton,
          byteSize_round, Arguments.positionAfter]
        split
        · simp [keylessIn_singleton, Nat.add_assoc]
        · simp [keylessIn, Nat.add_assoc]
      · exact hk

def replacement (pattern : String) : (Nat × Nat) × Decision → Replacement
  | (span, d) => ⟨span.1, span.2 + 1, if d.kept then slice pattern (span.1 + 1) span.2 else ""⟩

theorem splice_rulings (arguments : Arguments) (position : Nat) (parts : List (List Char))
    (done last : List Char) (rounds : List Round) {pattern : String}
    (hp : pattern = String.ofList (done ++ (assemble last rounds).flatMap Segment.write)) :
    splice pattern (byteSize done)
        ((arguments.rulings (byteSize done) position parts (assemble last rounds)).map
          (replacement pattern)) =
      String.ofList (arguments.resolve position (assemble last rounds)) := by
  induction rounds generalizing position parts done with
  | nil =>
    rw [assemble, ← List.append_nil (literalOf last), write_literalOf] at hp
    rw [rulings_last, assemble, ← List.append_nil (literalOf last), resolve_literalOf, hp]
    exact splice_nil done _
  | cons round rounds ih =>
    rw [append_round] at hp
    obtain ⟨-, hc⟩ := slice_round done round.literal round.content
      ((assemble last rounds).flatMap Segment.write)
    have hs := fun new => splice_cons done round.literal ('[' :: round.content ++ [']'])
      ((assemble last rounds).flatMap Segment.write) new
    rw [byteSize_round, byteSize_append] at hs
    rw [← hp] at hc hs
    rw [rulings_round, List.map_cons, replacement, hc, hs, ← byteSize_round, ih _ _ _ hp,
      assemble, resolve_literalOf, resolve_bracketed, Arguments.keptContent]
    split <;> simp [String.ofList_append, String.append_assoc]

theorem length_spansFrom (start : Nat) (segments : List Segment) :
    (spansFrom start segments).length = (segments.filterMap Segment.content?).length := by
  induction segments generalizing start with
  | nil => rfl
  | cons segment rest ih =>
    cases segment with
    | literal text => exact ih _
    | bracketed content => exact congrArg Nat.succ (ih _)

theorem length_decisions (arguments : Arguments) (position start : Nat)
    (parts : List (List Char)) (segments : List Segment) :
    (arguments.decisions position parts segments).length = (spansFrom start segments).length := by
  rw [length_spansFrom, ← arguments.decisions_content position parts, List.length_map]

theorem spansFrom_assemble (start : Nat) (last : List Char) (rounds : List Round) :
    spansFrom start (assemble last rounds) = [] ↔ rounds = [] := by
  cases rounds with
  | nil =>
    rw [assemble, ← List.append_nil (literalOf last), spansFrom_literalOf]
    exact iff_of_true rfl rfl
  | cons round rounds =>
    rw [assemble, spansFrom_literalOf, spansFrom]
    exact iff_of_false (List.cons_ne_nil _ _) (List.cons_ne_nil _ _)

/-- The sections of a pattern are its only choice of spans in which each opening bracket
outside of all opens none. Each span gives way to its content or to nothing, by the
arguments of the marked placeholders in it, and all else is copied. New text is
made if and only if there is a section. -/
theorem resolveSections_spans (pattern : String) (arguments : Arguments) :
    let spans := sectionSpans pattern.toList
    let decisions := arguments.decisions 0 [] (segments false pattern.toList)
    let text := arguments.resolveSections pattern.toList
    (SectionSpans (utf8 pattern.toList) 0 spans ∧
        ∀ others, SectionSpans (utf8 pattern.toList) 0 others → others = spans) ∧
      decisions.length = spans.length ∧
      (∀ before span d after, spans.zip decisions = before ++ (span, d) :: after →
        d.counter = keylessIn (passed pattern 0 span.1 before) ∧
          (d.kept = true ↔
            Supplied arguments d.counter (slice pattern (span.1 + 1) span.2))) ∧
      String.ofList text = splice pattern 0 ((spans.zip decisions).map (replacement pattern)) ∧
      arguments.rewriteSections? pattern.toList = if spans = [] then none else some text := by
  intro spans decisions text
  obtain ⟨last, rounds, hr⟩ := exists_rounds false pattern.toList
  have hp : pattern =
      String.ofList ([] ++ (assemble last rounds).flatMap Segment.write) := by
    rw [← hr, flatMap_write_segments, List.nil_append, String.ofList_toList]
  constructor
  · constructor
    · exact sectionSpans_spec pattern.toList
    · intro others ho
      exact ho.unique (sectionSpans_spec pattern.toList)
  · constructor
    · exact length_decisions arguments 0 0 [] _
    · constructor
      · intro before span d after h
        have hz : arguments.rulings 0 0 [] (assemble last rounds) = before ++ (span, d) :: after := by
          rw [← hr]
          exact h
        obtain ⟨hc, hk, hs⟩ := rulings_spec hp hz
        rw [Nat.zero_add] at hc
        rw [hk, hs, keeps_iff]
        exact ⟨hc, Iff.rfl⟩
      · constructor
        · have hs := splice_rulings arguments 0 [] [] last rounds hp
          rw [← hr] at hs
          exact hs.symm
        · show arguments.rewriteFrom 0 none [] (segments false pattern.toList) =
            if spansFrom 0 (segments false pattern.toList) = [] then none
            else some (arguments.resolve 0 (segments false pattern.toList))
          rw [hr, rewriteFrom_none]
          simp only [spansFrom_assemble]

end MessagePattern
