import MessagePattern.Proofs.Seams

/-!
# Positions of keyless placeholders

Sections are decided while the text is still in parts, and the parts are read
one by one. The message is made from the joined text. Where braces of two
parts meet, a placeholder may be formed or broken, and the position that a
section was decided with is off by those that carry no key.
-/

set_option autoImplicit false

namespace MessagePattern
open Placeholder

structure Decision where
  parts : List (List Char)
  counter : Nat
  content : List Char
  kept : Bool
  deriving DecidableEq

def Segment.text : Segment → List Char
  | .literal text => text
  | .bracketed content => content

def Segment.content? : Segment → Option (List Char)
  | .literal _ => none
  | .bracketed content => some content

namespace Arguments

def decisions (arguments : Arguments) (counter : Nat) (parts : List (List Char)) :
    List Segment → List Decision
  | [] => []
  | .literal text :: rest =>
    arguments.decisions (counter + keylessCount (pieces false text)) (parts ++ [text]) rest
  | .bracketed content :: rest =>
    if arguments.keeps counter (pieces false content) then
      ⟨parts, counter, content, true⟩ ::
        arguments.decisions (counter + keylessCount (pieces false content)) (parts ++ [content])
          rest
    else ⟨parts, counter, content, false⟩ :: arguments.decisions counter parts rest

def keptTexts (arguments : Arguments) (counter : Nat) : List Segment → List (List Char)
  | [] => []
  | .literal text :: rest =>
    text :: arguments.keptTexts (counter + keylessCount (pieces false text)) rest
  | .bracketed content :: rest =>
    if arguments.keeps counter (pieces false content) then
      content :: arguments.keptTexts (counter + keylessCount (pieces false content)) rest
    else arguments.keptTexts counter rest

theorem flatten_keptTexts (arguments : Arguments) (counter : Nat) (segments : List Segment) :
    (arguments.keptTexts counter segments).flatten = arguments.resolve counter segments := by
  induction segments generalizing counter with
  | nil => rfl
  | cons segment rest ih =>
    cases segment with
    | literal text => rw [keptTexts, resolve, List.flatten_cons, ih]
    | bracketed content =>
      by_cases hk : arguments.keeps counter (pieces false content) = true
      · rw [keptTexts, resolve, if_pos hk, if_pos hk, List.flatten_cons, ih]
      · rw [keptTexts, resolve, if_neg hk, if_neg hk, ih]

/-- Every section is decided, and in their order. -/
theorem decisions_content (arguments : Arguments) (counter : Nat) (parts : List (List Char))
    (segments : List Segment) :
    (arguments.decisions counter parts segments).map Decision.content =
      segments.filterMap Segment.content? := by
  induction segments generalizing counter parts with
  | nil => rfl
  | cons segment rest ih =>
    cases segment with
    | literal text => exact ih _ _
    | bracketed content =>
      by_cases hk : arguments.keeps counter (pieces false content) = true
      · rw [decisions, if_pos hk, List.map_cons, ih]
        rfl
      · rw [decisions, if_neg hk, List.map_cons, ih]
        rfl

theorem text_of_mem_keptTexts {arguments : Arguments} {counter : Nat} {segments : List Segment}
    {text : List Char} (h : text ∈ arguments.keptTexts counter segments) :
    ∃ segment ∈ segments, segment.text = text := by
  induction segments generalizing counter with
  | nil => cases h
  | cons segment rest ih =>
    have hlater : ∀ n, text ∈ arguments.keptTexts n rest →
        ∃ s ∈ segment :: rest, s.text = text := by
      intro n hn
      obtain ⟨s, hs, ht⟩ := ih hn
      exact ⟨s, List.mem_cons_of_mem _ hs, ht⟩
    cases segment with
    | literal t =>
      rcases List.mem_cons.mp h with he | hm
      · exact ⟨_, List.mem_cons_self, he.symm⟩
      · exact hlater _ hm
    | bracketed content =>
      by_cases hk : arguments.keeps counter (pieces false content) = true
      · rw [keptTexts, if_pos hk] at h
        rcases List.mem_cons.mp h with he | hm
        · exact ⟨_, List.mem_cons_self, he.symm⟩
        · exact hlater _ hm
      · rw [keptTexts, if_neg hk] at h
        exact hlater _ h

end Arguments

/-- What a decision rests on: the counter counts the parts as they are read by
themselves, and the parts are the beginning of the text that is left. -/
theorem Arguments.decisions_spec {arguments : Arguments} {counter : Nat}
    {parts : List (List Char)} {segments : List Segment} {d : Decision}
    (hc : counter = (tokensIn 0 parts).countP Token.isKeyless)
    (hd : d ∈ arguments.decisions counter parts segments) :
    d.counter = (tokensIn 0 d.parts).countP Token.isKeyless ∧
      d.kept = arguments.keeps d.counter (pieces false d.content) ∧
      ∃ more, parts ++ arguments.keptTexts counter segments =
        d.parts ++ ((if d.kept then [d.content] else []) ++ more) := by
  -- the counter is the number of keyless placeholders in the parts, each read by itself
  induction segments generalizing counter parts with
  | nil => cases hd
  | cons segment rest ih =>
    cases segment with
    | literal text =>
      have hi := ih (by rw [countP_tokensIn_concat, hc]) hd
      rw [List.append_assoc] at hi
      exact hi
    | bracketed content =>
      by_cases hk : arguments.keeps counter (pieces false content) = true
      · rw [decisions, if_pos hk] at hd
        rw [keptTexts, if_pos hk]
        rcases List.mem_cons.mp hd with he | hm
        · rw [he]
          exact ⟨hc, hk.symm, _, rfl⟩
        · have hi := ih (by rw [countP_tokensIn_concat, hc]) hm
          rw [List.append_assoc] at hi
          exact hi
      · rw [decisions, if_neg hk] at hd
        rw [keptTexts, if_neg hk]
        rcases List.mem_cons.mp hd with he | hm
        · rw [he]
          exact ⟨hc, (Bool.not_eq_true _ ▸ hk).symm, _, rfl⟩
        · exact ih hc hm

theorem nodup_of_starts {ts : List Token} (h : ts.Pairwise (fun s t => s.start < t.start)) :
    ts.Nodup := by
  apply h.imp
  intro s t hst he
  rw [he] at hst
  exact Nat.lt_irrefl _ hst

/-- Of two lists without repetitions, each has what both have and what it has alone. -/
theorem countP_alone {ss ts : List Token} (hs : ss.Nodup) (ht : ts.Nodup) (f : Token → Bool) :
    ss.countP f + (ts.filter (· ∉ ss)).countP f = ts.countP f + (ss.filter (· ∉ ts)).countP f := by
  have hboth : (ss.filter (· ∈ ts)).Perm (ts.filter (· ∈ ss)) := by
    apply (List.perm_ext_iff_of_nodup (hs.filter _) (ht.filter _)).mpr
    intro t
    simp only [List.mem_filter, decide_eq_true_eq]
    exact and_comm
  have hss := List.countP_eq_countP_filter_add ss f (· ∈ ts)
  have hts := List.countP_eq_countP_filter_add ts f (· ∈ ss)
  have hc := hboth.countP_eq f
  simp only [← decide_not] at hss hts
  omega

namespace Decision

def found (text : List Char) (d : Decision) : List Token :=
  (tokens (String.ofList text)).filter (fun t => t.start < byteSize d.parts.flatten)

def own (d : Decision) : List Token := tokensIn 0 d.parts

def formed (text : List Char) (d : Decision) : List Token := (d.found text).filter (· ∉ d.own)

def broken (text : List Char) (d : Decision) : List Token := d.own.filter (· ∉ d.found text)

def tested (d : Decision) : List (Placeholder × Key) := keyed d.counter (pieces false d.content)

theorem found_eq (text : List Char) (d : Decision) :
    d.found text = (tokensFrom 0 (pieces false text)).filter
      (fun t => t.start < 0 + byteSize d.parts.flatten) := by
  rw [found, tokens, String.toList_ofList, Nat.zero_add]

theorem pairwise_found (text : List Char) (d : Decision) :
    (d.found text).Pairwise (fun s t => s.start < t.start) := by
  rw [found_eq]
  exact (pairwise_tokensFrom 0 _).filter _

theorem pairwise_own (d : Decision) : d.own.Pairwise (fun s t => s.start < t.start) :=
  pairwise_tokensIn 0 d.parts

theorem found_balance (text : List Char) (d : Decision) :
    (d.found text).countP Token.isKeyless + (d.broken text).countP Token.isKeyless =
      d.own.countP Token.isKeyless + (d.formed text).countP Token.isKeyless := by
  exact countP_alone (nodup_of_starts (d.pairwise_found text)) (nodup_of_starts d.pairwise_own) _

/-- Nothing is formed and nothing broken if and only if the placeholders are the same. -/
theorem unbroken_iff (text : List Char) (d : Decision) :
    d.formed text = [] ∧ d.broken text = [] ↔ d.found text = d.own := by
  have hfound := d.pairwise_found text
  have hown := d.pairwise_own
  constructor
  · intro h
    obtain ⟨hf, hb⟩ := h
    simp only [formed, broken, List.filter_eq_nil_iff, decide_eq_true_eq,
      Decidable.not_not] at hf hb
    have hperm : (d.found text).Perm d.own := by
      apply (List.perm_ext_iff_of_nodup (nodup_of_starts hfound) (nodup_of_starts hown)).mpr
      intro t
      exact ⟨hf t, hb t⟩
    apply hperm.eq_of_pairwise _ hfound hown
    intro s t _ _ hst hts
    omega
  · intro h
    rw [formed, broken, h]
    simp

end Decision

/-- Where the content is read at its place as by itself, it is rendered under the
keys it was tested under, provided that the counter is right. -/
theorem keyed_tested {d : Decision} {text : List Char} {before after : List Piece}
    (hc : d.counter = (d.found text).countP Token.isKeyless)
    (hp : pieces false text = before ++ (pieces false d.content ++ after))
    (hw : written before = d.parts.flatten) :
    keyed 0 (pieces false text) = keyed 0 before ++
      (d.tested ++ keyed (d.counter + keylessCount (pieces false d.content)) after) := by
  have hn : keylessCount before = d.counter := by
    rw [hc, Decision.found_eq, ← hw, hp, tokensFrom_before, countP_tokensFrom]
  rw [hp, keyed_append, keyed_append, Nat.zero_add, hn]
  rfl

/-- The text that is left, cut at a section. -/
theorem resolveSections_cut {arguments : Arguments} {pattern : List Char} {d : Decision}
    (hd : d ∈ arguments.decisions 0 [] (segments false pattern)) :
    d.counter = d.own.countP Token.isKeyless ∧
      d.kept = (d.tested.all fun e => !e.1.optional || arguments.fills e.2) ∧
      ∃ more, arguments.keptTexts 0 (segments false pattern) = d.parts ++ more ∧
        arguments.resolveSections pattern = d.parts.flatten ++ more.flatten ∧
        (d.kept = true → ∃ others, more = d.content :: others) := by
  have h0 : 0 = (tokensIn 0 []).countP Token.isKeyless := rfl
  obtain ⟨hc, hk, more, hm⟩ := Arguments.decisions_spec h0 hd
  rw [List.nil_append] at hm
  constructor
  · exact hc
  · constructor
    · rw [hk, keeps_keyed]
      rfl
    · apply Exists.intro _
      constructor
      · exact hm
      · constructor
        · rw [Arguments.resolveSections, ← arguments.flatten_keptTexts, hm, List.flatten_append]
        · intro hkept
          rw [hkept]
          exact ⟨more, rfl⟩

/-- Where all text is closed, counters and keys are right. -/
theorem counter_of_closed {arguments : Arguments} {pattern : List Char} {d : Decision}
    (h : ∀ segment ∈ segments false pattern, Closed segment.text)
    (hd : d ∈ arguments.decisions 0 [] (segments false pattern)) :
    d.counter = (d.found (arguments.resolveSections pattern)).countP Token.isKeyless ∧
      (d.kept = true → ∃ before after, written before = d.parts.flatten ∧
        keyed 0 (pieces false (arguments.resolveSections pattern)) =
          keyed 0 before ++ (d.tested ++ after)) := by
  obtain ⟨hc, -, more, hm, ht, hk⟩ := resolveSections_cut hd
  have hclosed : ∀ text ∈ d.parts ++ more, Closed text := by
    intro text hx
    rw [← hm] at hx
    obtain ⟨segment, hs, he⟩ := Arguments.text_of_mem_keptTexts hx
    rw [← he]
    exact h segment hs
  have hfound : d.found (arguments.resolveSections pattern) = d.own := by
    rw [Decision.found_eq, ht]
    exact (tokensBefore_eq_iff 0 false _ d.parts).mpr (seamless_of_closed hclosed)
  have hcounter : d.counter =
      (d.found (arguments.resolveSections pattern)).countP Token.isKeyless := by
    rw [hfound, hc]
  constructor
  · exact hcounter
  · intro hkept
    obtain ⟨others, ho⟩ := hk hkept
    rw [ho, List.append_cons] at hclosed
    have hp := pieces_seamless (seamless_of_closed hclosed)
    rw [List.flatMap_append, List.flatten_append, List.append_assoc, List.append_assoc] at hp
    have ht' : arguments.resolveSections pattern =
        d.parts.flatten ++ ([d.content].flatten ++ others.flatten) := by
      rw [ht, ho]
      simp
    rw [← ht', List.flatMap_singleton] at hp
    exact ⟨_, _, written_flatMap d.parts, keyed_tested hcounter hp (written_flatMap d.parts)⟩

/-- For every section of a pattern, the counter is the number of keyless placeholders
that the final text has before it if and only if as many of them are formed as broken
where the parts meet. -/
theorem counter_eq_iff (arguments : Arguments) (pattern : List Char) {d : Decision}
    (hd : d ∈ arguments.decisions 0 [] (segments false pattern)) :
    let text := arguments.resolveSections pattern
    (d.counter = (d.found text).countP Token.isKeyless ↔
        (d.formed text).countP Token.isKeyless = (d.broken text).countP Token.isKeyless) ∧
      (∃ rest, text = d.parts.flatten ++ rest ∧
        (d.formed text = [] ∧ d.broken text = [] ↔ Seamless false rest d.parts)) ∧
      d.kept = (d.tested.all fun e => !e.1.optional || arguments.fills e.2) ∧
      (d.counter = (d.found text).countP Token.isKeyless →
        ∀ before after, pieces false text = before ++ (pieces false d.content ++ after) →
          written before = d.parts.flatten →
            keyed 0 (pieces false text) = keyed 0 before ++
              (d.tested ++ keyed (d.counter + keylessCount (pieces false d.content)) after)) := by
  obtain ⟨hc, hk, more, -, ht, -⟩ := resolveSections_cut hd
  intro text
  have hb := d.found_balance text
  constructor
  · constructor
    · intro he
      omega
    · intro he
      omega
  · constructor
    · apply Exists.intro more.flatten
      constructor
      · exact ht
      · show d.formed (arguments.resolveSections pattern) = [] ∧
          d.broken (arguments.resolveSections pattern) = [] ↔ _
        rw [d.unbroken_iff, Decision.found_eq, ht]
        exact tokensBefore_eq_iff 0 false _ d.parts
    · constructor
      · exact hk
      · intro he before after hp hw
        exact keyed_tested he hp hw

theorem counter_eq_iff_greeting :
    let arguments := Arguments.ofValues [.text "a", .text "b"]
    let d : Decision := ⟨["{} ".toList], 1, "{}?".toList, true⟩
    d ∈ arguments.decisions 0 [] (segments false "{} [{}?]".toList) ∧
      d.counter = (d.found "{} {}?".toList).countP Token.isKeyless := by
  intro arguments d
  have hd : d ∈ arguments.decisions 0 [] (segments false "{} [{}?]".toList) := by
    have he : arguments.decisions 0 [] (segments false "{} [{}?]".toList) = [d] := by
      decide +kernel
    rw [he]
    exact List.mem_singleton.mpr rfl
  have hi := (counter_eq_iff arguments "{} [{}?]".toList hd).1
  have ht : arguments.resolveSections "{} [{}?]".toList = "{} {}?".toList := by
    decide +kernel
  rw [ht] at hi
  constructor
  · exact hd
  · apply hi.mpr
    decide +kernel

/-- A brace and the content of the first section form a placeholder. The second
section is kept for an argument that is not empty, and rendered with the next one. -/
theorem counter_behind :
    let arguments := Arguments.ofValues [.text "a", .text ""]
    let text := arguments.resolveSections "{[}][-{}?]".toList
    let d : Decision := ⟨[['{'], ['}']], 0, "-{}?".toList, true⟩
    d ∈ arguments.decisions 0 [] (segments false "{[}][-{}?]".toList) ∧
      (d.found text).countP Token.isKeyless = 1 ∧
      d.tested = [({ optional := true }, .index 0)] ∧
      keyed 0 (pieces false text) = [({}, .index 0), ({ optional := true }, .index 1)] ∧
      format "{[}][-{}?]" arguments = .ok "a-" := by
  intro arguments text d
  have hd : arguments.decisions 0 [] (segments false "{[}][-{}?]".toList) =
      [⟨[['{']], 0, ['}'], true⟩, d] := by
    decide +kernel
  have hr : arguments.resolveSections "{[}][-{}?]".toList = "{}-{}?".toList := by
    decide +kernel
  have ht : text = "{}-{}?".toList := hr
  rw [hd, ht]
  constructor
  · exact List.mem_cons_of_mem _ List.mem_cons_self
  · constructor
    · decide +kernel
    · constructor
      · decide +kernel
      · constructor
        · decide +kernel
        · with_unfolding_all rfl

end MessagePattern
