import MessagePattern.Proofs.Filling
import MessagePattern.Proofs.OffsetPlaceholders

/-!
# Leftmost placeholders

The placeholders of a text are found one behind the other. Wherever else a
placeholder could begin, one that begins further left is in the way.
-/

set_option autoImplicit false

namespace MessagePattern
open Placeholder

theorem write_ends (p : Placeholder) : ∃ s c, p.write = s ++ [c] ∧ (c = '}' ∨ c = '?') := by
  unfold write
  cases p.optional with
  | true => exact ⟨_ ++ ['}'], '?', (List.append_assoc _ ['}'] ['?']).symm, .inr rfl⟩
  | false => exact ⟨_, '}', rfl, .inl rfl⟩

theorem exists_split_of_mem {start : Nat} {afterBrace : Bool} {text : List Char} {t : Token}
    (h : t ∈ tokensFrom start (pieces afterBrace text)) :
    ∃ before after, text = before ++ (t.placeholder.write ++ after) ∧
      t.start = start + byteSize before ∧ t.stop = t.start + byteSize t.placeholder.write ∧
      open? (endsIn '{' afterBrace before) (t.placeholder.write ++ after) =
        some (t.placeholder, after) := by
  fun_induction pieces afterBrace text generalizing start with
  | case1 => cases h
  | case2 afterBrace c r p rest ho ih =>
    have hw := write_append_of_open? ho
    rcases List.mem_cons.mp h with rfl | h
    · exact ⟨[], rest, hw.symm, rfl, rfl, by rwa [hw]⟩
    · obtain ⟨before, after, he, hstart, hstop, hopen⟩ := ih h
      refine ⟨p.write ++ before, after, by rw [← hw, he, List.append_assoc], ?_, hstop, ?_⟩
      · rw [hstart, byteSize_append, Nat.add_assoc]
      · rwa [endsIn_append, endsIn_write]
  | case3 afterBrace c r ho ih =>
    obtain ⟨before, after, he, hstart, hstop, hopen⟩ := ih h
    refine ⟨c :: before, after, by rw [he]; rfl, ?_, hstop, hopen⟩
    rw [hstart, byteSize, Nat.add_assoc]

theorem parseAt?_split {text : String} {before rest : List Char}
    (ht : text.toList = before ++ rest) :
    Placeholder.parseAt? text (byteSize before) =
      (open? (endsIn '{' false before) rest).map
        fun (p, _) => ⟨byteSize before, byteSize before + byteSize p.write, p⟩ := by
  rw [Placeholder.parseAt?, ht, Offsets.openAt_split]

theorem parseAt?_of_mem {text : String} {t : Token} (h : t ∈ tokens text) :
    Placeholder.parseAt? text t.start = some t := by
  obtain ⟨before, after, ht, hstart, hstop, hopen⟩ := exists_split_of_mem h
  rw [Nat.zero_add] at hstart
  rw [hstart, parseAt?_split ht, hopen, ← hstart]
  dsimp only [Option.map_some]
  rw [← hstop]

open Offsets in
/-- The bytes around a placeholder. -/
theorem peek_of_mem {text : String} {t : Token} (h : t ∈ tokens text) :
    t.start < t.stop ∧ peek (bytesOf text) t.start = some '{' ∧
      (peek (bytesOf text) (t.stop - 1) = some '}' ∨
        peek (bytesOf text) (t.stop - 1) = some '?') := by
  obtain ⟨before, after, ht, hstart, hstop, -⟩ := exists_split_of_mem h
  rw [Nat.zero_add] at hstart
  obtain ⟨s, c, hw, hc⟩ := write_ends t.placeholder
  have hascii : c.toNat < 0x80 := by rcases hc with rfl | rfl <;> decide
  have hfirst : At text t.start (t.placeholder.write ++ after) := ⟨before, ht, hstart.symm⟩
  have hlast : At text (t.start + byteSize s) (c :: after) := by
    rw [hw, List.append_assoc] at hfirst
    exact hfirst.drop
  have hend : t.stop = t.start + byteSize s + 1 := by
    rw [hstop, hw, byteSize_append, byteSize, utf8Size_of_ascii hascii, byteSize, Nat.add_assoc]
  have hpeek := (hlast.peek_eq_some hascii).mpr rfl
  rw [hend, Nat.add_sub_cancel]
  refine ⟨by omega, (hfirst.peek_eq_some (by decide)).mpr rfl, ?_⟩
  rcases hc with rfl | rfl
  · exact .inl hpeek
  · exact .inr hpeek

/-- A place where a placeholder could be read is where one begins, or lies inside of one. -/
theorem covered (start : Nat) {afterBrace : Bool} {before after left : List Char}
    {p : Placeholder}
    (h : open? (endsIn '{' afterBrace before) after = some (p, left)) :
    ∃ t ∈ tokensFrom start (pieces afterBrace (before ++ after)),
      t.start = start + byteSize before ∨
        t.start < start + byteSize before ∧ start + byteSize before < t.stop := by
  generalize ht : before ++ after = text
  fun_induction pieces afterBrace text generalizing start before with
  | case1 =>
    obtain ⟨rfl, rfl⟩ := List.append_eq_nil_iff.mp ht
    have hw := write_append_of_open? h
    exact absurd (List.append_eq_nil_iff.mp hw).1 (Piece.token p).write_ne_nil
  | case2 afterBrace c r first rest ho ih =>
    have hw := write_append_of_open? ho
    rw [← hw] at ht
    -- the place lies in the placeholder that is found here, or behind it
    have hsplit : byteSize before < byteSize first.write ∨
        ∃ m, before = first.write ++ m ∧ rest = m ++ after := by
      rcases List.append_eq_append_iff.mp ht with ⟨m, hm, ha⟩ | hm
      · cases m with
        | nil => exact .inr ⟨[], by rw [hm]; simp, ha.symm⟩
        | cons d m =>
          have hpos := byteSize_pos (List.cons_ne_nil d m)
          left
          rw [hm, byteSize_append]
          omega
      · exact .inr hm
    rcases hsplit with hlt | ⟨m, rfl, rfl⟩
    · refine ⟨_, List.mem_cons_self, ?_⟩
      dsimp only
      omega
    · rw [endsIn_append, endsIn_write] at h
      obtain ⟨t, hm, hcover⟩ := ih _ h rfl
      rw [byteSize_append, ← Nat.add_assoc]
      exact ⟨t, List.mem_cons_of_mem _ hm, hcover⟩
  | case3 afterBrace c r ho ih =>
    cases before with
    | nil =>
      rw [List.nil_append] at ht
      rw [ht] at h
      cases ho.symm.trans h
    | cons d before =>
      obtain ⟨rfl, hr⟩ := List.cons.inj ht
      obtain ⟨t, hm, hcover⟩ := ih _ h hr
      rw [byteSize, ← Nat.add_assoc]
      exact ⟨t, hm, hcover⟩

theorem covered_tokens {text : String} {q : Nat} {t : Token}
    (h : Placeholder.parseAt? text q = some t) :
    t ∈ tokens text ∧ t.start = q ∨ ∃ s ∈ tokens text, s.start < q ∧ q < s.stop := by
  rw [Placeholder.parseAt?, Option.map_eq_some_iff] at h
  obtain ⟨⟨p, left⟩, ho, rfl⟩ := h
  obtain ⟨before, after, ht, rfl, hopen⟩ := (openAt_iff _ _ _ _ _).mp ho
  obtain ⟨s, hs, hcover⟩ := covered 0 hopen
  rw [← ht] at hs
  rw [Nat.zero_add] at hcover
  rcases hcover with hstart | hinside
  · left
    have hparse := parseAt?_of_mem hs
    rw [hstart, parseAt?_split ht, hopen] at hparse
    cases hparse
    exact ⟨hs, hstart⟩
  · exact .inr ⟨s, hs, hinside⟩

namespace Offsets

inductive Iterates (text : String) : Nat → List Token → Prop
  | done {pos : Nat} (h : next text pos = .ok none) : Iterates text pos []
  | found {pos : Nat} {t : Token} {ts : List Token} (h : next text pos = .ok (some t))
      (later : Iterates text t.stop ts) : Iterates text pos (t :: ts)

theorem iterates_of_tokensAt {text : String} {pos : Nat} {ts : List Token}
    (h : tokensAt text pos = .ok ts) : Iterates text pos ts := by
  induction hn : text.utf8ByteSize - pos using Nat.strong_induction_on generalizing pos ts with
  | _ n ih =>
    rw [tokensAt] at h
    cases hnext : next text pos with
    | error fault =>
      rw [hnext] at h
      cases h
    | ok found =>
      rw [hnext, ok_bind] at h
      cases found with
      | none =>
        cases h
        exact .done hnext
      | some t =>
        dsimp only at h
        split at h
        · rename_i hlt
          cases hlater : tokensAt text t.stop with
          | error fault =>
            rw [hlater] at h
            cases h
          | ok later =>
            rw [hlater] at h
            cases h
            exact .found hnext (ih _ (by omega) hlater rfl)
        · cases h

theorem Iterates.unique {text : String} {pos : Nat} {ts found : List Token}
    (h : Iterates text pos ts) (hf : Iterates text pos found) : found = ts := by
  induction h generalizing found with
  | done h =>
    cases hf with
    | done => rfl
    | found h' =>
      rw [h] at h'
      cases h'
  | found h _ ih =>
    cases hf with
    | done h' =>
      rw [h] at h'
      cases h'
    | found h' later =>
      rw [h] at h'
      cases h'
      rw [ih later]

theorem iterates_iff {text : String} (hs : Fits text) (found : List Token) :
    Iterates text 0 found ↔ found = tokens text := by
  have h := iterates_of_tokensAt (tokensAt_zero hs)
  constructor
  · exact h.unique
  · rintro rfl
    exact h

end Offsets

open Offsets in
/-- The placeholders of a text are read where they stand, from an opening brace to a closing brace
or a question mark, each behind the one before it. Wherever a placeholder can be read, it is one of
them or begins inside of one. The search from each of them for the next one ends, and these are
what it finds. -/
theorem tokens_leftmost (text : String) :
    let ts := tokens text
    (∀ t ∈ ts, Placeholder.parseAt? text t.start = some t) ∧
      (∀ t ∈ ts, t.start < t.stop ∧ peek (bytesOf text) t.start = some '{' ∧
        (peek (bytesOf text) (t.stop - 1) = some '}' ∨
          peek (bytesOf text) (t.stop - 1) = some '?')) ∧
      ts.Pairwise (fun s t => s.start < t.start ∧ s.stop ≤ t.start) ∧
      (∀ q t, Placeholder.parseAt? text q = some t →
        t ∈ ts ∧ t.start = q ∨ ∃ s ∈ ts, s.start < q ∧ q < s.stop) ∧
      (Fits text → ∀ found, Iterates text 0 found ↔ found = ts) := by
  intro ts
  refine ⟨fun t => parseAt?_of_mem, fun t => peek_of_mem, ?_, fun q t => covered_tokens,
    fun hs => iterates_iff hs⟩
  exact (pairwise_tokensFrom 0 _).and (apart_tokensFrom 0 _)

/-- A brace that opens nothing stands in front of a placeholder, and another placeholder could be
read in the conjunction of it. -/
def nested : String := "\x7ba\x7bb:x\x7bc\x7d ü\x7b\x7d?"

open Offsets in
theorem tokens_leftmost_nested :
    let outer : Placeholder := { key := some (.name "b"), conjunction := some "x\x7bc" }
    let inner : Placeholder := { key := some (.name "c") }
    Fits nested ∧ Placeholder.parseAt? nested 6 = some ⟨6, 9, inner⟩ ∧
      ⟨6, 9, inner⟩ ∉ tokens nested ∧
      (∃ s ∈ tokens nested, s.start < 6 ∧ 6 < s.stop) ∧
      (∀ found, Iterates nested 0 found ↔
        found = [⟨2, 9, outer⟩, ⟨12, 15, { optional := true }⟩]) := by
  intro outer inner
  have hs : Fits nested := by
    unfold Fits
    decide
  have htokens : tokens nested = [⟨2, 9, outer⟩, ⟨12, 15, { optional := true }⟩] := by
    decide +kernel
  have hparse : Placeholder.parseAt? nested 6 = some ⟨6, 9, inner⟩ := by
    decide +kernel
  have hnot : ⟨6, 9, inner⟩ ∉ tokens nested := by
    rw [htokens]
    decide
  obtain ⟨-, -, -, hcovered, hiterates⟩ := tokens_leftmost nested
  rw [← htokens]
  refine ⟨hs, hparse, hnot, ?_, hiterates hs⟩
  exact (hcovered 6 _ hparse).resolve_left fun h => hnot h.1

end MessagePattern
