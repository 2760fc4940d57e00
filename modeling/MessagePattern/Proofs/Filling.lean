import MessagePattern.Proofs.Failures
import MessagePattern.Proofs.Readings
import MessagePattern.Proofs.Splicing

/-!
# Filling placeholders

The placeholders of a text are filled from left to right. Each takes the key
that is written in it, or else the number of keyless ones before it, and either
all of them are replaced in their places or the first failure is the result.
-/

set_option autoImplicit false

namespace MessagePattern
open Placeholder

def Token.key (position : Nat) (earlier : List Token) (t : Token) : Key :=
  t.placeholder.keyAt (position + earlier.countP Token.isKeyless)

def Token.replacement (t : Token) (text : List Char) : Replacement :=
  ⟨t.start, t.stop, String.ofList text⟩

inductive Yields (arguments : Arguments) (options : Options) (p : Placeholder) (key : Key) :
    Except Error (List Char) → Prop
  | present {v : Value} (h : arguments.get? key = some v) :
      Yields arguments options p key (v.render p.modifiers options)
  | void (h : arguments.get? key = none) (hq : p.conjunction = some "?") :
      Yields arguments options p key (.ok "void".toList)
  | missing (h : arguments.get? key = none) (hq : p.conjunction ≠ some "?") :
      Yields arguments options p key (.error (.missingPlaceholder key arguments.keys))

def Outcome (arguments : Arguments) (options : Options) (ts : List Token) (i : Nat)
    (result : Except Error (List Char)) : Prop :=
  ∃ t, ts[i]? = some t ∧
    Yields arguments options t.placeholder (t.key 0 (ts.take i)) result

theorem yields_iff (arguments : Arguments) (options : Options) (p : Placeholder) (key : Key)
    (result : Except Error (List Char)) :
    Yields arguments options p key result ↔ p.fill arguments options key = result := by
  have hquery : p.isTypeQuery = true ↔ p.conjunction = some "?" := beq_iff_eq
  constructor
  · intro h
    cases h with
    | present h => simp [fill, h]
    | void h hq => simp [fill, h, hquery, hq]
    | missing h hq => simp [fill, h, hquery, hq]
  · intro h
    rw [← h, fill]
    cases ha : arguments.get? key with
    | some v => exact .present ha
    | none =>
      by_cases hq : p.isTypeQuery = true
      · simpa [hq] using Yields.void ha (hquery.mp hq)
      · simpa [hq] using Yields.missing ha (mt hquery.mpr hq)

/-- The placeholder with a number and the key it takes. -/
theorem getElem_keyed (start position : Nat) (ps : List Piece) (i : Nat) :
    (keyed position ps)[i]? = (tokensFrom start ps)[i]?.map fun t =>
      (t.placeholder, t.key position ((tokensFrom start ps).take i)) := by
  induction ps generalizing start position i with
  | nil => simp [keyed, tokensFrom]
  | cons piece ps ih =>
    cases piece with
    | char c => exact ih _ position i
    | token p =>
      cases i with
      | zero => simp [keyed, tokensFrom, Token.key]
      | succ i =>
        rw [keyed, tokensFrom, List.getElem?_cons_succ, List.getElem?_cons_succ, ih]
        congr 1
        funext t
        by_cases hk : p.key.isNone = true <;>
          simp [Token.key, Token.isKeyless, advance, hk, Nat.add_assoc, Nat.add_comm 1]

theorem length_keyed (start position : Nat) (ps : List Piece) :
    (keyed position ps).length = (tokensFrom start ps).length := by
  induction ps generalizing start position with
  | nil => rfl
  | cons piece ps ih =>
    cases piece with
    | char c => exact ih _ position
    | token p => exact congrArg Nat.succ (ih _ _)

theorem outcome_iff {arguments : Arguments} {options : Options} {ps : List Piece} {i : Nat}
    {e : Placeholder × Key} (he : (keyed 0 ps)[i]? = some e)
    (result : Except Error (List Char)) :
    Outcome arguments options (tokensFrom 0 ps) i result ↔
      fillUnder arguments options e = result := by
  rw [getElem_keyed 0] at he
  obtain ⟨t, ht, rfl⟩ := Option.map_eq_some_iff.mp he
  rw [fillUnder, ← yields_iff]
  constructor
  · intro h
    obtain ⟨u, hu, hy⟩ := h
    cases ht.symm.trans hu
    exact hy
  · intro h
    exact ⟨t, ht, h⟩

theorem fillPieces_ok {arguments : Arguments} {options : Options} {ps : List Piece}
    {texts : List (List Char)} (hl : texts.length = (tokensFrom 0 ps).length)
    (h : ∀ i new, texts[i]? = some new →
      Outcome arguments options (tokensFrom 0 ps) i (.ok new)) :
    arguments.fillPieces options 0 ps = .ok (weave ps texts) := by
  have hm : (keyed 0 ps).mapM (fillUnder arguments options) = .ok texts := by
    rw [mapM_eq_ok, List.forall₂_iff_get]
    refine ⟨(length_keyed 0 0 ps).trans hl.symm, fun i hi hn => ?_⟩
    exact (outcome_iff (List.getElem?_eq_getElem hi) _).mp (h i _ (List.getElem?_eq_getElem hn))
  rw [fillPieces_keyed, hm]
  rfl

theorem fillPieces_error {arguments : Arguments} {options : Options} {ps : List Piece} {i : Nat}
    {e : Error} (h : Outcome arguments options (tokensFrom 0 ps) i (.error e))
    (hb : ∀ j, j < i → ∃ new, Outcome arguments options (tokensFrom 0 ps) j (.ok new)) :
    arguments.fillPieces options 0 ps = .error e := by
  have hi : i < (keyed 0 ps).length := by
    obtain ⟨t, ht, -⟩ := h
    rw [length_keyed 0]
    exact (List.getElem?_eq_some_iff.mp ht).1
  have hm : (keyed 0 ps).mapM (fillUnder arguments options) = .error e := by
    have hs : keyed 0 ps = (keyed 0 ps).take i ++ (keyed 0 ps)[i] :: (keyed 0 ps).drop (i + 1) := by
      rw [← List.drop_eq_getElem_cons, List.take_append_drop]
    rw [mapM_eq_error]
    refine ⟨_, _, _, hs, ?_, ?_⟩
    · exact (outcome_iff (List.getElem?_eq_getElem hi) _).mp h
    · intro f hf
      obtain ⟨j, hj, hf⟩ := List.mem_take_iff_getElem.mp hf
      obtain ⟨new, hn⟩ := hb j (by omega)
      exact ⟨new, (outcome_iff (List.getElem?_eq_some_iff.mpr ⟨_, hf⟩) _).mp hn⟩
  rw [fillPieces_keyed, hm]
  rfl

/-- No placeholder begins before the one in front of it ends. -/
theorem apart_tokensFrom (start : Nat) (ps : List Piece) :
    (tokensFrom start ps).Pairwise (fun s t => s.stop ≤ t.start) := by
  induction ps generalizing start with
  | nil => exact List.Pairwise.nil
  | cons piece ps ih =>
    cases piece with
    | char c => exact ih _
    | token p => exact List.Pairwise.cons (fun t ht => (mem_tokensFrom ht).1) (ih _)

/-- `pending` has been passed since the last placeholder and is not yet copied. -/
theorem splice_weave (done pending : List Char) (ps : List Piece) (texts : List (List Char))
    (h : texts.length = (tokensFrom (byteSize (done ++ pending)) ps).length) :
    splice (String.ofList (done ++ pending ++ written ps)) (byteSize done)
        (List.zipWith Token.replacement (tokensFrom (byteSize (done ++ pending)) ps) texts) =
      String.ofList (pending ++ weave ps texts) := by
  -- `done` is copied already, and `pending` has been passed since the last placeholder
  induction ps generalizing done pending texts with
  | nil =>
    have hs := splice_nil done pending
    simpa [written, weave, tokensFrom] using hs
  | cons piece ps ih =>
    cases piece with
    | char c =>
      have hc : byteSize (done ++ (pending ++ [c])) = byteSize (done ++ pending) + c.utf8Size := by
        simp [byteSize_append, byteSize, Nat.add_assoc]
      have hi := ih done (pending ++ [c]) texts
      rw [hc] at hi
      simpa [written, weave, tokensFrom, Piece.write] using hi h
    | token p =>
      cases texts with
      | nil => cases h
      | cons text texts =>
        have hp : byteSize (done ++ pending ++ p.write) =
            byteSize (done ++ pending) + byteSize p.write := byteSize_append _ _
        have hi := ih (done ++ pending ++ p.write) [] texts
        rw [List.append_nil, List.nil_append] at hi
        have hw : done ++ pending ++ written (.token p :: ps) =
            done ++ pending ++ p.write ++ written ps := (List.append_assoc _ _ _).symm
        rw [hw, tokensFrom, ← hp, List.zipWith_cons_cons, Token.replacement, splice_cons,
          hi (by rw [hp]; exact Nat.succ.inj h), weave, String.ofList_append,
          String.ofList_append, String.append_assoc]

/-- Filling a text replaces each placeholder in its place by what it yields, and copies
all else. If one of them fails, the first failure is the result, whatever comes behind. -/
theorem fillPieces_outcomes (text : String) (arguments : Arguments) (options : Options) :
    let ts := tokens text
    let message := (arguments.fillPieces options 0 (pieces false text.toList)).map String.ofList
    ts.Pairwise (fun s t => s.stop ≤ t.start) ∧
      (∀ i, i < ts.length → ∃! result, Outcome arguments options ts i result) ∧
      (∀ texts : List (List Char), texts.length = ts.length →
        (∀ i new, texts[i]? = some new → Outcome arguments options ts i (.ok new)) →
        message = .ok (splice text 0 (List.zipWith Token.replacement ts texts))) ∧
      (∀ i e, Outcome arguments options ts i (.error e) →
        (∀ j, j < i → ∃ new, Outcome arguments options ts j (.ok new)) →
        message = .error e) := by
  intro ts message
  constructor
  · exact apart_tokensFrom 0 _
  · constructor
    · intro i hi
      have hk : i < (keyed 0 (pieces false text.toList)).length := by
        rw [length_keyed 0]
        exact hi
      have ho : ∀ result, Outcome arguments options ts i result ↔ _ = result :=
        outcome_iff (List.getElem?_eq_getElem hk)
      refine ⟨_, (ho _).mpr rfl, ?_⟩
      intro result hr
      exact ((ho result).mp hr).symm
    · constructor
      · intro texts hl ht
        have hs := splice_weave [] [] (pieces false text.toList) texts hl
        rw [written_pieces, List.nil_append, List.nil_append, String.ofList_toList] at hs
        show (arguments.fillPieces options 0 _).map String.ofList = _
        rw [fillPieces_ok hl ht]
        exact congrArg Except.ok hs.symm
      · intro i e he hb
        show (arguments.fillPieces options 0 _).map String.ofList = _
        rw [fillPieces_error he hb]
        rfl

-- The second placeholder fails before the third one, which would fail as well.
example :
    (Arguments.ofValues [.text "a"]).fillPieces .standard 0 (pieces false "{} {3} {}".toList) =
      .error (.missingPlaceholder (.index 3) [.index 0]) := by
  with_unfolding_all rfl

end MessagePattern
