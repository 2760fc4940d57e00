import MessagePattern.Message
import MessagePattern.Proofs.Texts

/-!
# Readings of a text

The pieces of a text carry their places and their keys along. A text that
stands in another one need not be read there as it is by itself; where it is,
the reading goes on behind it.
-/

set_option autoImplicit false

namespace MessagePattern
open Placeholder

def written (ps : List Piece) : List Char := ps.flatMap Piece.write

theorem written_append (ps qs : List Piece) : written (ps ++ qs) = written ps ++ written qs :=
  List.flatMap_append

theorem written_pieces (afterBrace : Bool) (text : List Char) :
    written (pieces afterBrace text) = text :=
  flatMap_write_pieces afterBrace text

theorem Piece.write_ne_nil (piece : Piece) : piece.write ≠ [] := by
  cases piece <;> exact List.cons_ne_nil _ _

/-- A placeholder leaves no opening brace behind. -/
theorem endsIn_write (flag : Bool) (p : Placeholder) : endsIn '{' flag p.write = false := by
  rw [write, endsIn_append]
  cases p.optional <;> rfl

theorem pieces_token {afterBrace : Bool} {text : List Char} {p : Placeholder} {ps : List Piece}
    (h : pieces afterBrace text = .token p :: ps) :
    ∃ rest, open? afterBrace text = some (p, rest) ∧ pieces false rest = ps := by
  cases text with
  | nil =>
    rw [pieces_nil] at h
    cases h
  | cons c r =>
    cases ho : open? afterBrace (c :: r) with
    | none =>
      rw [pieces_of_open?_eq_none ho] at h
      cases h
    | some found =>
      rw [pieces_of_open?_eq_some ho] at h
      cases h
      exact ⟨found.2, rfl, rfl⟩

theorem pieces_char {afterBrace : Bool} {text : List Char} {c : Char} {ps : List Piece}
    (h : pieces afterBrace text = .char c :: ps) :
    ∃ r, text = c :: r ∧ open? afterBrace text = none ∧ pieces (c == '{') r = ps := by
  cases text with
  | nil =>
    rw [pieces_nil] at h
    cases h
  | cons d r =>
    cases ho : open? afterBrace (d :: r) with
    | none =>
      rw [pieces_of_open?_eq_none ho] at h
      cases h
      exact ⟨r, rfl, rfl, rfl⟩
    | some found =>
      rw [pieces_of_open?_eq_some ho] at h
      cases h

/-- Behind pieces that come first, the reading goes on. -/
theorem pieces_behind {ps qs : List Piece} {afterBrace : Bool} {rest : List Char}
    (h : pieces afterBrace (written ps ++ rest) = ps ++ qs) :
    qs = pieces (endsIn '{' afterBrace (written ps)) rest := by
  induction ps generalizing afterBrace with
  | nil => exact h.symm
  | cons piece ps ih =>
    cases piece with
    | char c =>
      obtain ⟨r, hr, -, hp⟩ := pieces_char h
      rw [← (List.cons.inj hr).2] at hp
      exact ih hp
    | token p =>
      obtain ⟨r, ho, hp⟩ := pieces_token h
      have hw : written (.token p :: ps) = p.write ++ written ps := rfl
      have hr := write_append_of_open? ho
      rw [hw, List.append_assoc] at hr
      rw [List.append_cancel_left hr] at hp
      rw [hw, endsIn_append, endsIn_write]
      exact ih hp

theorem pieces_alike {afterBrace : Bool} {text rest : List Char}
    (h : pieces false text <+: pieces afterBrace (text ++ rest)) :
    pieces afterBrace (text ++ rest) =
      pieces false text ++ pieces (endsIn '{' afterBrace text) rest := by
  obtain ⟨qs, hq⟩ := h
  have hw := written_pieces false text
  have hb : pieces afterBrace (written (pieces false text) ++ rest) = pieces false text ++ qs := by
    rw [hw]
    exact hq.symm
  have hr := pieces_behind hb
  rw [hw] at hr
  rw [← hq, hr]

theorem tokensFrom_append (start : Nat) (ps qs : List Piece) :
    tokensFrom start (ps ++ qs) =
      tokensFrom start ps ++ tokensFrom (start + byteSize (written ps)) qs := by
  induction ps generalizing start with
  | nil => rfl
  | cons piece ps ih =>
    have hb : byteSize (written (piece :: ps)) = byteSize piece.write + byteSize (written ps) :=
      byteSize_append _ _
    rw [hb, ← Nat.add_assoc]
    cases piece with
    | char c => exact ih _
    | token p => exact congrArg (List.cons _) (ih _)

theorem mem_tokensFrom {start : Nat} {ps : List Piece} {t : Token}
    (h : t ∈ tokensFrom start ps) : start ≤ t.start ∧ t.start < start + byteSize (written ps) := by
  induction ps generalizing start with
  | nil => cases h
  | cons piece ps ih =>
    have hb : byteSize (written (piece :: ps)) = byteSize piece.write + byteSize (written ps) :=
      byteSize_append _ _
    cases piece with
    | char c =>
      have hi := ih h
      simp only [Piece.write, byteSize] at hb
      omega
    | token p =>
      have hp : 0 < byteSize p.write := byteSize_pos (Piece.token p).write_ne_nil
      simp only [Piece.write] at hb
      rcases List.mem_cons.mp h with he | hm
      · rw [he]
        show start ≤ start ∧ start < _
        omega
      · have hi := ih hm
        omega

/-- Later placeholders begin at later places. -/
theorem pairwise_tokensFrom (start : Nat) (ps : List Piece) :
    (tokensFrom start ps).Pairwise (fun s t => s.start < t.start) := by
  induction ps generalizing start with
  | nil => exact List.Pairwise.nil
  | cons piece ps ih =>
    cases piece with
    | char c => exact ih _
    | token p =>
      apply List.Pairwise.cons
      · intro t ht
        have hp : 0 < byteSize p.write := byteSize_pos (Piece.token p).write_ne_nil
        have hm := (mem_tokensFrom ht).1
        show start < t.start
        omega
      · exact ih _

/-- Placeholders of later pieces begin behind those of earlier ones, and some may begin
before a place that lies further on. -/
theorem tokensFrom_filter (start extra : Nat) (ps qs : List Piece) :
    (tokensFrom start (ps ++ qs)).filter
        (fun t => t.start < start + byteSize (written ps) + extra) =
      tokensFrom start ps ++ (tokensFrom (start + byteSize (written ps)) qs).filter
        (fun t => t.start < start + byteSize (written ps) + extra) := by
  rw [tokensFrom_append, List.filter_append]
  congr 1
  apply List.filter_eq_self.mpr
  intro t ht
  have hm := (mem_tokensFrom ht).2
  rw [decide_eq_true_eq]
  omega

theorem filter_tokensFrom_self (start : Nat) (ps : List Piece) :
    (tokensFrom start ps).filter (fun t => t.start < start) = [] := by
  apply List.filter_eq_nil_iff.mpr
  intro t ht
  have hm := (mem_tokensFrom ht).1
  rw [decide_eq_true_eq]
  omega

/-- The placeholders of the pieces before a place are those that begin before it. -/
theorem tokensFrom_before (start : Nat) (ps qs : List Piece) :
    (tokensFrom start (ps ++ qs)).filter (fun t => t.start < start + byteSize (written ps)) =
      tokensFrom start ps := by
  have hf := tokensFrom_filter start 0 ps qs
  rw [Nat.add_zero, filter_tokensFrom_self, List.append_nil] at hf
  exact hf

def Token.isKeyless (t : Token) : Bool := t.placeholder.key.isNone

theorem countP_tokensFrom (start : Nat) (ps : List Piece) :
    (tokensFrom start ps).countP Token.isKeyless = keylessCount ps := by
  induction ps generalizing start with
  | nil => rfl
  | cons piece ps ih =>
    cases piece with
    | char c => exact ih _
    | token p =>
      show (⟨_, _, p⟩ :: tokensFrom _ ps).countP Token.isKeyless = (.token p :: ps).countP _
      rw [List.countP_cons, List.countP_cons, ih]
      rfl

theorem start_lt_of_char {start : Nat} {c : Char} {ps : List Piece} {t : Token}
    (h : t ∈ tokensFrom start (.char c :: ps)) : start < t.start := by
  have hc := c.utf8Size_pos
  have hm := (mem_tokensFrom (show t ∈ tokensFrom (start + c.utf8Size) ps from h)).1
  omega

/-- Two readings with the same placeholders before the end of the shorter one
have the same pieces up to there. -/
theorem prefix_of_tokens {start : Nat} {ps qs : List Piece} {rest : List Char}
    (hw : written qs = written ps ++ rest)
    (h : (tokensFrom start qs).filter (fun t => t.start < start + byteSize (written ps)) =
      tokensFrom start ps) : ps <+: qs := by
  induction ps generalizing start qs with
  | nil => exact List.nil_prefix
  | cons piece ps ih =>
    have hb : byteSize (written (piece :: ps)) = byteSize piece.write + byteSize (written ps) :=
      byteSize_append _ _
    have hstart : start < start + byteSize (written (piece :: ps)) := by
      have hp := byteSize_pos piece.write_ne_nil
      omega
    cases qs with
    | nil =>
      have hn := (List.append_eq_nil_iff.mp hw.symm).1
      exact absurd (List.append_eq_nil_iff.mp hn).1 piece.write_ne_nil
    | cons other qs =>
      cases piece with
      | char c =>
        cases other with
        | char d =>
          obtain ⟨hd, hr⟩ := List.cons.inj hw
          subst hd
          rw [hb, ← Nat.add_assoc] at h
          exact List.cons_prefix_cons.mpr ⟨rfl, ih hr h⟩
        | token q =>
          -- only one side has a token that begins here
          have hm : ⟨start, start + byteSize q.write, q⟩ ∈ tokensFrom start (.char c :: ps) := by
            rw [← h]
            exact List.mem_filter.mpr ⟨List.mem_cons_self, decide_eq_true hstart⟩
          exact absurd (start_lt_of_char hm) (Nat.lt_irrefl start)
      | token p =>
        cases other with
        | char d =>
          have hm : ⟨start, start + byteSize p.write, p⟩ ∈ tokensFrom start (.token p :: ps) :=
            List.mem_cons_self
          rw [← h] at hm
          exact absurd (start_lt_of_char (List.mem_filter.mp hm).1) (Nat.lt_irrefl start)
        | token q =>
          rw [hb, ← Nat.add_assoc] at h hstart
          rw [tokensFrom, List.filter_cons, if_pos (decide_eq_true hstart)] at h
          obtain ⟨hq, hr⟩ := List.cons.inj h
          cases (Token.mk.inj hq).2.2
          have hwr : written qs = written ps ++ rest := by
            apply List.append_cancel_left
            exact hw.trans (List.append_assoc _ _ _)
          exact List.cons_prefix_cons.mpr ⟨rfl, ih hwr hr⟩

def keyed (position : Nat) : List Piece → List (Placeholder × Key)
  | [] => []
  | .char _ :: ps => keyed position ps
  | .token p :: ps => (p, p.keyAt position) :: keyed (p.advance position) ps

theorem advance_keyless (p : Placeholder) (position : Nat) (ps : List Piece) :
    p.advance position + keylessCount ps = position + keylessCount (.token p :: ps) := by
  by_cases hk : p.key.isNone = true
  · simp [advance, keylessCount, Piece.isKeyless, hk]
    omega
  · simp [advance, keylessCount, Piece.isKeyless, hk]

theorem keyed_append (position : Nat) (ps qs : List Piece) :
    keyed position (ps ++ qs) = keyed position ps ++ keyed (position + keylessCount ps) qs := by
  induction ps generalizing position with
  | nil => rfl
  | cons piece ps ih =>
    cases piece with
    | char c => exact ih position
    | token p =>
      rw [← advance_keyless]
      exact congrArg (List.cons _) (ih _)

/-- A section is kept if each marked placeholder has an argument under the key it takes. -/
theorem keeps_keyed (arguments : Arguments) (position : Nat) (ps : List Piece) :
    arguments.keeps position ps =
      (keyed position ps).all fun e => !e.1.optional || arguments.fills e.2 := by
  induction ps generalizing position with
  | nil => rfl
  | cons piece ps ih =>
    cases piece with
    | char c => exact ih position
    | token p => rw [Arguments.keeps, keyed, List.all_cons, ih]

def weave : List Piece → List (List Char) → List Char
  | .char c :: ps, texts => c :: weave ps texts
  | .token _ :: ps, text :: texts => text ++ weave ps texts
  | _, _ => []

def fillUnder (arguments : Arguments) (options : Options) (e : Placeholder × Key) :
    Except Error (List Char) :=
  e.1.fill arguments options e.2

/-- Each placeholder is filled under the key it takes. -/
theorem fillPieces_keyed (arguments : Arguments) (options : Options) (position : Nat)
    (ps : List Piece) :
    arguments.fillPieces options position ps =
      ((keyed position ps).mapM (fillUnder arguments options)).map (weave ps) := by
  induction ps generalizing position with
  | nil => rfl
  | cons piece ps ih =>
    cases piece with
    | char c =>
      rw [Arguments.fillPieces, ih, keyed]
      cases (keyed position ps).mapM (fillUnder arguments options) <;> rfl
    | token p =>
      rw [Arguments.fillPieces, ih, keyed, List.mapM_cons, fillUnder]
      cases p.fill arguments options (p.keyAt position) with
      | error e => rfl
      | ok text =>
        cases (keyed (p.advance position) ps).mapM (fillUnder arguments options) <;> rfl

end MessagePattern
