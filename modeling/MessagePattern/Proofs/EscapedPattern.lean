import MessagePattern.Proofs.SectionPass
import MessagePattern.Proofs.TemplateFormat

/-!
# Escaped text as a pattern

A pattern that is escaped text makes a message of the text itself. None of the
scans finds anything in it, at whatever byte it begins.
-/

set_option autoImplicit false

namespace MessagePattern
open Escape Placeholder

theorem escape_eq_self {text : List Char} (h : ∀ c ∈ text, isDelimiter c = false) :
    escape text = text := by
  induction text with
  | nil => rfl
  | cons c text ih =>
    have hc := h c List.mem_cons_self
    rw [escape, if_neg (by simp [hc]), ih (fun d hd => h d (List.mem_cons_of_mem c hd))]

theorem segments_escaped (text : List Char) :
    segments false (escape text) = literalOf (escape text) := by
  have hs := segments_escape false text []
  rw [List.append_nil, segments_nil] at hs
  rw [hs]
  induction escape text with
  | nil => rfl
  | cons c rest ih => rw [List.foldr_cons, ih, consLiteral_literalOf]

theorem spansFrom_literal (start : Nat) (text : List Char) :
    spansFrom start (literalOf text) = [] := by
  have hs := spansFrom_literalOf start text []
  rw [List.append_nil] at hs
  exact hs

theorem matchSection_escaped (text : List Char) (start : Nat) :
    matchSection (utf8 (escape text)) start = none := by
  have hs := sectionSpans_spec (escape text)
  rw [sectionSpans, segments_escaped, spansFrom_literal] at hs
  apply matchSection_eq_none
  intro ho
  exact hs.outside start (Nat.zero_le _) ho (fun _ h => absurd h List.not_mem_nil)

theorem resolveSections_escaped (arguments : Arguments) (text : List Char) :
    arguments.resolveSections (escape text) = escape text ∧
      arguments.rewriteSections? (escape text) = none := by
  have hr := resolve_literalOf arguments 0 (escape text) []
  have hw := rewriteFrom_literalOf arguments 0 (escape text) [] none
  rw [List.append_nil] at hr hw
  rw [Arguments.resolveSections, Arguments.rewriteSections?, segments_escaped, hr, hw]
  exact ⟨List.append_nil _, rfl⟩

theorem open_none {afterBrace : Bool} {text : List Char}
    (h : ∀ p, .token p ∉ pieces afterBrace text) : open? afterBrace text = none := by
  cases ho : open? afterBrace text with
  | none => rfl
  | some found =>
    rw [pieces_of_open?_eq_some ho] at h
    exact absurd List.mem_cons_self (h found.1)

/-- Where the reading of a text has no placeholder, none is found at any byte. -/
theorem openAt_none {afterBrace : Bool} {n : Nat} {text : List Char}
    (h : ∀ p, .token p ∉ pieces afterBrace text) : openAt? afterBrace n text = none := by
  fun_induction openAt? afterBrace n text with
  | case1 afterBrace text => exact open_none h
  | case2 => rfl
  | case3 afterBrace n c r hle ih =>
    apply ih
    intro p hp
    apply h p
    rw [pieces_of_open?_eq_none (open_none h)]
    exact List.mem_cons_of_mem _ hp
  | case4 => rfl

theorem pieces_escaped (text : List Char) :
    pieces false (escape text) = (escape text).map Piece.char := by
  have hp := pieces_escape false text []
  rw [List.append_nil, pieces_nil, List.append_nil] at hp
  exact hp

theorem parseAt_escaped (text : List Char) (start : Nat) :
    Placeholder.parseAt? (String.ofList (escape text)) start = none := by
  have hn : openAt? false start (escape text) = none := by
    apply openAt_none
    intro p hp
    rw [pieces_escaped] at hp
    obtain ⟨c, -, hc⟩ := List.mem_map.mp hp
    cases hc
  rw [Placeholder.parseAt?, String.toList_ofList, hn]
  rfl

theorem tokensFrom_chars (start : Nat) (text : List Char) :
    tokensFrom start (text.map Piece.char) = [] := by
  induction text generalizing start with
  | nil => rfl
  | cons c text ih => exact ih _

theorem formatText_escaped (text : List Char) (arguments : Arguments) (options : Options) :
    formatText (escape text) arguments options = .ok text := by
  have hf := Template.fillPieces_chars arguments options 0 (escape text) []
  rw [List.append_nil] at hf
  rw [formatText, (resolveSections_escaped arguments text).1, pieces_escaped, hf]
  simp [Arguments.fillPieces, Except.map, collapse_escape]

/-- Escaped text is formatted to the text, whatever the arguments and the options. Text
without delimiters is its own escaped form. In escaped text no section and no placeholder
is found at any byte. -/
theorem format_escape (text : String) (arguments : Arguments) (options : Options) :
    let pattern := String.ofList (escape text.toList)
    format pattern arguments options = .ok text ∧
      ((∀ c ∈ text.toList, isDelimiter c = false) →
        format text arguments options = .ok text) ∧
      (∀ start, matchSection (utf8 pattern.toList) start = none) ∧
      arguments.rewriteSections? pattern.toList = none ∧
      (∀ start, Placeholder.parseAt? pattern start = none) ∧
      tokens pattern = [] := by
  intro pattern
  have hpattern : pattern.toList = escape text.toList := String.toList_ofList
  have hf : format pattern arguments options = .ok text := by
    rw [format, hpattern, formatText_escaped]
    exact congrArg Except.ok String.ofList_toList
  constructor
  · exact hf
  · constructor
    · intro hplain
      have he : pattern = text := by
        show String.ofList (escape text.toList) = text
        rw [escape_eq_self hplain, String.ofList_toList]
      rw [he] at hf
      exact hf
    · rw [hpattern]
      constructor
      · exact matchSection_escaped text.toList
      · constructor
        · exact (resolveSections_escaped arguments text.toList).2
        · constructor
          · exact parseAt_escaped text.toList
          · rw [tokens, hpattern, pieces_escaped, tokensFrom_chars]

theorem format_escape_question :
    (∀ c ∈ "é? #1: a+b.".toList, isDelimiter c = false) ∧
      format "é? #1: a+b." .empty = .ok "é? #1: a+b." := by
  have hplain : ∀ c ∈ "é? #1: a+b.".toList, isDelimiter c = false := by
    simp [isDelimiter]
  exact ⟨hplain, (format_escape "é? #1: a+b." .empty .standard).2.1 hplain⟩

end MessagePattern
