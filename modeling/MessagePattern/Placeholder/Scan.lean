import MessagePattern.Placeholder

/-!
# Reading a placeholder

Each part of a placeholder is taken from the front of a text, and what is left
is handed to the next part. A part that is not there takes nothing. The scan
fails where the decimals leave the 64-bit range, where a conjunction is empty,
and where no single closing brace follows.
-/

set_option autoImplicit false

namespace MessagePattern.Placeholder

def isKeyChar (c : Char) : Bool := c.isAlphanum || c == '_' || c == '-'

def takePlus : List Char → Bool × List Char
  | '+' :: r => (true, r)
  | r => (false, r)

def takeKey (text : List Char) : Option Key × List Char :=
  match text.takeWhile isKeyChar with
  | [] => (none, text)
  | key => (some (Key.parse (String.ofList key)), text.dropWhile isKeyChar)

def takeDecimals : List Char → Option (Option UInt64 × List Char)
  | '.' :: c :: r =>
    if c.isDigit && c != '0' then
      match readDigits (c :: r.takeWhile Char.isDigit) with
      | some n => some (some n, r.dropWhile Char.isDigit)
      | none => none
    else some (none, '.' :: c :: r)
  | r => some (none, r)

def takeStyle : List Char → Option Style × List Char
  | '#' :: c :: r =>
    match Style.ofLetter? c with
    | some style => (some style, r)
    | none => (none, '#' :: c :: r)
  | r => (none, r)

def spanConjunction : List Char → List Char × List Char
  | [] => ([], [])
  | '}' :: '}' :: r => let (text, rest) := spanConjunction r; ('}' :: '}' :: text, rest)
  | '}' :: r => ([], '}' :: r)
  | c :: r => let (text, rest) := spanConjunction r; (c :: text, rest)

def takeConjunction : List Char → Option (Option String × List Char)
  | ':' :: r =>
    match spanConjunction r with
    | ([], _) => none
    | (text, rest) => some (some (String.ofList text), rest)
  | r => some (none, r)

def takeClose : List Char → Option (Bool × List Char)
  | '}' :: '}' :: _ => none
  | '}' :: '?' :: '}' :: r => some (false, '?' :: '}' :: r)
  | '}' :: '?' :: r => some (true, r)
  | '}' :: r => some (false, r)
  | _ => none

def scan? : List Char → Option (Placeholder × List Char)
  | '{' :: text => do
    let (plus, text) := takePlus text
    let (key, text) := takeKey text
    let (decimals, text) ← takeDecimals text
    let (style, text) := takeStyle text
    let (conjunction, text) ← takeConjunction text
    let (optional, text) ← takeClose text
    some ({ plus, key, decimals, style, conjunction, optional }, text)
  | _ => none

theorem takePlus_append (text : List Char) :
    (if (takePlus text).1 then ['+'] else []) ++ (takePlus text).2 = text := by
  unfold takePlus
  split <;> rfl

theorem takeKey_append (text : List Char) :
    writeKey (takeKey text).1 ++ (takeKey text).2 = text := by
  unfold takeKey
  split
  · rfl
  · show (Key.parse _).write ++ _ = text
    rw [Key.write_parse, String.toList_ofList, List.takeWhile_append_dropWhile]

theorem takeDecimals_append {text rest : List Char} {decimals : Option UInt64}
    (h : takeDecimals text = some (decimals, rest)) : writeDecimals decimals ++ rest = text := by
  unfold takeDecimals at h
  split at h
  · rename_i c r
    split at h
    · rename_i hc
      simp only [Bool.and_eq_true, bne_iff_ne] at hc
      split at h
      · rename_i n hn
        cases h
        have hr : ∀ d ∈ r.takeWhile Char.isDigit, d.isDigit = true := fun d hd =>
          List.all_eq_true.mp List.all_takeWhile d hd
        rw [writeDecimals, writeDigits_of_readDigits hc.1 hc.2 hr hn]
        simp
      · cases h
    · cases h
      rfl
  · cases h
    rfl

theorem takeStyle_append (text : List Char) :
    writeStyle (takeStyle text).1 ++ (takeStyle text).2 = text := by
  unfold takeStyle
  split
  · split
    · rename_i h
      simp [writeStyle, Style.letter_of_ofLetter? h]
    · rfl
  · rfl

theorem spanConjunction_append (text : List Char) :
    (spanConjunction text).1 ++ (spanConjunction text).2 = text := by
  fun_induction spanConjunction text <;> simp_all

theorem takeConjunction_append {text rest : List Char} {conjunction : Option String}
    (h : takeConjunction text = some (conjunction, rest)) :
    writeConjunction conjunction ++ rest = text := by
  unfold takeConjunction at h
  split at h
  · rename_i r
    have hr := spanConjunction_append r
    split at h
    · cases h
    · rename_i word left _ he
      cases h
      rw [he] at hr
      simp [writeConjunction, hr]
  · cases h
    rfl

theorem takeClose_append {text rest : List Char} {optional : Bool}
    (h : takeClose text = some (optional, rest)) :
    '}' :: (if optional then ['?'] else []) ++ rest = text := by
  unfold takeClose at h
  split at h <;> cases h <;> rfl

/-- A text that begins with a placeholder is the placeholder, written, and the rest. -/
theorem write_append_of_scan? {text rest : List Char} {p : Placeholder}
    (h : scan? text = some (p, rest)) : p.write ++ rest = text := by
  unfold scan? at h
  split at h
  · rename_i body
    simp only [Option.bind_eq_bind, Option.bind_eq_some_iff] at h
    obtain ⟨⟨decimals, afterDecimals⟩, hd, ⟨conjunction, afterConjunction⟩, hc,
      ⟨optional, afterClose⟩, ho, he⟩ := h
    cases he
    dsimp only at hc ho ⊢
    have h1 := takePlus_append body
    have h2 := takeKey_append (takePlus body).2
    have h3 := takeDecimals_append hd
    have h4 := takeStyle_append afterDecimals
    have h5 := takeConjunction_append hc
    have h6 := takeClose_append ho
    rw [← h6] at h5
    rw [← h5] at h4
    rw [← h4] at h3
    rw [← h3] at h2
    rw [← h2] at h1
    simpa [write] using h1
  · cases h

theorem length_lt_of_scan? {text rest : List Char} {p : Placeholder}
    (h : scan? text = some (p, rest)) : rest.length < text.length := by
  rw [← write_append_of_scan? h, List.length_append]
  simp only [write, List.cons_append, List.length_cons]
  omega

end MessagePattern.Placeholder
