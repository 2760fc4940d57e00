import MessagePattern.Placeholder.Pieces
import MessagePattern.Proofs.Texts

/-!
# The grammar of placeholders

What a placeholder may look like, part by part and without reading order. The
scan accepts exactly these texts: it is greedy, but no part can begin where
another one ends, so that nothing is lost by taking as much as possible.
-/

set_option autoImplicit false

namespace MessagePattern.Placeholder

def signText (plus : Bool) : List Char := if plus then ['+'] else []

def markText (optional : Bool) : List Char := if optional then ['?'] else []

inductive KeyText : List Char → Option Key → Prop
  | missing : KeyText [] none
  | given {name : List Char} (hn : name ≠ []) (hc : ∀ c ∈ name, isKeyChar c = true) :
      KeyText name (some (Key.parse (String.ofList name)))

inductive DecimalsText : List Char → Option UInt64 → Prop
  | missing : DecimalsText [] none
  | given {c : Char} {digits : List Char} {n : UInt64} (hc : c.isDigit = true) (h0 : c ≠ '0')
      (hd : ∀ d ∈ digits, d.isDigit = true)
      (hn : Nat.ofDigitChars 10 (c :: digits) 0 = n.toNat) :
      DecimalsText ('.' :: c :: digits) (some n)

inductive StyleText : List Char → Option Style → Prop
  | missing : StyleText [] none
  | given (style : Style) : StyleText ['#', style.letter] (some style)

inductive Units : List Char → Prop
  | nil : Units []
  | char {c : Char} {r : List Char} (hc : c ≠ '}') (hr : Units r) : Units (c :: r)
  | pair {r : List Char} (hr : Units r) : Units ('}' :: '}' :: r)

inductive ConjunctionText : List Char → Option String → Prop
  | missing : ConjunctionText [] none
  | given {word : List Char} (hw : word ≠ []) (hu : Units word) :
      ConjunctionText (':' :: word) (some (String.ofList word))

def Marked (text : List Char) : Prop := ∃ r, text = '?' :: r ∧ r.head? ≠ some '}'

def Reads (text rest : List Char) (p : Placeholder) : Prop :=
  ∃ key decimals style conjunction,
    text = '{' :: (signText p.plus ++ (key ++ (decimals ++ (style ++ (conjunction ++
      '}' :: markText p.optional))))) ∧
    KeyText key p.key ∧ DecimalsText decimals p.decimals ∧ StyleText style p.style ∧
    ConjunctionText conjunction p.conjunction ∧
    (markText p.optional ++ rest).head? ≠ some '}' ∧
    (p.optional = true ↔ Marked (markText p.optional ++ rest))

theorem key_text_write {text : List Char} {key : Option Key} (h : KeyText text key) :
    text = writeKey key := by
  cases h with
  | missing => rfl
  | given hn hc =>
    show text = (Key.parse _).write
    rw [Key.write_parse, String.toList_ofList]

theorem decimals_text_write {text : List Char} {decimals : Option UInt64}
    (h : DecimalsText text decimals) : text = writeDecimals decimals := by
  cases h with
  | missing => rfl
  | given hc h0 hd hn =>
    have hr := (readDigits_eq_some_iff _ _).mpr hn
    rw [writeDecimals, writeDigits_of_readDigits hc h0 hd hr]

theorem style_text_write {text : List Char} {style : Option Style} (h : StyleText text style) :
    text = writeStyle style := by
  cases h <;> rfl

theorem conjunction_text_write {text : List Char} {conjunction : Option String}
    (h : ConjunctionText text conjunction) : text = writeConjunction conjunction := by
  cases h with
  | missing => rfl
  | given hw hu => rw [writeConjunction, String.toList_ofList]

theorem reads_write {text rest : List Char} {p : Placeholder} (h : Reads text rest p) :
    text = p.write := by
  obtain ⟨key, decimals, style, conjunction, ht, hk, hd, hs, hc, -, -⟩ := h
  rw [ht, key_text_write hk, decimals_text_write hd, style_text_write hs,
    conjunction_text_write hc, write]
  simp [signText, markText]

theorem conjunction_text_head {text : List Char} {conjunction : Option String}
    (h : ConjunctionText text conjunction) (rest : List Char) :
    ∃ c r, text ++ '}' :: rest = c :: r ∧ (c = ':' ∨ c = '}') := by
  cases h with
  | missing => exact ⟨_, _, rfl, Or.inr rfl⟩
  | given hw hu => exact ⟨_, _, rfl, Or.inl rfl⟩

theorem style_text_head {text : List Char} {style : Option Style} (h : StyleText text style)
    {c : Char} {r : List Char} (hc : c = ':' ∨ c = '}') :
    ∃ d s, text ++ c :: r = d :: s ∧ (d = '#' ∨ d = ':' ∨ d = '}') := by
  cases h with
  | missing => exact ⟨c, r, rfl, Or.inr hc⟩
  | given style => exact ⟨_, _, rfl, Or.inl rfl⟩

theorem decimals_text_head {text : List Char} {decimals : Option UInt64}
    (h : DecimalsText text decimals) {c : Char} {r : List Char}
    (hc : c = '#' ∨ c = ':' ∨ c = '}') :
    ∃ d s, text ++ c :: r = d :: s ∧ (d = '.' ∨ d = '#' ∨ d = ':' ∨ d = '}') := by
  cases h with
  | missing => exact ⟨c, r, rfl, Or.inr hc⟩
  | given _ _ _ _ => exact ⟨_, _, rfl, Or.inl rfl⟩

theorem key_text_head {text : List Char} {key : Option Key} (h : KeyText text key)
    {c : Char} {r : List Char} (hc : c = '.' ∨ c = '#' ∨ c = ':' ∨ c = '}') :
    ∃ d s, text ++ c :: r = d :: s ∧ d ≠ '+' := by
  cases h with
  | missing =>
    refine ⟨c, r, rfl, ?_⟩
    rcases hc with rfl | rfl | rfl | rfl <;> decide
  | given hn hk =>
    obtain ⟨d, s, rfl⟩ := List.exists_cons_of_ne_nil hn
    refine ⟨d, s ++ c :: r, rfl, ?_⟩
    intro he
    subst he
    exact absurd (hk '+' List.mem_cons_self) (by decide)

theorem takePlus_signText (plus : Bool) {c : Char} (r : List Char) (hc : c ≠ '+') :
    takePlus (signText plus ++ c :: r) = (plus, c :: r) := by
  cases plus with
  | true => rfl
  | false =>
    show takePlus (c :: r) = (false, c :: r)
    rw [takePlus]
    intro r' he
    exact hc (List.cons.inj he).1

theorem takeKey_keyText {text : List Char} {key : Option Key} (h : KeyText text key)
    {c : Char} (r : List Char) (hc : isKeyChar c = false) :
    takeKey (text ++ c :: r) = (key, c :: r) := by
  cases h with
  | missing => simp [takeKey, hc]
  | given hn hk =>
    have hp : ∀ d ∈ text, isKeyChar d = true := hk
    rw [takeKey, List.takeWhile_append_of_pos hp, List.dropWhile_append_of_pos hp,
      List.takeWhile_cons_of_neg (by simp [hc]), List.dropWhile_cons_of_neg (by simp [hc]),
      List.append_nil]
    split
    · exact absurd rfl hn
    · rfl

theorem takeDecimals_decimalsText {text : List Char} {decimals : Option UInt64}
    (h : DecimalsText text decimals) {c : Char} (r : List Char)
    (hc : c = '#' ∨ c = ':' ∨ c = '}') :
    takeDecimals (text ++ c :: r) = some (decimals, c :: r) := by
  have hdigit : c.isDigit = false := by rcases hc with rfl | rfl | rfl <;> decide
  cases h with
  | missing =>
    rw [List.nil_append, takeDecimals]
    intro d s he
    rcases hc with rfl | rfl | rfl <;> cases he
  | @given d digits n hd h0 hds hn =>
    have ht : (digits ++ c :: r).takeWhile Char.isDigit = digits := by
      rw [List.takeWhile_append_of_pos hds, List.takeWhile_cons_of_neg (by simp [hdigit]),
        List.append_nil]
    have hr : (digits ++ c :: r).dropWhile Char.isDigit = c :: r := by
      rw [List.dropWhile_append_of_pos hds, List.dropWhile_cons_of_neg (by simp [hdigit])]
    have hcond : (d.isDigit && d != '0') = true := by simp [hd, h0]
    have hvalue := (readDigits_eq_some_iff _ _).mpr hn
    simp only [List.cons_append, takeDecimals, hcond, ht, hr, hvalue, if_true]

theorem takeStyle_styleText {text : List Char} {style : Option Style}
    (h : StyleText text style) {c : Char} (r : List Char) (hc : c = ':' ∨ c = '}') :
    takeStyle (text ++ c :: r) = (style, c :: r) := by
  cases h with
  | missing =>
    rw [List.nil_append, takeStyle]
    intro d s he
    rcases hc with rfl | rfl <;> cases he
  | given style => simp [takeStyle, Style.ofLetter?_letter]

/-- The first closing brace behind whole units is not doubled, so it ends them. -/
theorem spanConjunction_units {word : List Char} (h : Units word) (rest : List Char)
    (hr : rest.head? ≠ some '}') :
    spanConjunction (word ++ '}' :: rest) = (word, '}' :: rest) := by
  induction h with
  | nil =>
    rw [List.nil_append, spanConjunction]
    intro r he
    exact hr (by rw [he]; rfl)
  | @char c r hc _ ih =>
    rw [List.cons_append, spanConjunction, ih]
    · intro s he _
      exact hc he
    · intro he
      exact hc he
  | pair _ ih =>
    rw [List.cons_append, List.cons_append, spanConjunction, ih]

theorem takeConjunction_conjunctionText {text : List Char} {conjunction : Option String}
    (h : ConjunctionText text conjunction) (rest : List Char) (hr : rest.head? ≠ some '}') :
    takeConjunction (text ++ '}' :: rest) = some (conjunction, '}' :: rest) := by
  cases h with
  | missing => rfl
  | @given word hw hu =>
    rw [List.cons_append, takeConjunction, spanConjunction_units hu rest hr]
    cases word with
    | nil => exact absurd rfl hw
    | cons c r => rfl

theorem takeClose_markText (optional : Bool) (rest : List Char)
    (hb : (markText optional ++ rest).head? ≠ some '}')
    (hm : optional = true ↔ Marked (markText optional ++ rest)) :
    takeClose ('}' :: (markText optional ++ rest)) = some (optional, rest) := by
  cases optional with
  | true =>
    obtain ⟨r, he, hr⟩ := hm.mp rfl
    cases he
    cases rest with
    | nil => rfl
    | cons c s =>
      show takeClose ('}' :: '?' :: c :: s) = _
      rw [takeClose]
      intro t he
      cases he
      exact hr rfl
  | false =>
    have hm' : ¬ Marked rest := fun h => by cases hm.mpr h
    cases rest with
    | nil => rfl
    | cons c s =>
      have hc : c ≠ '}' := fun h => hb (by rw [h]; rfl)
      show takeClose ('}' :: c :: s) = _
      by_cases hq : c = '?'
      · subst hq
        cases s with
        | nil => exact absurd ⟨[], rfl, by simp⟩ hm'
        | cons d t =>
          by_cases hd : d = '}'
          · subst hd
            rfl
          · exact absurd ⟨d :: t, rfl, by simpa using hd⟩ hm'
      · rw [takeClose]
        · intro t he
          exact hc (List.cons.inj he).1
        · intro t he
          exact hq (List.cons.inj he).1
        · intro t he
          exact hq (List.cons.inj he).1

/-- The scan finds every text that is a placeholder where it stands. -/
theorem scan_reads {text rest : List Char} {p : Placeholder} (h : Reads text rest p) :
    scan? (text ++ rest) = some (p, rest) := by
  obtain ⟨key, decimals, style, conjunction, rfl, hk, hd, hs, hc, hb, hm⟩ := h
  obtain ⟨c₁, r₁, e₁, h₁⟩ := conjunction_text_head hc (markText p.optional ++ rest)
  obtain ⟨c₂, r₂, e₂, h₂⟩ := style_text_head hs (r := r₁) h₁
  obtain ⟨c₃, r₃, e₃, h₃⟩ := decimals_text_head hd (r := r₂) h₂
  obtain ⟨c₄, r₄, e₄, h₄⟩ := key_text_head hk (r := r₃) h₃
  have hkey : isKeyChar c₃ = false := by rcases h₃ with rfl | rfl | rfl | rfl <;> decide
  have hp := takePlus_signText p.plus r₄ h₄
  have hkt := takeKey_keyText hk r₃ hkey
  have hdt := takeDecimals_decimalsText hd r₂ h₂
  have hst := takeStyle_styleText hs r₁ h₁
  have hct := takeConjunction_conjunctionText hc _ hb
  have hot := takeClose_markText _ _ hb hm
  rw [← e₄] at hp
  rw [← e₃] at hp hkt
  rw [← e₂] at hp hkt hdt
  rw [← e₁] at hp hkt hdt hst
  simp only [List.cons_append, List.append_assoc, scan?, hp, hkt, hdt, hst, hct, hot,
    Option.bind_eq_bind, Option.bind_some]

theorem keyText_takeKey (text : List Char) :
    ∃ key, text = key ++ (takeKey text).2 ∧ KeyText key (takeKey text).1 := by
  unfold takeKey
  split
  · exact ⟨[], rfl, .missing⟩
  · rename_i hn
    refine ⟨text.takeWhile isKeyChar, List.takeWhile_append_dropWhile.symm, .given hn ?_⟩
    exact fun c hc => List.all_eq_true.mp List.all_takeWhile c hc

theorem decimalsText_takeDecimals {text rest : List Char} {decimals : Option UInt64}
    (h : takeDecimals text = some (decimals, rest)) :
    ∃ taken, text = taken ++ rest ∧ DecimalsText taken decimals := by
  unfold takeDecimals at h
  split at h
  · rename_i c r
    split at h
    · rename_i hc
      simp only [Bool.and_eq_true, bne_iff_ne] at hc
      split at h
      · rename_i n hn
        cases h
        refine ⟨'.' :: c :: r.takeWhile Char.isDigit, ?_, .given hc.1 hc.2 ?_ ?_⟩
        · simp
        · exact fun d hd => List.all_eq_true.mp List.all_takeWhile d hd
        · exact (readDigits_eq_some_iff _ _).mp hn
      · cases h
    · cases h
      exact ⟨[], rfl, .missing⟩
  · cases h
    exact ⟨[], rfl, .missing⟩

theorem styleText_takeStyle (text : List Char) :
    ∃ taken, text = taken ++ (takeStyle text).2 ∧ StyleText taken (takeStyle text).1 := by
  unfold takeStyle
  split
  · split
    · rename_i c r style hs
      rw [← Style.letter_of_ofLetter? hs]
      exact ⟨_, rfl, .given style⟩
    · exact ⟨[], rfl, .missing⟩
  · exact ⟨[], rfl, .missing⟩

theorem units_spanConjunction (text : List Char) : Units (spanConjunction text).1 := by
  fun_induction spanConjunction text with
  | case1 => exact .nil
  | case2 r word rest he ih =>
    rw [he] at ih
    exact .pair ih
  | case3 => exact .nil
  | case4 c r _ hc word rest he ih =>
    rw [he] at ih
    exact .char hc ih

theorem conjunctionText_takeConjunction {text rest : List Char} {conjunction : Option String}
    (h : takeConjunction text = some (conjunction, rest)) :
    ∃ taken, text = taken ++ rest ∧ ConjunctionText taken conjunction := by
  unfold takeConjunction at h
  split at h
  · rename_i r
    have hr := spanConjunction_append r
    have hu := units_spanConjunction r
    split at h
    · cases h
    · rename_i word left hw he
      cases h
      rw [he] at hr hu
      exact ⟨':' :: word, by rw [← hr]; rfl, .given hw hu⟩
  · cases h
    exact ⟨[], rfl, .missing⟩

theorem markText_takeClose {text rest : List Char} {optional : Bool}
    (h : takeClose text = some (optional, rest)) :
    text = '}' :: (markText optional ++ rest) ∧
      (markText optional ++ rest).head? ≠ some '}' ∧
      (optional = true ↔ Marked (markText optional ++ rest)) := by
  unfold takeClose at h
  split at h
  · cases h
  · cases h
    refine ⟨rfl, by simp [markText], iff_of_false (by simp) ?_⟩
    intro h
    obtain ⟨r, he, hr⟩ := h
    cases he
    exact hr rfl
  · rename_i r hr
    cases h
    refine ⟨rfl, by simp [markText], iff_of_true rfl ⟨_, rfl, ?_⟩⟩
    cases rest with
    | nil => simp
    | cons c s => exact fun hc => hr s (by rw [Option.some.inj hc])
  · rename_i hb _ hq
    cases h
    refine ⟨rfl, ?_, iff_of_false (by simp) ?_⟩
    · intro hh
      obtain ⟨r, rfl⟩ := List.head?_eq_some_iff.mp hh
      exact hb r rfl
    · intro h
      obtain ⟨r, he, -⟩ := h
      exact hq r he
  · cases h

theorem reads_scan {text rest : List Char} {p : Placeholder}
    (h : scan? text = some (p, rest)) : ∃ taken, text = taken ++ rest ∧ Reads taken rest p := by
  unfold scan? at h
  split at h
  · rename_i body
    simp only [Option.bind_eq_bind, Option.bind_eq_some_iff] at h
    obtain ⟨⟨decimals, afterDecimals⟩, hd, ⟨conjunction, afterConjunction⟩, hc,
      ⟨optional, afterClose⟩, ho, he⟩ := h
    cases he
    dsimp only at hc ho ⊢
    obtain ⟨key, ek, hk⟩ := keyText_takeKey (takePlus body).2
    obtain ⟨places, ed, hd⟩ := decimalsText_takeDecimals hd
    obtain ⟨letter, es, hs⟩ := styleText_takeStyle afterDecimals
    obtain ⟨word, ec, hc⟩ := conjunctionText_takeConjunction hc
    obtain ⟨eo, hb, hm⟩ := markText_takeClose ho
    refine ⟨_, ?_, key, places, letter, word, rfl, hk, hd, hs, hc, hb, hm⟩
    have hbody : body = signText (takePlus body).1 ++ (key ++ (places ++ (letter ++ (word ++
        '}' :: (markText optional ++ afterClose))))) := by
      calc body = signText (takePlus body).1 ++ (takePlus body).2 := (takePlus_append body).symm
        _ = _ := by rw [ek, ed, es, ec, eo]
    simpa using hbody
  · cases h

theorem scan_iff_reads (text rest : List Char) (p : Placeholder) :
    scan? text = some (p, rest) ↔ ∃ taken, text = taken ++ rest ∧ Reads taken rest p := by
  constructor
  · exact reads_scan
  · intro h
    obtain ⟨taken, rfl, h⟩ := h
    exact scan_reads h

end MessagePattern.Placeholder

namespace MessagePattern
open Placeholder

theorem openAt_iff (afterBrace : Bool) (n : Nat) (text rest : List Char) (p : Placeholder) :
    openAt? afterBrace n text = some (p, rest) ↔
      ∃ before after, text = before ++ after ∧ byteSize before = n ∧
        open? (endsIn '{' afterBrace before) after = some (p, rest) := by
  fun_induction openAt? afterBrace n text with
  | case1 afterBrace text =>
    constructor
    · intro h
      exact ⟨[], text, rfl, rfl, h⟩
    · intro h
      obtain ⟨before, after, rfl, hb, h⟩ := h
      have hnil : before = [] := by
        by_cases hn : before = []
        · exact hn
        · have := byteSize_pos hn
          omega
      subst hnil
      exact h
  | case2 afterBrace n =>
    apply iff_of_false (by simp)
    intro h
    obtain ⟨before, after, he, hb, -⟩ := h
    obtain ⟨rfl, rfl⟩ := List.nil_eq_append_iff.mp he
    cases hb
  | case3 afterBrace n c r hle ih =>
    rw [ih]
    constructor
    · intro h
      obtain ⟨before, after, rfl, hb, h⟩ := h
      exact ⟨c :: before, after, rfl, by simp only [byteSize]; omega, h⟩
    · intro h
      obtain ⟨before, after, he, hb, h⟩ := h
      cases before with
      | nil => cases hb
      | cons d before =>
        obtain ⟨rfl, rfl⟩ := List.cons.inj he
        exact ⟨before, after, rfl, by simp only [byteSize] at hb; omega, h⟩
  | case4 afterBrace n c r hgt =>
    apply iff_of_false (by simp)
    intro h
    obtain ⟨before, after, he, hb, -⟩ := h
    cases before with
    | nil => cases hb
    | cons d before =>
      obtain ⟨rfl, rfl⟩ := List.cons.inj he
      simp only [byteSize] at hb
      omega

theorem open_iff_reads (afterBrace : Bool) (text rest : List Char) (p : Placeholder) :
    open? afterBrace text = some (p, rest) ↔
      afterBrace = false ∧ ∃ taken, text = taken ++ rest ∧ Reads taken rest p := by
  cases afterBrace with
  | true => simp [open?]
  | false => simpa [open?] using scan_iff_reads text rest p

/-- A token stands where it says: no brace comes right before it, and the text
from its first byte to its last is its placeholder. -/
def StandsIn (text : List Char) (t : Token) : Prop :=
  ∃ before body after, text = before ++ (body ++ after) ∧ t.start = byteSize before ∧
    t.stop = byteSize (before ++ body) ∧ before.getLast? ≠ some '{' ∧
    Reads body after t.placeholder

theorem parseAt_iff_stands (text : String) (start : Nat) (t : Token) :
    Placeholder.parseAt? text start = some t ↔ t.start = start ∧ StandsIn text.toList t := by
  rw [Placeholder.parseAt?, Option.map_eq_some_iff]
  constructor
  · intro h
    obtain ⟨⟨p, after⟩, ho, rfl⟩ := h
    obtain ⟨before, rest, he, hb, hop⟩ := (openAt_iff _ _ _ _ _).mp ho
    obtain ⟨hf, body, rfl, hr⟩ := (open_iff_reads _ _ _ _).mp hop
    refine ⟨rfl, before, body, after, he, hb.symm, ?_, ?_, hr⟩
    · rw [byteSize_append, hb, reads_write hr]
    · intro hl
      rw [(endsIn_false '{' before).mpr hl] at hf
      cases hf
  · intro h
    obtain ⟨rfl, before, body, after, he, hs, ht, hl, hr⟩ := h
    have hf : endsIn '{' false before = false := by
      rw [← Bool.not_eq_true, endsIn_false]
      exact hl
    have hopen := (open_iff_reads _ _ _ _).mpr ⟨hf, body, rfl, hr⟩
    apply Exists.intro (t.placeholder, after)
    constructor
    · exact (openAt_iff _ _ _ _ _).mpr ⟨before, body ++ after, he, hs.symm, hopen⟩
    · have hstop : t.start + byteSize t.placeholder.write = t.stop := by
        rw [ht, byteSize_append, hs, reads_write hr]
      show Token.mk t.start (t.start + byteSize t.placeholder.write) t.placeholder = t
      rw [hstop]

/-- A placeholder is found at a byte of a text exactly if the grammar has one
there. There is at most one, and writing it restores the bytes it takes up. -/
theorem parseAt_grammar (text : String) (start : Nat) :
    (∀ t, Placeholder.parseAt? text start = some t ↔ t.start = start ∧ StandsIn text.toList t) ∧
    (∀ s t, StandsIn text.toList s → StandsIn text.toList t → s.start = start →
      t.start = start → s = t) ∧
    (∀ t, Placeholder.parseAt? text start = some t → ∃ before after : String,
      text = before ++ String.ofList t.placeholder.write ++ after ∧
      before.utf8ByteSize = t.start ∧
      (before ++ String.ofList t.placeholder.write).utf8ByteSize = t.stop) := by
  constructor
  · exact parseAt_iff_stands text start
  · constructor
    · intro s t hs ht es et
      have h₁ := (parseAt_iff_stands text start s).mpr ⟨es, hs⟩
      have h₂ := (parseAt_iff_stands text start t).mpr ⟨et, ht⟩
      exact Option.some.inj (h₁.symm.trans h₂)
    · intro t h
      obtain ⟨-, before, body, after, he, hs, ht, -, hr⟩ := (parseAt_iff_stands text start t).mp h
      apply Exists.intro (String.ofList before)
      apply Exists.intro (String.ofList after)
      constructor
      · rw [← String.ofList_append, ← String.ofList_append, ← reads_write hr, List.append_assoc,
          ← he, String.ofList_toList]
      · constructor
        · rw [utf8ByteSize_ofList, hs]
        · rw [← String.ofList_append, utf8ByteSize_ofList, ← reads_write hr, ht]

end MessagePattern
