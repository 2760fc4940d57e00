import MessagePattern.Proofs.TemplateReading

/-!
# Formatting a printed template

Formatting reads the printed pattern three times: once for its sections, once
for its placeholders and once for its doubled delimiters. The message is the
one that evaluation finds in a single pass over the template.
-/

set_option autoImplicit false

namespace MessagePattern.Template
open Escape

theorem advance_eq (p : Placeholder) (position : Nat) :
    p.advance position = position + keyless [.token p] := by
  by_cases h : p.key.isNone = true <;> simp [Placeholder.advance, keyless, Part.isKeyless, h]

theorem keyless_cons (part : Part) (parts : List Part) :
    keyless (part :: parts) = keyless [part] + keyless parts := by
  simp [keyless, List.countP_cons, Nat.add_comm]

theorem fillParts_append (arguments : Arguments) (options : Options) (position : Nat)
    (first second : List Part) :
    fillParts arguments options position (first ++ second) = (do
      let before ← fillParts arguments options position first
      let after ← fillParts arguments options (position + keyless first) second
      return before ++ after) := by
  induction first generalizing position with
  | nil => exact (bind_pure (fillParts arguments options position second)).symm
  | cons part parts ih =>
    rw [keyless_cons, ← Nat.add_assoc]
    cases part with
    | literal text => simp [fillParts, ih, keyless, Part.isKeyless]
    | token p => simp [fillParts, ih, advance_eq]

def keptParts (arguments : Arguments) (position : Nat) : List Item → List Part
  | [] => []
  | .part p :: items => p :: keptParts arguments (position + keyless [p]) items
  | .bracketed parts :: items =>
    if satisfied arguments position parts then
      parts ++ keptParts arguments (position + keyless parts) items
    else keptParts arguments position items

/-- One pass can be split in two: which parts are kept, and what they yield. -/
theorem evaluate_eq (arguments : Arguments) (options : Options) (position : Nat)
    (items : List Item) :
    evaluate arguments options position items =
      fillParts arguments options position (keptParts arguments position items) := by
  induction items generalizing position with
  | nil => rfl
  | cons item items ih =>
    cases item with
    | part p =>
      have hp := fillParts_append arguments options position [p]
        (keptParts arguments (position + keyless [p]) items)
      rw [evaluate, ih]
      exact hp.symm
    | bracketed parts =>
      by_cases hs : satisfied arguments position parts = true
      · rw [evaluate, keptParts, if_pos hs, if_pos hs, fillParts_append, ih]
      · rw [evaluate, keptParts, if_neg hs, if_neg hs, ih]

theorem mem_keptParts (arguments : Arguments) (position : Nat) {items : List Item}
    (h : wellFormed items = true) :
    ∀ part ∈ keptParts arguments position items, part.wellFormed = true := by
  induction items generalizing position with
  | nil => exact List.forall_mem_nil _
  | cons item items ih =>
    rw [wellFormed, List.all_cons, Bool.and_eq_true] at h
    obtain ⟨hi, his⟩ := h
    intro part hm
    cases item with
    | part p =>
      rcases List.mem_cons.mp hm with he | hk
      · rw [he]
        exact hi
      · exact ih _ his part hk
    | bracketed parts =>
      simp only [Item.wellFormed, Bool.and_eq_true, List.all_eq_true] at hi
      by_cases hs : satisfied arguments position parts = true
      · rw [keptParts, if_pos hs] at hm
        rcases List.mem_append.mp hm with hp | hk
        · exact hi.1 part hp
        · exact ih _ his part hk
      · rw [keptParts, if_neg hs] at hm
        exact ih _ his part hm

theorem keylessCount_pieces (parts : List Part) :
    keylessCount (parts.flatMap Part.pieces) = keyless parts := by
  induction parts with
  | nil => rfl
  | cons part parts ih =>
    have hc : keylessCount part.pieces = keyless [part] := by
      cases part with
      | literal text =>
        apply List.countP_eq_zero.mpr
        intro piece hm
        obtain ⟨c, -, he⟩ := List.mem_map.mp hm
        rw [← he]
        exact Bool.false_ne_true
      | token p => rfl
    rw [keyless_cons, ← ih, ← hc]
    exact List.countP_append

theorem keeps_chars (arguments : Arguments) (position : Nat) (text : List Char)
    (ps : List Piece) :
    arguments.keeps position (text.map Piece.char ++ ps) = arguments.keeps position ps := by
  induction text with
  | nil => rfl
  | cons c text ih => exact ih

theorem keeps_pieces (arguments : Arguments) (position : Nat) (parts : List Part) :
    arguments.keeps position (parts.flatMap Part.pieces) =
      satisfied arguments position parts := by
  induction parts generalizing position with
  | nil => rfl
  | cons part parts ih =>
    rw [List.flatMap_cons]
    cases part with
    | literal text => rw [Part.pieces, keeps_chars, ih, satisfied]
    | token p => rw [Part.pieces, List.singleton_append, Arguments.keeps, ih, satisfied]

def NoLead (segments : List Segment) : Prop :=
  ∀ text rest, segments ≠ .literal text :: rest

theorem foldr_consLiteral {segments : List Segment} (h : NoLead segments)
    {text : List Char} (hn : text ≠ []) :
    text.foldr Segment.consLiteral segments = .literal text :: segments := by
  induction text with
  | nil => exact absurd rfl hn
  | cons c text ih =>
    by_cases ht : text = []
    · rw [ht]
      match segments with
      | [] => rfl
      | .bracketed _ :: _ => rfl
      | .literal t :: rest => exact absurd rfl (h t rest)
    · rw [List.foldr_cons, ih ht]
      rfl

theorem resolve_foldr (arguments : Arguments) (position : Nat) {segments : List Segment}
    (h : NoLead segments) (text : List Char) :
    arguments.resolve position (text.foldr Segment.consLiteral segments) =
      text ++ arguments.resolve (position + keylessCount (pieces false text)) segments := by
  by_cases hn : text = []
  · subst hn
    rw [pieces_nil]
    rfl
  · rw [foldr_consLiteral h hn, Arguments.resolve]

/-- `run` holds the parts since the last section; their literal text is one segment. -/
theorem resolve_segmentsOf (arguments : Arguments) {run : List Part} {items : List Item}
    (hr : ∀ part ∈ run, part.wellFormed = true) (h : wellFormed items = true) (position : Nat) :
    arguments.resolve position
        ((printParts run).foldr Segment.consLiteral (segmentsOf items)) =
      printParts run ++ printParts (keptParts arguments (position + keyless run) items) := by
  -- the parts since the last section, `run`, are one literal segment with what follows
  induction items generalizing run position with
  | nil =>
    have hc : NoLead [] := fun _ _ he => by cases he
    rw [segmentsOf, resolve_foldr arguments position hc]
    rfl
  | cons item items ih =>
    rw [wellFormed, List.all_cons, Bool.and_eq_true] at h
    obtain ⟨hi, his⟩ := h
    cases item with
    | part p =>
      have hrp : ∀ part ∈ run ++ [p], part.wellFormed = true := by
        intro part hm
        rcases List.mem_append.mp hm with hm | hm
        · exact hr part hm
        · rw [List.mem_singleton.mp hm]
          exact hi
      have hprint : printParts (run ++ [p]) = printParts run ++ p.print := by
        simp [printParts]
      have hcount : keyless (run ++ [p]) = keyless run + keyless [p] := List.countP_append
      have hih := ih hrp his position
      rw [hprint, List.foldr_append, hcount, ← Nat.add_assoc] at hih
      rw [segmentsOf, hih, keptParts, List.append_assoc]
      rfl
    | bracketed parts =>
      simp only [Item.wellFormed, Bool.and_eq_true, List.all_eq_true] at hi
      have hc : NoLead (.bracketed (printParts parts) :: segmentsOf items) :=
        fun _ _ he => by cases he
      have hih := fun n => ih (List.forall_mem_nil _) his n
      have hih' : ∀ n, arguments.resolve n (segmentsOf items) =
          printParts (keptParts arguments n items) := hih
      rw [segmentsOf, resolve_foldr arguments position hc, pieces_printParts hr,
        keylessCount_pieces, Arguments.resolve, pieces_printParts hi.1, keeps_pieces,
        keylessCount_pieces, hih', hih', keptParts]
      by_cases hs : satisfied arguments (position + keyless run) parts = true
      · rw [if_pos hs, if_pos hs]
        simp [printParts]
      · rw [if_neg hs, if_neg hs]

theorem resolveSections_print (arguments : Arguments) {items : List Item}
    (h : wellFormed items = true) :
    arguments.resolveSections (print items) = printParts (keptParts arguments 0 items) := by
  rw [Arguments.resolveSections, segments_print h]
  exact resolve_segmentsOf arguments (List.forall_mem_nil _) h 0

def Chunk.raw : Chunk → List Char
  | .literal text => escape text
  | .rendered text => text

theorem fillPieces_chars (arguments : Arguments) (options : Options) (position : Nat)
    (text : List Char) (ps : List Piece) :
    arguments.fillPieces options position (text.map Piece.char ++ ps) =
      (arguments.fillPieces options position ps).map (text ++ ·) := by
  induction text with
  | nil => cases h : arguments.fillPieces options position ps <;> simp [h, Except.map]
  | cons c text ih =>
    rw [List.map_cons, List.cons_append, Arguments.fillPieces, ih]
    cases arguments.fillPieces options position ps <;> rfl

theorem fillPieces_pieces (arguments : Arguments) (options : Options) (position : Nat)
    (parts : List Part) :
    arguments.fillPieces options position (parts.flatMap Part.pieces) =
      (fillParts arguments options position parts).map (List.flatMap Chunk.raw) := by
  induction parts generalizing position with
  | nil => rfl
  | cons part parts ih =>
    rw [List.flatMap_cons]
    cases part with
    | literal text =>
      rw [Part.pieces, fillPieces_chars, ih, fillParts]
      cases fillParts arguments options position parts <;> rfl
    | token p =>
      rw [Part.pieces, List.singleton_append, Arguments.fillPieces, ih, fillParts]
      cases p.fill arguments options (p.keyAt position) with
      | error e => rfl
      | ok text => cases fillParts arguments options (p.advance position) parts <;> rfl

theorem literal_mem_fillParts {arguments : Arguments} {options : Options} {position : Nat}
    {parts : List Part} {chunks : List Chunk} {text : List Char}
    (h : fillParts arguments options position parts = .ok chunks) (hm : .literal text ∈ chunks) :
    .literal text ∈ parts := by
  induction parts generalizing position chunks with
  | nil =>
    cases h
    cases hm
  | cons part parts ih =>
    cases part with
    | literal t =>
      obtain ⟨rest, hf, he⟩ := bind_eq_ok.mp h
      cases he
      rcases List.mem_cons.mp hm with ht | hr
      · cases ht
        exact List.mem_cons_self
      · exact List.mem_cons_of_mem _ (ih hf hr)
    | token p =>
      obtain ⟨t, -, hb⟩ := bind_eq_ok.mp h
      obtain ⟨rest, hf, he⟩ := bind_eq_ok.mp hb
      cases he
      rcases List.mem_cons.mp hm with ht | hr
      · cases ht
      · exact List.mem_cons_of_mem _ (ih hf hr)

theorem collapse_raw {chunks : List Chunk} (run : List Char)
    (h : ∀ text, .literal text ∈ chunks → (Part.literal text).wellFormed = true) :
    collapse (run ++ chunks.flatMap Chunk.raw) = message run chunks := by
  fun_induction message run chunks with
  | case1 run => rw [List.flatMap_nil, List.append_nil]
  | case2 run text chunks ih =>
    rw [List.flatMap_cons, ← ih (fun t ht => h t (List.mem_cons_of_mem _ ht)), List.append_assoc]
    rfl
  | case3 run chunks ih =>
    exact ih (fun t ht => h t (List.mem_cons_of_mem _ ht))
  | case4 run c text chunks ih =>
    have hb := bounded_literal (h (c :: text) List.mem_cons_self) (List.cons_ne_nil c text)
    rw [List.flatMap_cons, Chunk.raw, collapse_bounded hb,
      ← ih (fun t ht => h t (List.mem_cons_of_mem _ ht)), List.nil_append]

theorem formatText_print {items : List Item} (h : wellFormed items = true)
    (arguments : Arguments) (options : Options) :
    formatText (print items) arguments options =
      (evaluate arguments options 0 items).map (message []) := by
  have hw := mem_keptParts arguments 0 h
  rw [formatText, resolveSections_print arguments h, pieces_printParts hw, fillPieces_pieces,
    evaluate_eq]
  cases hf : fillParts arguments options 0 (keptParts arguments 0 items) with
  | error e => rfl
  | ok chunks =>
    have hc := collapse_raw [] (fun text ht => hw _ (literal_mem_fillParts hf ht))
    exact congrArg Except.ok hc

/-- The message of a printed template is evaluated without reading a pattern.
Chunk after chunk it is what the template says, if no two like delimiters stand
side by side in a run of rendered text. -/
theorem format_print {items : List Item} (h : wellFormed items = true)
    (arguments : Arguments) (options : Options) :
    format (String.ofList (print items)) arguments options =
        (evaluate arguments options 0 items).map (String.ofList ∘ message []) ∧
      ((∀ chunks, evaluate arguments options 0 items = .ok chunks →
          ∀ text ∈ runs [] chunks, hasPair text = false) →
        format (String.ofList (print items)) arguments options =
          (evaluate arguments options 0 items).map (String.ofList ∘ plain)) := by
  have hf : format (String.ofList (print items)) arguments options =
      (evaluate arguments options 0 items).map (String.ofList ∘ message []) := by
    rw [format, String.toList_ofList, formatText_print h]
    cases evaluate arguments options 0 items <;> rfl
  constructor
  · exact hf
  · intro hp
    rw [hf]
    cases he : evaluate arguments options 0 items with
    | error e => rfl
    | ok chunks =>
      have hm := message_plain chunks [] (hp chunks he)
      exact congrArg (fun text => Except.ok (String.ofList text)) hm

def invitation : List Item :=
  [.part (.literal "to {all}: ".toList),
    .bracketed [.token {}, .literal " and ".toList, .token { optional := true }],
    .part (.token { key := some (.name "end"), decimals := some 2 })]

def guests : Arguments :=
  .ofPairs [(.index 0, .text "Ann["), (.index 1, .list [.integer 7, .null]),
    (.name "end", .text "[!")]

theorem format_print_invitation :
    wellFormed invitation = true ∧
      String.ofList (print invitation) = "to {{all}}: [{} and {}?]{end.2}" ∧
      format (String.ofList (print invitation)) guests = .ok "to {all}: Ann[ and 7, NULL[!" := by
  have hw : wellFormed invitation = true := by decide
  have hp : ∀ chunks, evaluate guests .standard 0 invitation = .ok chunks →
      ∀ text ∈ runs [] chunks, hasPair text = false := by
    intro chunks he
    cases he
    decide
  have hf := (format_print hw guests .standard).2 hp
  constructor
  · exact hw
  · constructor
    · rfl
    · rw [hf]
      rfl

/-- Without the last condition a message is not what the template says: doubled
delimiters in the text of an argument collapse as well. -/
theorem format_print_not_plain :
    ¬ ∀ (items : List Item) (arguments : Arguments) (options : Options),
      wellFormed items = true →
        format (String.ofList (print items)) arguments options =
          (evaluate arguments options 0 items).map (String.ofList ∘ plain) := by
  intro h
  have hf := h [.part (.token {})] (.ofValues [.text "{{raw}}"]) .standard (by decide)
  have hl : format (String.ofList (print [.part (.token {})])) (.ofValues [.text "{{raw}}"]) =
      .ok "{raw}" := by
    with_unfolding_all rfl
  have hr : (evaluate (.ofValues [.text "{{raw}}"]) .standard 0 [.part (.token {})]).map
      (String.ofList ∘ plain) = .ok "{{raw}}" := by
    rfl
  rw [hl, hr] at hf
  exact absurd (Except.ok.inj hf) (by decide)

end MessagePattern.Template
