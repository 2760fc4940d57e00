import MessagePattern.Proofs.SectionSpans

/-!
# Exchanging the content of a section

A scan that runs through a whole section comes out of it as it went in, one
level having been filled. What stands in the section makes no difference to
where the scan ends, and so none to the choice of the other sections.
-/

set_option autoImplicit false

namespace MessagePattern

def enclosed (content post : List Char) : List Char := '[' :: (content ++ ']' :: post)

def Whole (content post : List Char) : Prop :=
  openSection false (enclosed content post) = some (content, post)

theorem byteSize_enclosed (content post : List Char) :
    byteSize (enclosed content post) = byteSize content + 2 + byteSize post := by
  have h1 : '['.utf8Size = 1 := rfl
  have h2 : ']'.utf8Size = 1 := rfl
  simp only [enclosed, byteSize, byteSize_append]
  omega

theorem Whole.close {content post : List Char} (h : Whole content post) :
    (content ++ ']' :: post).head? ≠ some '[' ∧
      closeSection 0 false (content ++ ']' :: post) = some (content, post) := by
  obtain ⟨-, r, he, hr, hc⟩ := (openSection_iff _ _ _ _).mp h
  cases he
  exact ⟨hr, hc⟩

theorem map_inFront_eq_some {u : List Char} {found : Option (List Char × List Char)}
    {content rest : List Char} (h : found.map (inFront u) = some (content, rest)) :
    ∃ inner, content = u ++ inner ∧ found = some (inner, rest) := by
  obtain ⟨⟨inner, behind⟩, hf, he⟩ := Option.map_eq_some_iff.mp h
  cases he
  exact ⟨inner, rfl, hf⟩

/-- A section inside of another one is passed and fills the level around it. -/
theorem closeSection_passes {depth : Nat} {filled : Bool} {text content rest : List Char}
    (h : closeSection depth filled text = some (content, rest)) (more : Nat) :
    closeSection (depth + more + 1) filled text =
      (closeSection more true rest).map (inFront (content ++ [']'])) := by
  induction text using units.induct generalizing depth filled content with
  | case1 => cases h
  | case2 r ih =>
    rw [closeSection_doubled _ _ rfl] at h ⊢
    obtain ⟨inner, rfl, hf⟩ := map_inFront_eq_some h
    rw [ih hf, map_inFront_append, List.append_assoc]
  | case3 r ih =>
    rw [closeSection_doubled _ _ rfl] at h ⊢
    obtain ⟨inner, rfl, hf⟩ := map_inFront_eq_some h
    rw [ih hf, map_inFront_append, List.append_assoc]
  | case4 r hr ih =>
    rw [closeSection_opening _ _ (head_ne hr)] at h ⊢
    obtain ⟨inner, rfl, hf⟩ := map_inFront_eq_some h
    have hd : depth + more + 1 + 1 = depth + 1 + more + 1 := by omega
    rw [hd, ih hf, map_inFront_append, List.append_assoc]
  | case5 r hr ih =>
    have hh : r.head? ≠ some ']' := head_ne hr
    cases filled with
    | false =>
      rw [closeSection_hollow depth hh] at h
      cases h
    | true =>
      cases depth with
      | zero =>
        rw [closeSection_end hh] at h
        -- the bracket that ended the section now closes the level around it
        cases h
        rw [Nat.zero_add, closeSection_closing _ hh]
        rfl
      | succ depth =>
        rw [closeSection_closing _ hh] at h
        obtain ⟨inner, rfl, hf⟩ := map_inFront_eq_some h
        have hd : depth + 1 + more + 1 = depth + more + 1 + 1 := by omega
        rw [hd, closeSection_closing _ hh, ih hf, map_inFront_append, List.append_assoc]
  | case6 c r _ _ ho hl ih =>
    rw [closeSection_char _ _ (isBracket_eq_false.mpr ⟨ho, hl⟩)] at h ⊢
    obtain ⟨inner, rfl, hf⟩ := map_inFront_eq_some h
    rw [ih hf, map_inFront_append, List.append_assoc]

/-- What two scans find in a text that stands before a section, with one content in it
and with the other: nothing, or an end before the section, or one behind it. -/
inductive Exchanged (c c' post : List Char) :
    List Char → Option (List Char × List Char) → Option (List Char × List Char) → Prop
  | neither {text : List Char} : Exchanged c c' post text none none
  | before {content rest : List Char} :
      Exchanged c c' post (content ++ ']' :: rest)
        (some (content, rest ++ enclosed c post)) (some (content, rest ++ enclosed c' post))
  | behind {text more rest : List Char} (hp : more ++ ']' :: rest = post) :
      Exchanged c c' post text
        (some (text ++ enclosed c more, rest)) (some (text ++ enclosed c' more, rest))

section
variable {c c' post : List Char}

theorem Exchanged.step {text : List Char} {a b : Option (List Char × List Char)}
    (h : Exchanged c c' post text a b) (u : List Char) :
    Exchanged c c' post (u ++ text) (a.map (inFront u)) (b.map (inFront u)) := by
  cases h with
  | neither => exact .neither
  | before =>
    rw [← List.append_assoc]
    exact .before
  | behind hp =>
    simp only [Option.map_some, inFront, ← List.append_assoc]
    exact .behind hp

theorem closeSection_whole (h : Whole c post) (depth : Nat) (filled : Bool) :
    closeSection depth filled (enclosed c post) =
      (closeSection depth true post).map (inFront ('[' :: (c ++ [']']))) := by
  obtain ⟨hh, hc⟩ := h.close
  have hp := closeSection_passes hc depth
  rw [Nat.zero_add] at hp
  rw [enclosed, closeSection_opening _ _ hh, hp, map_inFront_append]
  rfl

theorem getLast_append_ne {s t : List Char} {d : Char} (h : (s ++ t).getLast? ≠ some d) :
    t.getLast? ≠ some d := by
  intro ht
  apply h
  rw [List.getLast?_append, ht]
  rfl

theorem head_append_ne {s t : List Char} {d : Char} (hs : s.head? ≠ some d)
    (ht : s = [] → t.head? ≠ some d) : (s ++ t).head? ≠ some d := by
  cases s with
  | nil => exact ht rfl
  | cons e s => exact hs

theorem closeSection_exchange (h : Whole c post) (h' : Whole c' post) (depth : Nat)
    (filled : Bool) {text : List Char} (hl : text.getLast? ≠ some '[') :
    Exchanged c c' post text (closeSection depth filled (text ++ enclosed c post))
      (closeSection depth filled (text ++ enclosed c' post)) := by
  induction text using units.induct generalizing depth filled with
  | case1 =>
    rw [List.nil_append, List.nil_append, closeSection_whole h, closeSection_whole h']
    cases hc : closeSection depth true post with
    | none => exact .neither
    | some found =>
      have he : Exchanged c c' post [] (some ([] ++ enclosed c found.1, found.2))
          (some ([] ++ enclosed c' found.1, found.2)) :=
        .behind (closeSection_append hc)
      simpa [inFront, enclosed] using he
  | case2 r ih =>
    have hi := ih depth true (getLast_append_ne (s := ['[', '[']) hl)
    rw [List.cons_append, List.cons_append, List.cons_append, List.cons_append,
      closeSection_doubled _ _ rfl, closeSection_doubled _ _ rfl]
    exact hi.step ['[', '[']
  | case3 r ih =>
    have hi := ih depth true (getLast_append_ne (s := [']', ']']) hl)
    rw [List.cons_append, List.cons_append, List.cons_append, List.cons_append,
      closeSection_doubled _ _ rfl, closeSection_doubled _ _ rfl]
    exact hi.step [']', ']']
  | case4 r hr ih =>
    have hi := ih (depth + 1) false (getLast_append_ne (s := ['[']) hl)
    have hh : ∀ t, (r ++ t).head? ≠ some '[' := fun t =>
      head_append_ne (head_ne hr) (fun hn => absurd rfl (by rw [hn] at hl; exact hl))
    rw [List.cons_append, List.cons_append, closeSection_opening _ _ (hh _),
      closeSection_opening _ _ (hh _)]
    exact hi.step ['[']
  | case5 r hr ih =>
    have hl' := getLast_append_ne (s := [']']) hl
    have hh : ∀ content, (r ++ enclosed content post).head? ≠ some ']' := fun content =>
      head_append_ne (head_ne hr) (fun _ => by simp [enclosed])
    rw [List.cons_append, List.cons_append]
    cases filled with
    | false =>
      rw [closeSection_hollow depth (hh c), closeSection_hollow depth (hh c')]
      exact .neither
    | true =>
      cases depth with
      | zero =>
        rw [closeSection_end (hh c), closeSection_end (hh c')]
        exact @Exchanged.before c c' post [] r
      | succ depth =>
        rw [closeSection_closing depth (hh c), closeSection_closing depth (hh c')]
        exact (ih depth true hl').step [']']
  | case6 d r _ _ ho hc ih =>
    have hi := ih depth true (getLast_append_ne (s := [d]) hl)
    rw [List.cons_append, List.cons_append,
      closeSection_char _ _ (isBracket_eq_false.mpr ⟨ho, hc⟩),
      closeSection_char _ _ (isBracket_eq_false.mpr ⟨ho, hc⟩)]
    exact hi.step [d]

/-- What opens in front of a section does so with either content in it. -/
theorem openSection_exchange (h : Whole c post) (h' : Whole c' post) (afterBracket : Bool)
    {d : Char} {text : List Char} (hl : (d :: text).getLast? ≠ some '[') :
    Exchanged c c' post text (openSection afterBracket (d :: (text ++ enclosed c post)))
      (openSection afterBracket (d :: (text ++ enclosed c' post))) := by
  by_cases hd : d = '['
  · subst hd
    by_cases hh : text.head? = some '['
    · obtain ⟨t, rfl⟩ := List.head?_eq_some_iff.mp hh
      exact .neither
    · have hne : ∀ content, (text ++ enclosed content post).head? ≠ some '[' := fun content =>
        head_append_ne hh (fun hn => absurd rfl (by rw [hn] at hl; exact hl))
      rw [openSection_bracket _ (hne c), openSection_bracket _ (hne c')]
      cases afterBracket with
      | true => exact .neither
      | false => exact closeSection_exchange h h' 0 false (getLast_append_ne (s := ['[']) hl)
  · have hne : ∀ t, (d :: t).head? ≠ some '[' := fun t he => hd (Option.some.inj he)
    rw [openSection_none _ (hne _), openSection_none _ (hne _)]
    exact .neither

theorem consLiteral_append (d : Char) (before after : List Segment) (content : List Char) :
    Segment.consLiteral d (before ++ .bracketed content :: after) =
      Segment.consLiteral d before ++ .bracketed content :: after := by
  cases before with
  | nil => rfl
  | cons segment rest => cases segment <;> rfl

theorem consLiteral_eq_append {d : Char} {segments before after : List Segment}
    {content : List Char}
    (h : Segment.consLiteral d segments = before ++ .bracketed content :: after) :
    ∃ first, segments = first ++ .bracketed content :: after ∧
      before = Segment.consLiteral d first := by
  cases before with
  | nil =>
    match segments with
    | [] => cases h
    | .literal _ :: _ => cases h
    | .bracketed _ :: _ => cases h
  | cons head before =>
    match segments with
    | [] => cases before <;> cases h
    | .literal text :: rest =>
      obtain ⟨rfl, hr⟩ := List.cons.inj h
      exact ⟨.literal text :: before, by rw [hr]; rfl, rfl⟩
    | .bracketed inner :: rest =>
      obtain ⟨rfl, hr⟩ := List.cons.inj h
      refine ⟨before, hr, ?_⟩
      cases before with
      | nil => rfl
      | cons segment before =>
        cases (List.cons.inj hr).1
        rfl

theorem getLast_of_endsIn {afterBracket : Bool} {d : Char} {text : List Char}
    (h : endsIn '[' afterBracket (d :: text) = false) : (d :: text).getLast? ≠ some '[' := by
  have hf : endsIn '[' false (d :: text) = false := h
  intro hl
  rw [(endsIn_false _ _).mpr hl] at hf
  cases hf

theorem Exchanged.of_some {text content rest : List Char} {b : Option (List Char × List Char)}
    (h : Exchanged c c' post text (some (content, rest)) b) :
    (∃ more, text = content ++ ']' :: more ∧ rest = more ++ enclosed c post ∧
        b = some (content, more ++ enclosed c' post)) ∨
      ∃ more, more ++ ']' :: rest = post ∧ content = text ++ enclosed c more ∧
        b = some (text ++ enclosed c' more, rest) := by
  cases h with
  | before => exact Or.inl ⟨_, rfl, rfl, rfl⟩
  | behind hp => exact Or.inr ⟨_, hp, rfl, rfl⟩

theorem Exchanged.of_none {text : List Char} {b : Option (List Char × List Char)}
    (h : Exchanged c c' post text none b) : b = none := by
  cases h
  rfl

/-- The sections before an exchanged one are chosen as before, and so are those behind it. -/
theorem segments_exchange (h : Whole c post) (h' : Whole c' post) {afterBracket : Bool}
    {pre : List Char} {before after : List Segment} (hw : before.flatMap Segment.write = pre)
    (hb : endsIn '[' afterBracket pre = false)
    (hs : segments afterBracket (pre ++ enclosed c post) = before ++ .bracketed c :: after) :
    segments afterBracket (pre ++ enclosed c' post) = before ++ .bracketed c' :: after := by
  generalize ht : pre ++ enclosed c post = text at hs
  fun_induction segments afterBracket text generalizing pre before with
  | case1 => cases pre <;> cases ht
  | case2 afterBracket d r content rest ho ih =>
    cases before with
    | nil =>
      obtain ⟨he, rfl⟩ := List.cons.inj hs
      cases he
      subst hw
      have ha : afterBracket = false := hb
      have hopen : openSection false (enclosed c post) = some (c, rest) := by
        rw [← ha, ← ho, ← ht]
        rfl
      rw [h] at hopen
      cases hopen
      rw [ha]
      exact segments_of_openSection_eq_some h'
    | cons head before =>
      obtain ⟨rfl, hrest⟩ := List.cons.inj hs
      generalize hv : before.flatMap Segment.write = inner at ih
      have hpre : pre = '[' :: (content ++ ']' :: inner) := by
        rw [← hw, List.flatMap_cons, hv]
        simp [Segment.write]
      subst hpre
      obtain ⟨rfl, hr⟩ := List.cons.inj ht
      have hx := openSection_exchange h h' afterBracket (getLast_of_endsIn hb)
      have hwhole : content ++ ']' :: inner ++ enclosed c post = r := hr
      rw [hwhole, ho] at hx
      have hmid : endsIn '[' false inner = false := by
        have he := endsIn_append '[' afterBracket ('[' :: content ++ [']']) inner
        rw [endsIn_concat, List.append_assoc] at he
        exact he.symm.trans hb
      rcases hx.of_some with ⟨more, ha, rfl, hb'⟩ | ⟨more, -, hcontent, -⟩
      · cases List.append_cancel_left ha
        rw [List.cons_append, segments_of_openSection_eq_some hb', ih hv hmid rfl hrest]
        rfl
      -- a section that ends behind the one with `c` would be longer than itself
      · have hlen := congrArg List.length hcontent
        simp at hlen
  | case3 afterBracket d r ho ih =>
    obtain ⟨first, hr, rfl⟩ := consLiteral_eq_append hs
    rw [Segment.flatMap_write_consLiteral] at hw
    subst hw
    obtain ⟨-, hr'⟩ := List.cons.inj ht
    have hx := openSection_exchange h h' afterBracket (getLast_of_endsIn hb)
    have hwhole : first.flatMap Segment.write ++ enclosed c post = r := hr'
    rw [hwhole, ho] at hx
    rw [List.cons_append, segments_of_openSection_eq_none hx.of_none, ih rfl hb hr' hr,
      consLiteral_append]

end

theorem matchSection_enclosed (pre content post : List Char) :
    matchSection (utf8 (pre ++ enclosed content post)) (byteSize pre) =
        some (byteSize pre + byteSize content + 1) ↔
      endsIn '[' false pre = false ∧ Whole content post := by
  rw [matchSection_utf8]
  constructor
  · intro h
    obtain ⟨⟨inner, rest⟩, ho, hs⟩ := Option.map_eq_some_iff.mp h
    have hsize : byteSize inner = byteSize content := by
      change byteSize pre + byteSize inner + 1 = _ at hs
      omega
    obtain ⟨-, ht⟩ := List.cons.inj (openSection_append ho)
    obtain ⟨rfl, hr⟩ := append_inj_of_byteSize ht hsize
    cases hr
    have hb := ((openSection_iff _ _ _ _).mp ho).1
    rw [hb] at ho
    exact ⟨hb, ho⟩
  · intro h
    obtain ⟨hb, hw⟩ := h
    rw [hb, hw]
    rfl

/-- Behind a byte that is no opening bracket, the bytes before it do not matter. -/
theorem matchSection_behind (front rest : List UInt8) {b : UInt8} (hb : b ≠ '['.toUInt8)
    (k : Nat) :
    matchSection (front ++ b :: rest) (front.length + k) =
      (matchSection (b :: rest) k).map (front.length + ·) := by
  have hd : (front ++ b :: rest).drop (front.length + k) = (b :: rest).drop k :=
    List.drop_length_add_append ..
  rw [matchSection, matchSection, hd, Option.map_map]
  cases k with
  | zero =>
    have hn : (readBytes ((b :: rest).drop 0)).head? ≠ some '[' := by
      intro hh
      exact hb ((ofUInt8_opening b).mp (Option.some.inj hh))
    rw [openSection_none _ hn, openSection_none _ hn]
    rfl
  | succ k =>
    have ht : (front ++ b :: rest).take (front.length + (k + 1)) = front ++ b :: rest.take k :=
      List.take_length_add_append ..
    have hl : (readBytes (front ++ b :: rest.take k)).getLast? =
        (readBytes (b :: rest.take k)).getLast? := by
      simp [readBytes, List.getLast?_append, List.getLast?_cons]
    rw [ht, hl, List.take_succ_cons]
    simp [Function.comp_def, Nat.add_assoc]

def moved (pre c c' : List Char) (n : Nat) : Nat :=
  if n ≤ byteSize pre then n else n + byteSize c' - byteSize c

theorem moved_behind (pre c c' : List Char) (n : Nat) :
    moved pre c c' (byteSize pre + byteSize c + 1 + n) =
      byteSize pre + byteSize c' + 1 + n := by
  rw [moved, if_neg (by omega)]
  omega

section
variable {pre c c' post : List Char}

theorem matchSection_back (pre content post : List Char) (k : Nat) :
    let behind := byteSize pre + byteSize content + 1
    matchSection (utf8 (pre ++ enclosed content post)) (behind + k) =
      (matchSection (utf8 (']' :: post)) k).map (behind + ·) := by
  intro behind
  have hm := matchSection_behind (utf8 (pre ++ '[' :: content)) (utf8 post)
    (b := ']'.toUInt8) (by decide) k
  have hb : utf8 (']' :: post) = ']'.toUInt8 :: utf8 post := rfl
  have ht : utf8 (pre ++ '[' :: content) ++ utf8 (']' :: post) =
      utf8 (pre ++ enclosed content post) := by
    rw [← utf8_append]
    simp [enclosed]
  have hl : (utf8 (pre ++ '[' :: content)).length = behind := by
    have h1 : '['.utf8Size = 1 := rfl
    rw [length_utf8, byteSize_append, byteSize]
    omega
  rw [← hb, ht, hl] at hm
  exact hm

theorem matchSection_front (h : Whole c post) (h' : Whole c' post)
    (hb : endsIn '[' false pre = false) {start : Nat} (hs : start < byteSize pre) :
    matchSection (utf8 (pre ++ enclosed c' post)) start =
      (matchSection (utf8 (pre ++ enclosed c post)) start).map (moved pre c c') := by
  by_cases ho : (utf8 pre)[start]? = some '['.toUInt8
  · obtain ⟨before, rest, rfl, rfl⟩ := exists_split (by decide) ho
    have hl : ('[' :: rest).getLast? ≠ some '[' := by
      rw [endsIn_append] at hb
      exact getLast_of_endsIn hb
    have hx := openSection_exchange h h' (endsIn '[' false before) hl
    rw [List.append_assoc, List.append_assoc, matchSection_utf8, matchSection_utf8,
      List.cons_append, List.cons_append, Option.map_map]
    generalize openSection _ _ = found at hx ⊢
    generalize openSection _ _ = found' at hx ⊢
    have h1 : '['.utf8Size = 1 := rfl
    have h2 : ']'.utf8Size = 1 := rfl
    cases hx with
    | neither => rfl
    | before =>
      apply congrArg some
      simp only [moved, Function.comp_apply, byteSize_append, byteSize]
      rw [if_pos (by omega)]
    | behind hp =>
      apply congrArg some
      simp only [moved, Function.comp_apply, byteSize_append, byteSize_enclosed, byteSize]
      rw [if_neg (by omega)]
      omega
  · have hnone : ∀ content, matchSection (utf8 (pre ++ enclosed content post)) start = none := by
      intro content
      apply matchSection_eq_none
      intro hopen
      rw [utf8_append, List.getElem?_append_left (by rw [length_utf8]; exact hs)] at hopen
      exact absurd hopen ho
    rw [hnone c, hnone c']
    rfl

/-- Where a section ends does not depend on the content of another one that stands in
it or behind it, and not on one before it but for the place. -/
theorem matchSection_moved (h : Whole c post) (h' : Whole c' post)
    (hb : endsIn '[' false pre = false) {start : Nat}
    (hs : start ≤ byteSize pre ∨ byteSize pre + byteSize c < start) :
    matchSection (utf8 (pre ++ enclosed c' post)) (moved pre c c' start) =
      (matchSection (utf8 (pre ++ enclosed c post)) start).map (moved pre c c') := by
  rcases hs with hs | hs
  · rw [moved, if_pos hs]
    rcases Nat.eq_or_lt_of_le hs with rfl | hlt
    · rw [(matchSection_enclosed pre c post).mpr ⟨hb, h⟩,
        (matchSection_enclosed pre c' post).mpr ⟨hb, h'⟩]
      exact congrArg some (moved_behind pre c c' 0).symm
    · exact matchSection_front h h' hb hlt
  · obtain ⟨k, rfl⟩ := Nat.exists_eq_add_of_le (Nat.succ_le_of_lt hs)
    rw [Nat.succ_eq_add_one, moved_behind, matchSection_back, matchSection_back, Option.map_map]
    congr 1
    funext n
    exact (moved_behind pre c c' n).symm

end

end MessagePattern
