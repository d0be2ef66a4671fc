import SchemaLint.Token.Scan

/-!
# Scanning with another text behind

A scanner looks one or two characters beyond what it takes.  When those stay of the same sort, it
takes the same from a text that goes on differently.
-/

set_option autoImplicit false
set_option relaxedAutoImplicit false

namespace SchemaLint.Scan

theorem isAlpha_eq (c : Char) : c.isAlpha = (c.isUpper || c.isLower) := rfl

theorem isUpper_iff {c : Char} : c.isUpper = true ↔ 65 ≤ c.toNat ∧ c.toNat ≤ 90 := by
  delta Char.isUpper
  simp only [decide_eq_true_eq, UInt32.le_iff_toNat_le, ge_iff_le]
  rfl

theorem isLower_iff {c : Char} : c.isLower = true ↔ 97 ≤ c.toNat ∧ c.toNat ≤ 122 := by
  delta Char.isLower
  simp only [Bool.and_eq_true, decide_eq_true_eq, UInt32.le_iff_toNat_le, ge_iff_le]
  rfl

theorem isDigit_iff {c : Char} : c.isDigit = true ↔ 48 ≤ c.toNat ∧ c.toNat ≤ 57 := by
  simp only [Char.isDigit, Bool.and_eq_true, decide_eq_true_eq, UInt32.le_iff_toNat_le, ge_iff_le]
  rfl

/-- Whether a text goes on, and not with a blank or a comment. -/
def endsGap : List Char → Bool
  | [] => false
  | '/' :: '/' :: _ => false
  | '/' :: '*' :: _ => false
  | c :: _ => !Text.isBlank c

def Alike (r r' : List Char) : Prop :=
  r.head? = r'.head? ∨ (r.head?.any isWordStart ∧ r'.head?.any isWordStart)

def isIdentifier : List Char → Bool
  | [] => false
  | c :: cs => isWordStart c && cs.all isWordPart

theorem isWordPart_of_isWordStart {c : Char} (h : isWordStart c = true) :
    isWordPart c = true := by
  simp only [isWordStart, isWordPart, Char.isAlphanum, Bool.or_eq_true] at h ⊢
  rcases h with h | h
  · exact .inl (.inl h)
  · exact .inr h

theorem gap_of_endsGap {r : List Char} (h : endsGap r = true) : gap r = ⟨[], r, false⟩ := by
  unfold gap
  split
  · simp [endsGap] at h
  · simp [endsGap] at h
  · simp [endsGap] at h
  · rename_i c rest hline hblock
    have hblank : Text.isBlank c = false := by
      unfold endsGap at h
      split at h <;> simp_all
    simp [hblank]

private theorem closeComment?_body_ne_nil {cs body rest : List Char}
    (h : closeComment? cs = some (body, rest)) : body ≠ [] := by
  fun_induction closeComment? cs generalizing body rest with
  | case1 => simp at h
  | case2 tail =>
    obtain ⟨rfl, rfl⟩ : ['*', '/'] = body ∧ tail = rest := by simpa using h
    simp
  | case3 c cs _ _ =>
    obtain ⟨⟨b, r⟩, -, heq⟩ := Option.map_eq_some_iff.1 h
    obtain ⟨rfl, rfl⟩ : c :: b = body ∧ r = rest := by simpa using heq
    simp

theorem closeComment?_body_append {cs body rest : List Char}
    (h : closeComment? cs = some (body, rest)) (r : List Char) :
    closeComment? (body ++ r) = some (body, r) := by
  fun_induction closeComment? cs generalizing body rest with
  | case1 => simp at h
  | case2 tail =>
    obtain ⟨rfl, rfl⟩ : ['*', '/'] = body ∧ tail = rest := by simpa using h
    rfl
  | case3 c cs hopen ih =>
    obtain ⟨⟨b, r'⟩, hcut, heq⟩ := Option.map_eq_some_iff.1 h
    obtain ⟨rfl, rfl⟩ : c :: b = body ∧ r' = rest := by simpa using heq
    -- A slash right behind would have closed the comment already.
    have hslash : ∀ tail, c = '*' → b ++ r = '/' :: tail → False := by
      intro tail hc he
      obtain ⟨d, b, rfl⟩ := List.exists_cons_of_ne_nil (closeComment?_body_ne_nil hcut)
      obtain ⟨rfl, -⟩ : d = '/' ∧ b ++ r = tail := by simpa using he
      exact hopen (b ++ r') hc (by simpa using (closeComment?_append hcut).symm)
    rw [List.cons_append, closeComment?]
    · rw [ih hcut]
      rfl
    · exact hslash

theorem endsGap_rest_gap {cs : List Char} (closed : (gap cs).isOpen = false)
    (more : (gap cs).rest ≠ []) : endsGap (gap cs).rest = true := by
  fun_induction gap cs with
  | case1 => simp at more
  | case2 rest ih => exact ih closed more
  | case3 rest hcut => simp at closed
  | case4 rest body rest' hcut ih => exact ih closed more
  | case5 c rest _ _ hblank ih => exact ih closed more
  | case6 c rest hline hblock hblank =>
    unfold endsGap
    split <;> simp_all

theorem dropWhile_line (cs : List Char) :
    cs.dropWhile (· ≠ '\n') = [] ∨ ∃ tail, cs.dropWhile (· ≠ '\n') = '\n' :: tail := by
  induction cs with
  | nil => exact .inl rfl
  | cons c cs ih =>
    by_cases hc : c = '\n'
    · exact .inr ⟨cs, by simp [hc]⟩
    · simpa [hc] using ih

theorem newline_notMem_takeWhile (cs : List Char) : '\n' ∉ cs.takeWhile (· ≠ '\n') := by
  intro h
  simpa using List.all_eq_true.1 List.all_takeWhile _ h

theorem line_cut {content after : List Char} (single : '\n' ∉ content)
    (ends : after = [] ∨ ∃ below, after = '\n' :: below) :
    (content ++ after).takeWhile (· ≠ '\n') = content ∧
      (content ++ after).dropWhile (· ≠ '\n') = after := by
  have hall : ∀ c ∈ content, decide (c ≠ '\n') = true := by
    intro c hc
    simpa using fun he : c = '\n' => single (he ▸ hc)
  rw [List.takeWhile_append_of_pos hall, List.dropWhile_append_of_pos hall]
  rcases ends with rfl | ⟨below, rfl⟩ <;> simp

private theorem gap_newline (cs : List Char) : gap ('\n' :: cs) = (gap cs).after ['\n'] := by
  rw [gap]
  · rw [if_pos (by decide)]
  · simp
  · simp

theorem gap_taken_append {cs r : List Char} (closed : (gap cs).isOpen = false)
    (more : (gap cs).rest ≠ []) (ends : endsGap r = true) :
    gap ((gap cs).taken ++ r) = ⟨(gap cs).taken, r, false⟩ := by
  fun_induction gap cs with
  | case1 => simp at more
  | case2 rest ih =>
    have hih := ih closed more
    rcases dropWhile_line rest with hd | ⟨tail, hd⟩
    · rw [hd] at more
      simp [gap, Gap.after] at more
    · rw [hd, gap_newline] at hih ⊢
      simp only [Gap.after, List.cons_append, List.nil_append, List.append_assoc] at hih ⊢
      obtain ⟨htake, hdrop⟩ := line_cut (newline_notMem_takeWhile rest)
        (.inr ⟨(gap tail).taken ++ r, rfl⟩)
      rw [gap, htake, hdrop, hih]
      rfl
  | case3 rest hcut => simp at closed
  | case4 rest body rest' hcut ih =>
    have hih := ih closed more
    have hclose := closeComment?_body_append hcut ((gap rest').taken ++ r)
    simp only [Gap.after, List.cons_append, List.append_assoc]
    rw [gap]
    split
    · rename_i hnone
      rw [hclose] at hnone
      simp at hnone
    · rename_i b t hsome
      rw [hclose] at hsome
      obtain ⟨rfl, rfl⟩ : body = b ∧ (gap rest').taken ++ r = t := by simpa using hsome
      rw [hih]
      rfl
  | case5 c rest hline hblock hblank ih =>
    have hih := ih closed more
    have hc : c ≠ '/' := by
      rintro rfl
      simp [Text.isBlank, Text.blankRanges] at hblank
    simp only [Gap.after, List.cons_append, List.nil_append]
    rw [gap]
    · rw [if_pos hblank, hih]
      rfl
    · exact fun _ he => absurd he hc
    · exact fun _ he => absurd he hc
  | case6 c rest hline hblock hblank =>
    exact gap_of_endsGap ends

private theorem number_taken_append {isHex : Bool} {before : Char} {cs r : List Char}
    (alike : Alike (number isHex before cs).2 r) :
    number isHex before ((number isHex before cs).1 ++ r) =
      ((number isHex before cs).1, r) := by
  fun_induction number isHex before cs with
  | case1 before =>
    cases r with
    | nil => rfl
    | cons d r => simp [Alike] at alike
  | case2 before c cs hpart taken rest heq ih =>
    rw [heq] at ih
    have hih := ih alike
    simp only [List.cons_append, number, hpart, if_true, hih]
  | case3 before c cs hpart =>
    cases r with
    | nil => simp [Alike] at alike
    | cons d r =>
      simp only [Alike, List.head?_cons, Option.some.injEq, Option.any_some] at alike
      rcases alike with rfl | ⟨hc, -⟩
      · simp only [List.nil_append, number, hpart]
        rfl
      · have := isWordPart_of_isWordStart hc
        simp only [isWordPart] at this
        simp_all

theorem ne_backslash {c : Char} {cs : List Char} (hlast : c = '\\' → cs = [] → False)
    (hmore : ∀ d ds, c = '\\' → cs = d :: ds → False) : c ≠ '\\' := by
  intro hc
  cases cs with
  | nil => exact hlast hc rfl
  | cons d ds => exact hmore d ds hc rfl

theorem closeString_cons {quote c : Char} {cs : List Char} (hc : c ≠ '\\') :
    closeString quote (c :: cs) =
      if c = '\n' then ([], c :: cs, false)
      else if c = quote then ([c], cs, true)
      else (c :: (closeString quote cs).1, (closeString quote cs).2) := by
  rw [closeString]
  · exact fun he => absurd he hc
  · exact fun _ _ he => absurd he hc

private theorem closeString_taken_append {quote : Char} {cs : List Char}
    (closed : (closeString quote cs).2.2 = true) (r : List Char) :
    closeString quote ((closeString quote cs).1 ++ r) =
      ((closeString quote cs).1, r, true) := by
  fun_induction closeString quote cs with
  | case1 => simp at closed
  | case2 => simp at closed
  | case3 c cs taken rest closed' heq ih =>
    rw [heq] at ih
    simp only [List.cons_append, closeString, ih closed]
  | case4 cs _ _ => simp at closed
  | case5 cs hlast hmore hline =>
    have hc := ne_backslash hlast hmore
    rw [List.cons_append, closeString_cons hc]
    simp [hline]
  | case6 c cs hlast hmore hline hquote taken rest closed' heq ih =>
    rw [heq] at ih
    have hc := ne_backslash hlast hmore
    rw [List.cons_append, closeString_cons hc, ih closed]
    simp [hline, hquote]

theorem head_identifier {text r : List Char} (word : isIdentifier text = true)
    (stops : r.head?.any isWordPart = false) :
    head (text ++ r) = .token .identifier text r := by
  cases text with
  | nil => simp [isIdentifier] at word
  | cons c cs =>
    obtain ⟨hc, hcs⟩ : isWordStart c = true ∧ ∀ d ∈ cs, isWordPart d = true := by
      simpa [isIdentifier] using word
    have hr : r.takeWhile isWordPart = [] ∧ r.dropWhile isWordPart = r := by
      cases r with
      | nil => exact ⟨rfl, rfl⟩
      | cons d r =>
        have hd : isWordPart d = false := by simpa using stops
        simp [hd]
    rw [List.cons_append, head, if_pos hc, List.takeWhile_append_of_pos hcs,
      List.dropWhile_append_of_pos hcs, hr.1, hr.2, List.append_nil]

theorem stops_of_head_identifier {cs text rest : List Char}
    (h : head cs = .token .identifier text rest) :
    isIdentifier text = true ∧ rest.head?.any isWordPart = false := by
  cases cs with
  | nil => simp [head] at h
  | cons c cs =>
    have hstop : (cs.dropWhile isWordPart).head?.any isWordPart = false := by
      have := List.head?_dropWhile_not isWordPart cs
      cases hd : (cs.dropWhile isWordPart).head? <;> simp_all
    by_cases hc : isWordStart c = true
    · rw [head, if_pos hc] at h
      obtain ⟨-, rfl, rfl⟩ := Head.token.inj h
      exact ⟨by simp [isIdentifier, hc, List.all_takeWhile], hstop⟩
    · grind [head]

theorem Alike.stops {r r' : List Char} (alike : Alike r r')
    (stops : r.head?.any isWordPart = false) : r'.head?.any isWordPart = false := by
  rcases alike with he | ⟨hr, -⟩
  · rw [← he]
    exact stops
  · cases r with
    | nil => simp at hr
    | cons c r =>
      have := isWordPart_of_isWordStart (by simpa using hr)
      simp_all

theorem beginsNumber_cons (c : Char) (cs : List Char) :
    beginsNumber (c :: cs) = (c.isDigit || (c = '.' && cs.head?.any Char.isDigit)) := by
  by_cases hc : c = '.'
  · subst hc
    cases cs <;> simp [beginsNumber]
  · cases cs <;> simp [beginsNumber, hc]

theorem isHexadecimal_cons (c : Char) (cs : List Char) :
    isHexadecimal (c :: cs) = (c = '0' && cs.head?.any fun d => d = 'x' || d = 'X') := by
  by_cases hc : c = '0'
  · subst hc
    cases cs with
    | nil => rfl
    | cons d cs =>
      by_cases hx : d = 'x'
      · simp [hx, isHexadecimal]
      · by_cases hX : d = 'X' <;> simp [hx, hX, isHexadecimal]
  · simp [isHexadecimal, hc]

theorem isDigit_of_isWordStart {c : Char} (h : isWordStart c = true) :
    c.isDigit = false := by
  cases hd : c.isDigit with
  | false => rfl
  | true =>
    have hd := isDigit_iff.1 hd
    simp only [isWordStart, isAlpha_eq, Bool.or_eq_true, isUpper_iff, isLower_iff,
      decide_eq_true_eq] at h
    rcases h with h | rfl
    · omega
    · simp at hd

private theorem number_stops {isHex : Bool} {before : Char} {cs : List Char}
    (h : (number isHex before cs).1 = []) : cs.head?.any isWordPart = false := by
  cases cs with
  | nil => rfl
  | cons c cs =>
    simp only [number] at h
    split at h
    · simp at h
    · simp_all [isWordPart]

private theorem head?_number_taken {isHex : Bool} {before : Char} {cs r : List Char}
    (alike : Alike (number isHex before cs).2 r) {test : Char → Bool}
    (part : ∀ c, test c = true → isWordPart c = true) :
    ((number isHex before cs).1 ++ r).head?.any test = cs.head?.any test := by
  have happ := number_append isHex before cs
  cases htaken : (number isHex before cs).1 with
  | nil =>
    have hstop := number_stops htaken
    rw [htaken, List.nil_append] at happ
    rw [happ] at alike
    have hr := alike.stops hstop
    have none : ∀ xs : List Char, xs.head?.any isWordPart = false → xs.head?.any test = false := by
      intro xs hxs
      cases xs with
      | nil => rfl
      | cons x xs =>
        have hx : isWordPart x = false := by simpa using hxs
        cases ht : test x with
        | false => simpa using ht
        | true => rw [part x ht] at hx; simp at hx
    rw [List.nil_append, none r hr, none cs hstop]
  | cons d taken =>
    rw [← happ, htaken]
    rfl

theorem isWordPart_of_isDigit {c : Char} (h : c.isDigit = true) : isWordPart c = true := by
  simp [isWordPart, Char.isAlphanum, h]

theorem Alike.any_head? {r r' : List Char} (alike : Alike r r') {test : Char → Bool}
    (fails : ∀ c, isWordStart c = true → test c = false) :
    r.head?.any test = r'.head?.any test := by
  have none : ∀ xs : List Char, xs.head?.any isWordStart = true → xs.head?.any test = false := by
    intro xs hxs
    cases xs with
    | nil => rfl
    | cons x xs => simpa using fails x (by simpa using hxs)
  rcases alike with he | ⟨hr, hr'⟩
  · rw [he]
  · rw [none r hr, none r' hr']

private theorem Alike.beginsNumber {c : Char} {r r' : List Char} (alike : Alike r r') :
    Scan.beginsNumber (c :: r) = Scan.beginsNumber (c :: r') := by
  rw [beginsNumber_cons, beginsNumber_cons, alike.any_head? fun _ => isDigit_of_isWordStart]

theorem endsGap_cons (c : Char) (cs : List Char) :
    endsGap (c :: cs) =
      (!Text.isBlank c && !(c = '/' && cs.head?.any fun d => d = '/' || d = '*')) := by
  by_cases hc : c = '/'
  · subst hc
    cases cs with
    | nil => rfl
    | cons d cs =>
      by_cases hs : d = '/'
      · simp [hs, endsGap]
      · by_cases hd : d = '*' <;> simp [hs, hd, endsGap]
  · simp [endsGap, hc]

theorem isBlank_of_isWordPart {c : Char} (h : isWordPart c = true) : Text.isBlank c = false := by
  have hn : (48 ≤ c.toNat ∧ c.toNat ≤ 57) ∨ (65 ≤ c.toNat ∧ c.toNat ≤ 90) ∨
      (97 ≤ c.toNat ∧ c.toNat ≤ 122) ∨ c.toNat = 95 := by
    simp only [isWordPart, Char.isAlphanum, isAlpha_eq, Bool.or_eq_true, isUpper_iff, isLower_iff,
      isDigit_iff, decide_eq_true_eq] at h
    rcases h with ((h | h) | h) | rfl
    · exact .inr (.inl h)
    · exact .inr (.inr (.inl h))
    · exact .inl h
    · exact .inr (.inr (.inr rfl))
  rw [← Bool.not_eq_true]
  intro hb
  simp only [Text.isBlank, Text.blankRanges, List.any_cons, List.any_nil, Bool.or_false,
    Bool.or_eq_true, Bool.and_eq_true, decide_eq_true_eq] at hb
  omega

private theorem ne_slash_of_isWordStart {c : Char} (h : isWordStart c = true) :
    (c = '/' || c = '*') = false := by
  rcases hb : (decide (c = '/') || decide (c = '*')) with _ | _
  · rfl
  · rcases (by simpa using hb : c = '/' ∨ c = '*') with rfl | rfl <;> simp [isWordStart] at h

theorem Alike.endsGap {text r r' : List Char} (alike : Alike r r') (nonempty : text ≠ [])
    (h : endsGap (text ++ r) = true) : endsGap (text ++ r') = true := by
  obtain ⟨c, cs, rfl⟩ := List.exists_cons_of_ne_nil nonempty
  rw [List.cons_append, endsGap_cons] at h ⊢
  cases cs with
  | nil =>
    rw [List.nil_append, ← alike.any_head? fun _ => ne_slash_of_isWordStart]
    exact h
  | cons d cs => exact h

theorem any_isWordStart_of_isIdentifier {text : List Char} (word : isIdentifier text = true)
    (r : List Char) : (text ++ r).head?.any isWordStart = true := by
  cases text with
  | nil => simp [isIdentifier] at word
  | cons c cs =>
    have hc : isWordStart c = true ∧ ∀ d ∈ cs, isWordPart d = true := by
      simpa [isIdentifier] using word
    exact hc.1

theorem endsGap_identifier {text : List Char} (word : isIdentifier text = true) (r : List Char) :
    endsGap (text ++ r) = true := by
  cases text with
  | nil => simp [isIdentifier] at word
  | cons c cs =>
    have hc : isWordStart c = true := any_isWordStart_of_isIdentifier word []
    have hslash : c ≠ '/' := by
      rintro rfl
      simp [isWordStart] at hc
    rw [List.cons_append, endsGap_cons, isBlank_of_isWordPart (isWordPart_of_isWordStart hc)]
    simp [hslash]

theorem head_text_append {cs text rest r : List Char} {kind : TokenKind}
    (h : head cs = .token kind text rest) (alike : Alike rest r) :
    head (text ++ r) = .token kind text r := by
  cases cs with
  | nil => simp [head] at h
  | cons c cs =>
    by_cases hc : isWordStart c = true
    · obtain ⟨rfl, -, -⟩ : TokenKind.identifier = kind ∧ _ ∧ _ := by
        simpa [head, hc] using h
      obtain ⟨hword, hstop⟩ := stops_of_head_identifier h
      exact head_identifier hword (alike.stops hstop)
    · rw [head, if_neg hc] at h
      by_cases hn : beginsNumber (c :: cs) = true
      · rw [if_pos hn] at h
        obtain ⟨rfl, rfl, rfl⟩ := Head.token.inj h
        have hbegins : beginsNumber
            (c :: ((number (isHexadecimal (c :: cs)) c cs).1 ++ r)) = true := by
          rw [beginsNumber_cons, head?_number_taken alike fun d => isWordPart_of_isDigit,
            ← beginsNumber_cons, hn]
        have hhex : isHexadecimal (c :: ((number (isHexadecimal (c :: cs)) c cs).1 ++ r)) =
            isHexadecimal (c :: cs) := by
          rw [isHexadecimal_cons c (_ ++ r), head?_number_taken alike, ← isHexadecimal_cons]
          intro d hd
          rcases (by simpa using hd : d = 'x' ∨ d = 'X') with rfl | rfl <;> decide
        rw [List.cons_append, head, if_neg hc, if_pos hbegins, hhex, number_taken_append alike]
      · rw [if_neg hn] at h
        by_cases hq : (c = '"' || c = '\'') = true
        · rw [if_pos hq] at h
          have hclose : (closeString c cs).2.2 = true → closeString c ((closeString c cs).1 ++ r) =
              ((closeString c cs).1, r, true) := fun h => closeString_taken_append h r
          rcases hs : closeString c cs with ⟨taken, rest', closed⟩
          rw [hs] at h hclose
          cases closed with
          | false => simp at h
          | true =>
            obtain ⟨rfl, rfl, rfl⟩ := Head.token.inj h
            have hnone : beginsNumber (c :: (taken ++ r)) = false := by
              rw [beginsNumber_cons]
              rcases (by simpa using hq : c = '"' ∨ c = '\'') with rfl | rfl <;> simp
            rw [List.cons_append, head, if_neg hc, hnone, if_neg (by simp), if_pos hq, hclose rfl]
            rfl
        · rw [if_neg hq] at h
          split at h
          · rename_i hp
            obtain ⟨rfl, rfl, rfl⟩ := Head.token.inj h
            rw [List.cons_append, List.nil_append, head, if_neg hc, ← alike.beginsNumber, if_neg hn,
              if_neg hq, if_pos hp]
          · simp at h

end SchemaLint.Scan
