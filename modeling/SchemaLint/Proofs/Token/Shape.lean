import Mathlib.Data.List.Infix
import SchemaLint.Proofs.Token.Scan

/-!
# The shapes of gaps and tokens

What a blank, a comment, a token and a fault are, said without the scanners.  Every scanner cuts a
text where these shapes end, and nowhere else.
-/

set_option autoImplicit false
set_option relaxedAutoImplicit false

namespace SchemaLint.Scan

/-- A blank or a comment, and the text behind it.  A comment on a line reaches to the end of the line
or of the text, a block comment to its first closing mark. -/
inductive Filler : List Char → List Char → Prop
  | blank {c : Char} {after : List Char} (blank : Text.isBlank c = true) : Filler [c] after
  | line {content after : List Char} (single : '\n' ∉ content)
      (ends : after = [] ∨ ∃ below, after = '\n' :: below) : Filler ('/' :: '/' :: content) after
  | block {content after : List Char} (first : ¬['*', '/'] <:+: content) :
      Filler ('/' :: '*' :: (content ++ ['*', '/'])) after

/-- Blanks and comments one behind the other, and the text behind them. -/
inductive Spacing : List Char → List Char → Prop
  | nil {after : List Char} : Spacing [] after
  | cons {first others after : List Char} (filler : Filler first (others ++ after))
      (more : Spacing others after) : Spacing (first ++ others) after

/-- A quoted string behind its opening quote.  It ends at the first such quote that is not escaped,
and a line ends in it only where that is escaped. -/
inductive Quoted (quote : Char) : List Char → Prop
  | close : Quoted quote [quote]
  | escaped {c : Char} {cs : List Char} (more : Quoted quote cs) : Quoted quote ('\\' :: c :: cs)
  | plain {c : Char} {cs : List Char} (solid : c ≠ '\\' ∧ c ≠ '\n' ∧ c ≠ quote)
      (more : Quoted quote cs) : Quoted quote (c :: cs)

/-- Whether a number goes on with a character behind another one. -/
def goesOn (isHex : Bool) (before c : Char) : Bool :=
  c.isAlphanum || c = '.' || c = '_' ||
    ((c = '+' || c = '-') && (before = 'e' || before = 'E') && !isHex)

/-- A token of some kind, and the text behind it, which does not belong to the token any more. -/
inductive IsToken : TokenKind → List Char → List Char → Prop
  | identifier {text after : List Char} (word : isIdentifier text = true)
      (stops : ∀ d ∈ after.head?, isWordPart d = false) : IsToken .identifier text after
  | number {text after : List Char} (begins : beginsNumber text = true)
      (parts : text.IsChain (goesOn (isHexadecimal text) · · = true))
      (stops : ∀ b ∈ text.getLast?, ∀ d ∈ after.head?, goesOn (isHexadecimal text) b d = false) :
      IsToken .number text after
  | string {quote : Char} {body after : List Char} (opens : quote = '"' ∨ quote = '\'')
      (quoted : Quoted quote body) : IsToken .string (quote :: body) after
  | symbol {c : Char} {after : List Char} (mark : isPunctuation c = true)
      (alone : c ≠ '_' ∧ c ≠ '"' ∧ c ≠ '\'')
      (point : c = '.' → ∀ d ∈ after.head?, d.isDigit = false)
      (slash : c = '/' → ∀ d ∈ after.head?, d ≠ '/' ∧ d ≠ '*') : IsToken .symbol [c] after

/-- A fault at the beginning of a text: a block comment without an end, a quoted string without an
end, or a character that begins nothing. -/
inductive IsFault : LexFault → List Char → Prop
  | openComment {cs : List Char} (unclosed : ¬['*', '/'] <:+: cs) :
      IsFault .openComment ('/' :: '*' :: cs)
  | openString {quote : Char} {cs : List Char} (opens : quote = '"' ∨ quote = '\'')
      (unclosed : ∀ body after, cs = body ++ after → ¬Quoted quote body) :
      IsFault .openString (quote :: cs)
  | unexpected {c : Char} {cs : List Char} (blank : Text.isBlank c = false)
      (part : isWordPart c = false) (mark : isPunctuation c = false) :
      IsFault (.unexpected c) (c :: cs)

/-! ## Gaps -/

theorem closeComment?_eq_some_iff {cs body rest : List Char} :
    closeComment? cs = some (body, rest) ↔
      ∃ content, body = content ++ ['*', '/'] ∧ cs = body ++ rest ∧ ¬['*', '/'] <:+: content := by
  constructor
  · intro h
    fun_induction closeComment? cs generalizing body rest with
    | case1 => simp at h
    | case2 tail =>
      obtain ⟨rfl, rfl⟩ : ['*', '/'] = body ∧ tail = rest := by simpa using h
      exact ⟨[], rfl, rfl, by simp⟩
    | case3 c cs hopen ih =>
      obtain ⟨⟨b, r⟩, hcut, heq⟩ := Option.map_eq_some_iff.1 h
      obtain ⟨rfl, rfl⟩ : c :: b = body ∧ r = rest := by simpa using heq
      obtain ⟨content, rfl, rfl, hfirst⟩ := ih hcut
      refine ⟨c :: content, rfl, rfl, fun hinfix => ?_⟩
      rcases List.infix_cons_iff.1 hinfix with hprefix | hinfix
      · obtain ⟨tail, htail⟩ := hprefix
        obtain ⟨rfl, rfl⟩ : '*' = c ∧ '/' :: tail = content := by simpa using htail
        exact hopen _ rfl rfl
      · exact hfirst hinfix
  · rintro ⟨content, rfl, rfl, hfirst⟩
    induction content with
    | nil => rfl
    | cons c content ih =>
      have hmore := ih fun hinfix => hfirst (List.infix_cons_iff.2 (.inr hinfix))
      have hslash : ∀ tail, c = '*' → content ++ ['*', '/'] ++ rest = '/' :: tail → False := by
        rintro tail rfl htail
        cases content with
        | nil => simp at htail
        | cons d content =>
          obtain rfl : d = '/' := by simpa using congrArg List.head? htail
          exact hfirst ⟨[], content, rfl⟩
      rw [List.cons_append, List.cons_append, closeComment?]
      · rw [hmore]
        rfl
      · exact hslash

theorem closeComment?_eq_none_iff {cs : List Char} :
    closeComment? cs = none ↔ ¬['*', '/'] <:+: cs := by
  fun_induction closeComment? cs with
  | case1 => simp
  | case2 tail => simpa using ⟨[], tail, rfl⟩
  | case3 c cs hopen ih =>
    rw [Option.map_eq_none_iff, ih, List.infix_cons_iff, not_or]
    refine ⟨fun h => ⟨?_, h⟩, And.right⟩
    rintro ⟨tail, htail⟩
    obtain ⟨rfl, rfl⟩ : '*' = c ∧ '/' :: tail = cs := by simpa using htail
    exact hopen _ rfl rfl

theorem spacing_gap (cs : List Char) : Spacing (gap cs).taken (gap cs).rest := by
  fun_induction gap cs with
  | case1 => exact .nil
  | case2 rest ih =>
    have hends := dropWhile_line rest
    rw [← gap_append (rest.dropWhile (· ≠ '\n'))] at hends
    exact .cons (.line (newline_notMem_takeWhile rest) hends) ih
  | case3 => exact .nil
  | case4 rest body rest' hcut ih =>
    obtain ⟨content, rfl, -, hfirst⟩ := closeComment?_eq_some_iff.1 hcut
    exact .cons (.block hfirst) ih
  | case5 c rest _ _ hblank ih => exact .cons (.blank hblank) ih
  | case6 => exact .nil

theorem exists_openComment {cs : List Char} (h : (gap cs).isOpen = true) :
    ∃ tail, (gap cs).rest = '/' :: '*' :: tail ∧ ¬['*', '/'] <:+: tail := by
  fun_induction gap cs with
  | case1 => simp at h
  | case2 rest ih => exact ih h
  | case3 rest hcut => exact ⟨rest, rfl, closeComment?_eq_none_iff.1 hcut⟩
  | case4 rest body rest' hcut ih => exact ih h
  | case5 c rest _ _ hblank ih => exact ih h
  | case6 => simp at h

theorem gap_filler {first after : List Char} (h : Filler first after) :
    gap (first ++ after) = (gap after).after first := by
  cases h with
  | @blank c _ hblank =>
    have hc : c ≠ '/' := by
      rintro rfl
      exact absurd hblank (by decide)
    rw [List.singleton_append, gap]
    · rw [if_pos hblank]
    · exact fun _ he => absurd he hc
    · exact fun _ he => absurd he hc
  | @line content _ hsingle hends =>
    obtain ⟨htake, hdrop⟩ := line_cut hsingle hends
    rw [List.cons_append, List.cons_append, gap, htake, hdrop]
  | @block content _ hfirst =>
    have hclose : closeComment? (content ++ ['*', '/'] ++ after) =
        some (content ++ ['*', '/'], after) :=
      closeComment?_eq_some_iff.2 ⟨content, rfl, rfl, hfirst⟩
    rw [List.cons_append, List.cons_append, gap]
    split
    · rename_i hnone
      rw [hclose] at hnone
      cases hnone
    · rename_i b t hsome
      rw [hclose] at hsome
      obtain ⟨rfl, rfl⟩ : content ++ ['*', '/'] = b ∧ after = t := by simpa using hsome
      rfl

theorem gap_spacing {spacing after : List Char} (h : Spacing spacing after) :
    gap (spacing ++ after) = (gap after).after spacing := by
  induction h with
  | nil => rfl
  | cons filler _ ih =>
    rw [List.append_assoc, gap_filler filler, ih]
    simp [Gap.after]

theorem gap_eq_closed_iff {cs taken rest : List Char} : gap cs = ⟨taken, rest, false⟩ ↔
    cs = taken ++ rest ∧ Spacing taken rest ∧ (rest = [] ∨ endsGap rest = true) := by
  constructor
  · intro h
    have happ := gap_append cs
    have hspacing := spacing_gap cs
    have hends := @endsGap_rest_gap cs
    rw [h] at happ hspacing hends
    exact ⟨happ.symm, hspacing, or_iff_not_imp_left.2 fun hmore => hends rfl hmore⟩
  · rintro ⟨rfl, hspacing, hends⟩
    have hrest : gap rest = ⟨[], rest, false⟩ := by
      rcases hends with rfl | hends
      · rw [gap]
      · exact gap_of_endsGap hends
    rw [gap_spacing hspacing, hrest]
    simp [Gap.after]

theorem gap_eq_open_iff {cs taken rest : List Char} : gap cs = ⟨taken, rest, true⟩ ↔
    cs = taken ++ rest ∧ Spacing taken rest ∧ IsFault .openComment rest := by
  constructor
  · intro h
    have happ := gap_append cs
    have hspacing := spacing_gap cs
    have hopen := @exists_openComment cs
    rw [h] at happ hspacing hopen
    obtain ⟨tail, rfl, hunclosed⟩ := hopen rfl
    exact ⟨happ.symm, hspacing, .openComment hunclosed⟩
  · rintro ⟨rfl, hspacing, ⟨hunclosed⟩⟩
    rename_i tail
    have hnone := closeComment?_eq_none_iff.2 hunclosed
    have hrest : gap ('/' :: '*' :: tail) = ⟨[], '/' :: '*' :: tail, true⟩ := by
      rw [gap]
      split
      · rfl
      · rename_i hsome
        rw [hnone] at hsome
        cases hsome
    rw [gap_spacing hspacing, hrest]
    simp [Gap.after]

theorem Spacing.head {c : Char} {cs after : List Char} (h : Spacing (c :: cs) after) :
    Text.isBlank c = true ∨ c = '/' := by
  generalize hgap : c :: cs = gap at h
  cases h with
  | nil => cases hgap
  | cons filler more =>
    cases filler with
    | blank blank => exact .inl ((List.cons.inj hgap).1 ▸ blank)
    | line | block => exact .inr (List.cons.inj hgap).1

/-! ## Numbers and strings -/

theorem number_eq_iff {isHex : Bool} {before : Char} {cs taken rest : List Char} :
    number isHex before cs = (taken, rest) ↔ cs = taken ++ rest ∧
      (before :: taken).IsChain (goesOn isHex · · = true) ∧
      ∀ b ∈ (before :: taken).getLast?, ∀ d ∈ rest.head?, goesOn isHex b d = false := by
  induction cs generalizing before taken with
  | nil =>
    simp only [number, Prod.mk.injEq]
    constructor
    · rintro ⟨rfl, rfl⟩
      simp
    · rintro ⟨happ, -, -⟩
      obtain ⟨rfl, rfl⟩ := List.append_eq_nil_iff.1 happ.symm
      exact ⟨rfl, rfl⟩
  | cons c cs ih =>
    have hnumber : number isHex before (c :: cs) =
        if goesOn isHex before c = true then
          (c :: (number isHex c cs).1, (number isHex c cs).2)
        else ([], c :: cs) := rfl
    rw [hnumber]
    constructor
    · intro h
      split at h
      · rename_i hgoes
        obtain ⟨rfl, rfl⟩ := Prod.mk.inj h
        obtain ⟨happ, hchain, hstops⟩ := ih.1 (rfl : number isHex c cs = _)
        refine ⟨congrArg (c :: ·) happ, List.isChain_cons_cons.2 ⟨hgoes, hchain⟩, ?_⟩
        rw [List.getLast?_cons_cons]
        exact hstops
      · rename_i hgoes
        obtain ⟨rfl, rfl⟩ := Prod.mk.inj h
        simpa using hgoes
    · rintro ⟨happ, hchain, hstops⟩
      cases taken with
      | nil =>
        rw [List.nil_append] at happ
        subst happ
        rw [if_neg (by simp [hstops before rfl c rfl])]
      | cons d taken =>
        obtain ⟨rfl, rfl⟩ := List.cons.inj happ
        obtain ⟨hgoes, hchain⟩ := List.isChain_cons_cons.1 hchain
        rw [List.getLast?_cons_cons] at hstops
        rw [if_pos hgoes, ih.2 ⟨rfl, hchain, hstops⟩]

theorem closeString_eq_iff {quote : Char} (hq : quote = '"' ∨ quote = '\'')
    {cs taken rest : List Char} :
    closeString quote cs = (taken, rest, true) ↔ cs = taken ++ rest ∧ Quoted quote taken := by
  have hsolid : quote ≠ '\\' ∧ quote ≠ '\n' := by rcases hq with rfl | rfl <;> decide
  constructor
  · intro h
    fun_induction closeString quote cs generalizing taken rest with
    | case1 => simp at h
    | case2 => simp at h
    | case3 c cs taken' rest' closed heq ih =>
      obtain ⟨rfl, rfl, rfl⟩ : '\\' :: c :: taken' = taken ∧ rest' = rest ∧ closed = true := by
        simpa using h
      obtain ⟨rfl, hquoted⟩ := ih heq
      exact ⟨rfl, .escaped hquoted⟩
    | case4 => simp at h
    | case5 cs _ _ _ =>
      obtain ⟨rfl, rfl⟩ : [quote] = taken ∧ cs = rest := by simpa using h
      exact ⟨rfl, .close⟩
    | case6 c cs hlast hmore hline hquote taken' rest' closed heq ih =>
      obtain ⟨rfl, rfl, rfl⟩ : c :: taken' = taken ∧ rest' = rest ∧ closed = true := by
        simpa using h
      obtain ⟨rfl, hquoted⟩ := ih heq
      exact ⟨rfl, .plain ⟨ne_backslash hlast hmore, hline, hquote⟩ hquoted⟩
  · rintro ⟨rfl, hquoted⟩
    induction hquoted with
    | close =>
      rw [List.cons_append, closeString_cons hsolid.1, if_neg hsolid.2, if_pos rfl]
      rfl
    | escaped _ ih => simp [closeString, ih]
    | plain hplain _ ih =>
      rw [List.cons_append, closeString_cons hplain.1, if_neg hplain.2.1, if_neg hplain.2.2, ih]

theorem closed_closeString_iff {quote : Char} (hq : quote = '"' ∨ quote = '\'') {cs : List Char} :
    (closeString quote cs).2.2 = false ↔ ∀ body after, cs = body ++ after → ¬Quoted quote body := by
  constructor
  · rintro h body after rfl hquoted
    rw [(closeString_eq_iff hq).2 ⟨rfl, hquoted⟩] at h
    cases h
  · intro h
    rcases hclose : closeString quote cs with ⟨taken, rest, closed⟩
    cases closed with
    | false => rfl
    | true =>
      obtain ⟨happ, hquoted⟩ := (closeString_eq_iff hq).1 hclose
      exact absurd hquoted (h _ _ happ)

/-! ## Tokens and faults -/

theorem isPunctuation_iff {c : Char} : isPunctuation c = true ↔
    (33 ≤ c.toNat ∧ c.toNat ≤ 47) ∨ (58 ≤ c.toNat ∧ c.toNat ≤ 64) ∨
      (91 ≤ c.toNat ∧ c.toNat ≤ 96) ∨ (123 ≤ c.toNat ∧ c.toNat ≤ 126) := by
  simp only [isPunctuation, Bool.or_eq_true, Bool.and_eq_true, decide_eq_true_eq, Char.le_def,
    UInt32.le_iff_toNat_le, or_assoc]
  rfl

theorem isBlank_of_isPunctuation {c : Char} (h : isPunctuation c = true) :
    Text.isBlank c = false := by
  have hn := isPunctuation_iff.1 h
  rw [← Bool.not_eq_true]
  intro hb
  simp only [Text.isBlank, Text.blankRanges, List.any_cons, List.any_nil, Bool.or_false,
    Bool.or_eq_true, Bool.and_eq_true, decide_eq_true_eq] at hb
  omega

private theorem isWordStart_of_isPunctuation {c : Char} (h : isPunctuation c = true)
    (alone : c ≠ '_') : isWordStart c = false ∧ c.isDigit = false := by
  have hn := isPunctuation_iff.1 h
  simp only [← Bool.not_eq_true, isWordStart, isAlpha_eq, Bool.or_eq_true, isUpper_iff,
    isLower_iff, isDigit_iff, decide_eq_true_eq, not_or]
  exact ⟨⟨⟨by omega, by omega⟩, alone⟩, by omega⟩

private theorem any_head?_append {test : Char → Bool} {cs after : List Char}
    (stops : cs = [] → ∀ d ∈ after.head?, test d = false) :
    (cs ++ after).head?.any test = cs.head?.any test := by
  cases cs with
  | nil =>
    cases after with
    | nil => rfl
    | cons d after => simpa using stops rfl d rfl
  | cons c cs => rfl

private theorem isAlphanum_of_goesOn {isHex : Bool} {before c : Char}
    (h : goesOn isHex before c = false) : c.isAlphanum = false := by
  simp only [goesOn, Bool.or_eq_false_iff] at h
  exact h.1.1.1

private theorem number_append_after {isHex : Bool} {c : Char} {cs after : List Char}
    (stops : ∀ b ∈ (c :: cs).getLast?, ∀ d ∈ after.head?, goesOn isHex b d = false) :
    beginsNumber (c :: (cs ++ after)) = beginsNumber (c :: cs) ∧
      isHexadecimal (c :: (cs ++ after)) = isHexadecimal (c :: cs) := by
  have hpart : cs = [] → ∀ d ∈ after.head?, d.isAlphanum = false := by
    rintro rfl d hd
    exact isAlphanum_of_goesOn (stops c rfl d hd)
  rw [beginsNumber_cons, beginsNumber_cons, isHexadecimal_cons, isHexadecimal_cons,
    any_head?_append, any_head?_append]
  · exact ⟨rfl, rfl⟩
  · intro hnil d hd
    have hd := hpart hnil d hd
    rcases hx : (decide (d = 'x') || decide (d = 'X')) with _ | _
    · rfl
    · rcases (by simpa using hx : d = 'x' ∨ d = 'X') with rfl | rfl <;> exact absurd hd (by decide)
  · intro hnil d hd
    have hd := hpart hnil d hd
    simp only [Char.isAlphanum, Bool.or_eq_false_iff] at hd
    exact hd.2

theorem stops_iff {test : Char → Bool} {after : List Char} :
    after.head?.any test = false ↔ ∀ d ∈ after.head?, test d = false := by
  cases after <;> simp

private theorem not_isWordStart_of_beginsNumber {c : Char} {cs : List Char}
    (h : beginsNumber (c :: cs) = true) : ¬isWordStart c = true := by
  intro hstart
  rw [beginsNumber_cons, isDigit_of_isWordStart hstart] at h
  obtain rfl : c = '.' := by simp_all
  exact absurd hstart (by decide)

theorem IsToken.ne_nil {kind : TokenKind} {text after : List Char} (h : IsToken kind text after) :
    text ≠ [] := by
  rintro rfl
  cases h with
  | identifier word => cases word
  | number begins => cases begins

theorem IsToken.head_append {kind : TokenKind} {text after : List Char}
    (h : IsToken kind text after) : head (text ++ after) = .token kind text after := by
  cases h with
  | identifier word stops => exact head_identifier word (stops_iff.2 stops)
  | number begins parts stops =>
    cases text with
    | nil => simp [beginsNumber] at begins
    | cons c cs =>
      obtain ⟨hbegins, hhex⟩ := number_append_after stops
      have hnumber := number_eq_iff.2 ⟨rfl, parts, stops⟩
      rw [List.cons_append, head, if_neg (not_isWordStart_of_beginsNumber begins),
        if_pos (hbegins.trans begins), hhex, hnumber]
  | @string quote body _ opens quoted =>
    have hclose : closeString quote (body ++ after) = (body, after, true) :=
      (closeString_eq_iff opens).2 ⟨rfl, quoted⟩
    have hstart : ¬isWordStart quote = true := by rcases opens with rfl | rfl <;> decide
    have hnone : ¬beginsNumber (quote :: (body ++ after)) = true := by
      rw [beginsNumber_cons]
      rcases opens with rfl | rfl <;> simp
    rw [List.cons_append, head, if_neg hstart, if_neg hnone, if_pos (by simpa using opens), hclose]
    rfl
  | @symbol c _ mark alone point slash =>
    obtain ⟨hstart, hdigit⟩ := isWordStart_of_isPunctuation mark alone.1
    have hnone : beginsNumber (c :: after) = false := by
      rw [beginsNumber_cons, hdigit, Bool.false_or, Bool.and_eq_false_imp]
      intro hpoint
      exact stops_iff.2 (point (by simpa using hpoint))
    rw [List.singleton_append, head, if_neg (by simp [hstart]), if_neg (by simp [hnone]),
      if_neg (by simpa using alone.2), if_pos mark]

theorem IsToken.endsGap_append {kind : TokenKind} {text after : List Char}
    (h : IsToken kind text after) : endsGap (text ++ after) = true := by
  cases h with
  | identifier word => exact endsGap_identifier word after
  | number begins =>
    cases text with
    | nil => simp [beginsNumber] at begins
    | cons c cs =>
      have hc : c.isDigit = true ∨ c = '.' := by
        rw [beginsNumber_cons, Bool.or_eq_true, Bool.and_eq_true, decide_eq_true_eq] at begins
        exact begins.imp_right And.left
      have hblank : Text.isBlank c = false := by
        rcases hc with hdigit | rfl
        · exact isBlank_of_isWordPart (isWordPart_of_isDigit hdigit)
        · decide
      have hslash : c ≠ '/' := by
        rintro rfl
        exact absurd hc (by decide)
      simp [endsGap_cons, hblank, hslash]
  | string opens =>
    rw [List.cons_append, endsGap_cons]
    rcases opens with rfl | rfl <;> simp [Text.isBlank, Text.blankRanges]
  | @symbol c _ mark _ _ slash =>
    rw [List.singleton_append, endsGap_cons, isBlank_of_isPunctuation mark]
    have hopens : (decide (c = '/') && after.head?.any fun d => d = '/' || d = '*') = false := by
      rw [Bool.and_eq_false_imp]
      intro hc
      refine stops_iff.2 fun d hd => ?_
      simpa using slash (by simpa using hc) d hd
    rw [hopens]
    rfl

theorem isToken_of_head {cs text rest : List Char} {kind : TokenKind}
    (h : head cs = .token kind text rest) (ends : endsGap cs = true) : IsToken kind text rest := by
  cases cs with
  | nil => simp [head] at h
  | cons c cs =>
    by_cases hstart : isWordStart c = true
    · obtain ⟨rfl, -, -⟩ : TokenKind.identifier = kind ∧ _ ∧ _ := by
        simpa [head, hstart] using h
      obtain ⟨hword, hstops⟩ := stops_of_head_identifier h
      exact .identifier hword (stops_iff.1 hstops)
    rw [head, if_neg hstart] at h
    by_cases hnumber : beginsNumber (c :: cs) = true
    · rw [if_pos hnumber] at h
      rcases hcut : number (isHexadecimal (c :: cs)) c cs with ⟨taken, rest'⟩
      rw [hcut] at h
      obtain ⟨rfl, rfl, rfl⟩ := Head.token.inj h
      obtain ⟨happ, hparts, hstops⟩ := number_eq_iff.1 hcut
      obtain ⟨hbegins, hhex⟩ := number_append_after hstops
      rw [← happ] at hbegins hhex
      rw [hhex] at hparts hstops
      exact .number (hbegins ▸ hnumber) hparts hstops
    rw [if_neg hnumber] at h
    by_cases hquote : (c = '"' || c = '\'') = true
    · rw [if_pos hquote] at h
      have hopens : c = '"' ∨ c = '\'' := by simpa using hquote
      rcases hclose : closeString c cs with ⟨taken, rest', closed⟩
      rw [hclose] at h
      cases closed with
      | false => simp at h
      | true =>
        obtain ⟨rfl, rfl, rfl⟩ := Head.token.inj h
        exact .string hopens ((closeString_eq_iff hopens).1 hclose).2
    rw [if_neg hquote] at h
    split at h
    · rename_i hmark
      obtain ⟨rfl, rfl, rfl⟩ := Head.token.inj h
      refine .symbol hmark ⟨?_, by simpa using hquote⟩ ?_ ?_
      · rintro rfl
        exact hstart (by decide)
      · rintro rfl
        rw [beginsNumber_cons, Bool.not_eq_true] at hnumber
        exact stops_iff.1 (by simpa using hnumber)
      · rintro rfl
        rw [endsGap_cons] at ends
        simp only [Bool.and_eq_true, Bool.not_eq_true', decide_true, Bool.true_and] at ends
        intro d hd
        simpa using stops_iff.1 ends.2 d hd
    · cases h

theorem isFault_of_head {cs read rest : List Char} {fault : LexFault}
    (h : head cs = .faulty fault read rest) (ends : endsGap cs = true) : IsFault fault cs := by
  cases cs with
  | nil => simp [head] at h
  | cons c cs =>
    by_cases hstart : isWordStart c = true
    · simp [head, hstart] at h
    rw [head, if_neg hstart] at h
    by_cases hnumber : beginsNumber (c :: cs) = true
    · simp [hnumber] at h
    rw [if_neg hnumber] at h
    by_cases hquote : (c = '"' || c = '\'') = true
    · rw [if_pos hquote] at h
      have hopens : c = '"' ∨ c = '\'' := by simpa using hquote
      rcases hclose : closeString c cs with ⟨taken, rest', closed⟩
      rw [hclose] at h
      cases closed with
      | true => simp at h
      | false =>
        obtain ⟨rfl, -, -⟩ := Head.faulty.inj h
        exact .openString hopens ((closed_closeString_iff hopens).1 (by rw [hclose]))
    rw [if_neg hquote] at h
    split at h
    · cases h
    · rename_i hmark
      obtain ⟨rfl, -, -⟩ := Head.faulty.inj h
      rw [beginsNumber_cons] at hnumber
      rw [endsGap_cons] at ends
      refine .unexpected ?_ ?_ (by simpa using hmark)
      · simp only [Bool.and_eq_true, Bool.not_eq_true'] at ends
        exact ends.1
      · simp only [isWordStart, isWordPart, Char.isAlphanum] at hstart ⊢
        simp_all

theorem IsFault.exists_head {fault : LexFault} {cs : List Char} (h : IsFault fault cs)
    (other : fault ≠ .openComment) :
    endsGap cs = true ∧ ∃ read rest, head cs = .faulty fault read rest := by
  cases h with
  | openComment => exact absurd rfl other
  | @openString quote cs opens unclosed =>
    have hclosed := (closed_closeString_iff opens).2 unclosed
    have hstart : ¬isWordStart quote = true := by rcases opens with rfl | rfl <;> decide
    have hnone : ¬beginsNumber (quote :: cs) = true := by
      rw [beginsNumber_cons]
      rcases opens with rfl | rfl <;> simp
    constructor
    · rw [endsGap_cons]
      rcases opens with rfl | rfl <;> simp [Text.isBlank, Text.blankRanges]
    · rw [head, if_neg hstart, if_neg hnone, if_pos (by simpa using opens)]
      rcases hclose : closeString quote cs with ⟨taken, rest, closed⟩
      rw [hclose] at hclosed
      exact ⟨quote :: taken, rest, by simp [show closed = false from hclosed]⟩
  | @unexpected c cs blank part mark =>
    have hslash : c ≠ '/' := by
      rintro rfl
      exact absurd mark (by decide)
    have hpoint : c ≠ '.' := by
      rintro rfl
      exact absurd mark (by decide)
    have hquote : ¬(c = '"' ∨ c = '\'') := by
      rintro (rfl | rfl) <;> exact absurd mark (by decide)
    have hstart : ¬isWordStart c = true := fun h => by
      rw [isWordPart_of_isWordStart h] at part
      cases part
    have hdigit : ¬c.isDigit = true := fun h => by
      rw [isWordPart_of_isDigit h] at part
      cases part
    constructor
    · simp [endsGap_cons, blank, hslash]
    · refine ⟨[], c :: cs, ?_⟩
      rw [head, if_neg hstart, if_neg (by simp [beginsNumber_cons, hdigit, hpoint]),
        if_neg (by simpa using hquote), if_neg (by simp [mark])]

end SchemaLint.Scan
