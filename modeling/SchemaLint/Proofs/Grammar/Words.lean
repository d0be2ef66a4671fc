import SchemaLint.Proofs.Grammar.First
import SchemaLint.Proofs.Grammar.Recognize

/-!
# Names, constants, options and ranges are recognized

Each of these parsers is greedy, and nothing that may follow its phrase in a statement prolongs it.
-/

set_option autoImplicit false
set_option relaxedAutoImplicit false

namespace SchemaLint.Parser

open Grammar

variable {ls rest used : List Lexeme}

theorem recognizes_dottedName :
    Recognizes dottedName endsName fun ls s =>
      ∃ names, Dotted ls names ∧ s = ".".intercalate names where
  sound := by
    intro ls s rest he
    obtain ⟨run, names, rfl, hrun, rfl⟩ := dotted_of_dottedName he
    exact ⟨run, rfl, names, hrun, rfl⟩
  complete := by
    rintro used s rest ⟨names, hrun, rfl⟩ ahead
    exact dottedName_of_dotted hrun ahead

theorem recognizes_typeName : Recognizes typeName endsName TypeName where
  sound := by
    intro ls s rest he
    unfold typeName at he
    obtain ⟨b, mid, hb, hafter⟩ := bind_eq_ok_iff.1 he
    rcases accept_eq_ok_iff.1 hb with ⟨rfl, point, rfl, hpoint⟩ | ⟨rfl, rfl, -⟩
    · obtain ⟨bare, _, hbare, hdone⟩ := bind_eq_ok_iff.1 hafter
      obtain ⟨rfl, rfl⟩ := pure_eq_ok_iff.1 hdone
      obtain ⟨run, names, rfl, hrun, rfl⟩ := dotted_of_dottedName hbare
      exact ⟨point :: run, rfl, .absolute hpoint hrun⟩
    · obtain ⟨run, names, rfl, hrun, rfl⟩ := dotted_of_dottedName hafter
      exact ⟨run, rfl, .relative hrun⟩
  complete := by
    intro used s rest derived ahead
    unfold typeName
    cases derived with
    | @relative ls names spells =>
      have hnone : accept (·.isSymbol '.') (used ++ rest) = .ok (false, used ++ rest) := by
        obtain ⟨l, tail, rfl, hl⟩ := spells.begins
        refine accept_eq_ok_iff.2 (.inr ⟨rfl, rfl, ?_⟩)
        simp [Token.isSymbol, hl]
      rw [bind_of_eq_ok hnone]
      exact dottedName_of_dotted spells ahead
    | @absolute point ls names leads spells =>
      have hsome : accept (·.isSymbol '.') (point :: ls ++ rest) = .ok (true, ls ++ rest) :=
        accept_eq_ok_iff.2 (.inl ⟨rfl, point, rfl, leads⟩)
      rw [bind_of_eq_ok hsome, if_pos rfl, bind_of_eq_ok (dottedName_of_dotted spells ahead)]
      rfl

theorem recognizes_optionPart : Recognizes optionPart (fun _ => true) OptionPart where
  sound := by
    intro ls s rest he
    unfold optionPart at he
    obtain ⟨b, mid, hb, hafter⟩ := bind_eq_ok_iff.1 he
    rcases accept_eq_ok_iff.1 hb with ⟨rfl, opening, rfl, hopen⟩ | ⟨rfl, rfl, -⟩
    · obtain ⟨name, ls₁, hname, h₁⟩ := bind_eq_ok_iff.1 hafter
      obtain ⟨_, ls₂, hclose, hdone⟩ := bind_eq_ok_iff.1 h₁
      obtain ⟨rfl, rfl⟩ := pure_eq_ok_iff.1 hdone
      obtain ⟨run, rfl, hrun⟩ := recognizes_typeName.sound hname
      obtain ⟨closing, rfl, hclosing⟩ := discard_symbol_eq_ok_iff.1 hclose
      exact ⟨opening :: (run ++ [closing]), by simp, .extension hopen hrun hclosing⟩
    · obtain ⟨l, rfl, hl, rfl⟩ := identifier_eq_ok_iff.1 hafter
      exact ⟨[l], rfl, .word hl⟩
  complete := by
    intro used s rest derived _
    unfold optionPart
    cases derived with
    | @word l word =>
      have hnone : accept (·.isSymbol '(') ([l] ++ rest) = .ok (false, [l] ++ rest) :=
        accept_eq_ok_iff.2 (.inr ⟨rfl, rfl, by simp [Token.isSymbol, word]⟩)
      rw [bind_of_eq_ok hnone]
      exact identifier_eq_ok_iff.2 ⟨l, rfl, word, rfl⟩
    | @extension opening closing ls name opens named closes =>
      have hsome : accept (·.isSymbol '(') (opening :: (ls ++ [closing]) ++ rest) =
          .ok (true, ls ++ closing :: rest) :=
        accept_eq_ok_iff.2 (.inl ⟨rfl, opening, by simp, opens⟩)
      have hends := endsName_of_isSymbol closes (by decide)
      have hname := recognizes_typeName.before named hends rest
      rw [bind_of_eq_ok hsome, if_pos rfl, bind_of_eq_ok hname]
      exact bind_eq_ok_iff.2
        ⟨(), rest, discard_symbol_eq_ok_iff.2 ⟨closing, rfl, closes⟩, pure_eq_ok_iff.2 ⟨rfl, rfl⟩⟩

theorem recognizes_optionName : Recognizes optionName endsName OptionName := by
  have joined := (recognizes_optionPart.separated '.' fun _ _ => rfl).map
    (".".intercalate ·)
  refine (joined.congr fun ls s => ?_).weaken fun t ht => by simpa [endsName] using ht
  constructor
  · rintro ⟨parts, hparts, rfl⟩
    exact .parts hparts
  · rintro ⟨hparts⟩
    exact ⟨_, hparts, rfl⟩

/-! ### Constants -/

theorem closeBraces_balanced {inner : List Lexeme} (h : Balanced inner) (depth : Nat) :
    closeBraces depth (inner ++ rest) = closeBraces depth rest := by
  induction h generalizing depth rest with
  | nil => rfl
  | @other l ls not_opening not_closing others ih =>
    rw [List.cons_append, closeBraces_cons, if_neg (by simp [not_opening]),
      if_neg (by simp [not_closing])]
    exact ih depth
  | @nested opening closing ls ms opens inside closes others ih ih' =>
    have hclosing : closing.token.isSymbol '\x7b' = false := isSymbol_of_ne closes (by decide)
    rw [List.cons_append, List.append_assoc, List.cons_append, closeBraces_cons, if_pos opens,
      ih (depth + 1), closeBraces_cons, if_neg (by simp [hclosing]), if_pos closes]
    exact ih' depth

/-- Lexemes that close some braces more than they open. -/
inductive Closes : Nat → List Lexeme → Prop
  | last {ls : List Lexeme} {l : Lexeme} (inside : Balanced ls) (closes : l.token.isSymbol '\x7d') :
      Closes 0 (ls ++ [l])
  | more {depth : Nat} {ls ms : List Lexeme} {l : Lexeme} (inside : Balanced ls)
      (closes : l.token.isSymbol '\x7d') (others : Closes depth ms) :
      Closes (depth + 1) (ls ++ l :: ms)

theorem Closes.cons {depth : Nat} {ls : List Lexeme} (h : Closes depth ls) {front : List Lexeme}
    (fits : ∀ inner, Balanced inner → Balanced (front ++ inner)) : Closes depth (front ++ ls) := by
  cases h with
  | last inside closes =>
    rw [← List.append_assoc]
    exact .last (fits _ inside) closes
  | more inside closes others =>
    rw [← List.append_assoc]
    exact .more (fits _ inside) closes others

theorem closes_of_closeBraces {depth : Nat} {u : Unit} (he : closeBraces depth ls = .ok (u, rest)) :
    ∃ used, ls = used ++ rest ∧ Closes depth used := by
  induction ls generalizing depth with
  | nil => cases depth <;> simp [closeBraces] at he
  | cons l ls ih =>
    rw [closeBraces_cons] at he
    split at he
    · rename_i hopen
      obtain ⟨used, rfl, hused⟩ := ih he
      cases hused with
      | @more _ inner more closing inside closes others =>
        refine ⟨(l :: (inner ++ [closing])) ++ more, by simp, others.cons fun ms hms => ?_⟩
        have hnested := Balanced.nested hopen inside closes hms
        simpa using hnested
    · rename_i hopen
      split at he
      · rename_i hclose
        split at he
        · obtain ⟨rfl, rfl⟩ := Prod.mk.inj (Except.ok.inj he)
          exact ⟨[l], rfl, .last .nil hclose⟩
        · obtain ⟨used, rfl, hused⟩ := ih he
          exact ⟨l :: used, rfl, .more .nil hclose hused⟩
      · rename_i hclose
        obtain ⟨used, rfl, hused⟩ := ih he
        exact ⟨[l] ++ used, rfl, hused.cons fun ms hms =>
          .other (by simpa using hopen) (by simpa using hclose) hms⟩

theorem recognizes_closeBraces :
    Recognizes (closeBraces 0) (fun _ => true) fun ls _ => Closes 0 ls where
  sound := closes_of_closeBraces
  complete := by
    rintro _ ⟨⟩ rest ⟨inside, closes⟩ -
    rename_i inner l
    have hl : l.token.isSymbol '\x7b' = false := isSymbol_of_ne closes (by decide)
    rw [List.append_assoc, closeBraces_balanced inside, List.singleton_append, closeBraces_cons,
      if_neg (by simp [hl]), if_pos closes]

theorem recognizes_moreStrings :
    Recognizes moreStrings (fun t => t.kind ≠ .string) fun ls _ =>
      ∀ l ∈ ls, l.token.kind = .string where
  sound := by
    intro ls u rest he
    fun_induction moreStrings ls with
    | case1 =>
      obtain ⟨-, rfl⟩ := Prod.mk.inj (Except.ok.inj he)
      exact ⟨[], rfl, by simp⟩
    | case2 l ls hstring ih =>
      obtain ⟨used, rfl, hused⟩ := ih he
      exact ⟨l :: used, rfl, by simpa using ⟨hstring, hused⟩⟩
    | case3 l ls hstring =>
      obtain ⟨-, rfl⟩ := Prod.mk.inj (Except.ok.inj he)
      exact ⟨[], rfl, by simp⟩
  complete := by
    intro used u rest hused ahead
    induction used with
    | nil =>
      cases rest with
      | nil => rfl
      | cons l rest => exact if_neg (by simpa using ahead)
    | cons l used ih =>
      have hstep : moreStrings (l :: used ++ rest) = moreStrings (used ++ rest) :=
        if_pos (hused l (by simp))
      rw [hstep]
      exact ih fun m hm => hused m (by simp [hm])

theorem recognizes_moreParts {first : Lexeme} (word : first.token.kind = .identifier) :
    Recognizes moreParts endsName fun ls _ => ∃ names, Dotted (first :: ls) names where
  sound := by
    intro ls u rest he
    fun_induction moreParts ls generalizing first with
    | case1 point part ls hparts ih =>
      obtain ⟨hpoint, hpart⟩ := Bool.and_eq_true_iff.1 hparts
      have hpart : part.token.kind = .identifier := by simpa using hpart
      obtain ⟨used, rfl, names, hnames⟩ := ih hpart he
      exact ⟨point :: part :: used, rfl, _, .more word hpoint hnames⟩
    | case2 point part ls hparts =>
      obtain ⟨-, rfl⟩ := Prod.mk.inj (Except.ok.inj he)
      exact ⟨[], rfl, _, .last word⟩
    | case3 ls hshort =>
      obtain ⟨-, rfl⟩ := Prod.mk.inj (Except.ok.inj he)
      exact ⟨[], rfl, _, .last word⟩
  complete := by
    rintro used ⟨⟩ rest ⟨names, hnames⟩ ahead
    generalize hrun : first :: used = run at hnames
    induction hnames generalizing first used with
    | last _ =>
      obtain ⟨-, rfl⟩ := List.cons.inj hrun
      cases rest with
      | nil => rfl
      | cons point rest =>
        have hpoint : point.token.isSymbol '.' = false := by simpa [endsName] using ahead
        cases rest with
        | nil => rfl
        | cons part rest => simp [moreParts, hpoint]
    | @more l point ls names _ joins others ih =>
      obtain ⟨-, rfl⟩ := List.cons.inj hrun
      obtain ⟨part, tail, rfl, hpart⟩ := others.begins
      have hstep : moreParts (point :: part :: (tail ++ rest)) = moreParts (tail ++ rest) :=
        if_pos (by simp [joins, hpart])
      exact hstep.trans (ih hpart rfl)

theorem recognizes_plainValue :
    Recognizes plainValue endsConstant fun ls _ => Value ls where
  sound := by
    intro ls u rest he
    unfold plainValue at he
    obtain ⟨t, mid, ht, hafter⟩ := bind_eq_ok_iff.1 he
    obtain ⟨l, rfl, hl, rfl⟩ := satisfy_eq_ok_iff.1 ht
    cases hkind : l.token.kind with
    | string =>
      rw [hkind] at hafter
      obtain ⟨used, rfl, hused⟩ := recognizes_moreStrings.sound hafter
      exact ⟨l :: used, rfl, .strings hkind hused⟩
    | identifier =>
      rw [hkind] at hafter
      obtain ⟨used, rfl, names, hnames⟩ := (recognizes_moreParts hkind).sound hafter
      exact ⟨l :: used, rfl, .words hnames⟩
    | number =>
      rw [hkind] at hafter
      obtain ⟨-, rfl⟩ := pure_eq_ok_iff.1 hafter
      exact ⟨[l], rfl, .number hkind⟩
    | symbol => simp [hkind] at hl
  complete := by
    rintro used ⟨⟩ rest derived ahead
    unfold plainValue
    cases derived with
    | @number l number =>
      refine bind_eq_ok_iff.2 ⟨_, rest, satisfy_eq_ok_iff.2 ⟨l, rfl, by simp [number], rfl⟩, ?_⟩
      rw [number]
      rfl
    | @strings l ls first others =>
      refine bind_eq_ok_iff.2 ⟨_, ls ++ rest, satisfy_eq_ok_iff.2 ⟨l, rfl, by simp [first], rfl⟩, ?_⟩
      rw [first]
      exact recognizes_moreStrings.complete others
        (ahead.weaken fun t ht => (Bool.and_eq_true_iff.1 ht).1)
    | @words ls names spells =>
      obtain ⟨l, tail, rfl, hl⟩ := spells.begins
      refine bind_eq_ok_iff.2 ⟨_, tail ++ rest, satisfy_eq_ok_iff.2 ⟨l, rfl, by simp [hl], rfl⟩, ?_⟩
      rw [hl]
      exact (recognizes_moreParts hl).complete ⟨names, spells⟩
        (ahead.weaken fun t ht => (Bool.and_eq_true_iff.1 ht).2)

private theorem accept_opening_value (h : Value ls) :
    accept (·.isSymbol '\x7b') (ls ++ rest) = .ok (false, ls ++ rest) := by
  obtain ⟨l, tail, rfl, hl⟩ := h.begins
  exact accept_eq_ok_iff.2 (.inr ⟨rfl, rfl, by simp [Token.isSymbol, hl]⟩)

theorem recognizes_constant :
    Recognizes constant endsConstant fun ls s => Constant ls ∧ s = spell ls := by
  have unbraced := recognizes_plainValue.afterOptional
    (fun t => t.isSymbol '-' || t.isSymbol '+') fun ls _ h => by
      obtain ⟨l, tail, rfl, hl⟩ := h.begins
      exact ⟨l, tail, rfl, by simp [Token.isSymbol, hl]⟩
  refine Recognizes.written ⟨?_, ?_⟩
  · intro ls u rest he
    obtain ⟨b, mid, hb, hafter⟩ := bind_eq_ok_iff.1 he
    rcases accept_eq_ok_iff.1 hb with ⟨rfl, opening, rfl, hopen⟩ | ⟨rfl, rfl, -⟩
    · obtain ⟨used, rfl, hused⟩ := recognizes_closeBraces.sound hafter
      cases hused with
      | last inside closes => exact ⟨_, List.cons_append.symm, .block hopen inside closes⟩
    · obtain ⟨used, rfl, hvalue | ⟨sign, tail, rfl, hsign, hvalue⟩⟩ := unbraced.sound hafter
      · exact ⟨used, rfl, .plain hvalue⟩
      · exact ⟨sign :: tail, rfl, .signed (by simpa using hsign) hvalue⟩
  · rintro used ⟨⟩ rest derived ahead
    cases derived with
    | @block opening closing ls opens inside closes =>
      have hsome : accept (·.isSymbol '\x7b') (opening :: (ls ++ [closing]) ++ rest) =
          .ok (true, ls ++ [closing] ++ rest) :=
        accept_eq_ok_iff.2 (.inl ⟨rfl, opening, rfl, opens⟩)
      exact bind_eq_ok_iff.2
        ⟨true, _, hsome, recognizes_closeBraces.complete (.last inside closes) (ahead_true rest)⟩
    | plain value =>
      exact bind_eq_ok_iff.2
        ⟨false, _, accept_opening_value value, unbraced.complete (.inl value) ahead⟩
    | @signed sign ls signs value =>
      have hsign : (sign.token.isSymbol '-' || sign.token.isSymbol '+') = true := by simpa using signs
      have hnone : accept (·.isSymbol '\x7b') (sign :: ls ++ rest) = .ok (false, sign :: ls ++ rest) := by
        refine accept_eq_ok_iff.2 (.inr ⟨rfl, rfl, ?_⟩)
        rcases signs with h | h <;> simp [isSymbol_of_ne h]
      exact bind_eq_ok_iff.2
        ⟨false, _, hnone, unbraced.complete (.inr ⟨sign, ls, rfl, hsign, value⟩) ahead⟩

theorem recognizes_fieldOption : Recognizes fieldOption endsConstant BracketOption where
  sound := by
    intro ls o rest he
    unfold fieldOption at he
    obtain ⟨name, ls₁, hname, h₁⟩ := bind_eq_ok_iff.1 he
    obtain ⟨_, ls₂, hequals, h₂⟩ := bind_eq_ok_iff.1 h₁
    obtain ⟨value, ls₃, hvalue, hdone⟩ := bind_eq_ok_iff.1 h₂
    obtain ⟨rfl, rfl⟩ := pure_eq_ok_iff.1 hdone
    obtain ⟨names, rfl, hnames⟩ := recognizes_optionName.sound hname
    obtain ⟨equals, rfl, hassign⟩ := discard_symbol_eq_ok_iff.1 hequals
    obtain ⟨values, rfl, hvalues, rfl⟩ := recognizes_constant.sound hvalue
    exact ⟨names ++ equals :: values, by simp, .assignment hnames hassign hvalues⟩
  complete := by
    intro used o rest derived ahead
    cases derived with
    | @assignment equals ls ms name named assigns constant =>
      have hname := recognizes_optionName.before named (endsName_of_isSymbol assigns (by decide))
        (ms ++ rest)
      rw [List.append_assoc, List.cons_append]
      unfold fieldOption
      refine bind_eq_ok_iff.2 ⟨_, _, hname, ?_⟩
      refine bind_eq_ok_iff.2 ⟨(), _, discard_symbol_eq_ok_iff.2 ⟨_, rfl, assigns⟩, ?_⟩
      refine bind_eq_ok_iff.2 ⟨_, _, recognizes_constant.complete ⟨constant, rfl⟩ ahead, ?_⟩
      exact pure_eq_ok_iff.2 ⟨rfl, rfl⟩

theorem recognizes_fieldOptions :
    Recognizes fieldOptions (fun t => !t.isSymbol '[') BracketOptions where
  sound := by
    intro ls options rest he
    unfold fieldOptions at he
    obtain ⟨b, mid, hb, hafter⟩ := bind_eq_ok_iff.1 he
    rcases accept_eq_ok_iff.1 hb with ⟨rfl, opening, rfl, hopen⟩ | ⟨rfl, rfl, -⟩
    · obtain ⟨listed, ls₁, hlisted, h₁⟩ := bind_eq_ok_iff.1 hafter
      obtain ⟨_, ls₂, hclose, hdone⟩ := bind_eq_ok_iff.1 h₁
      obtain ⟨rfl, rfl⟩ := pure_eq_ok_iff.1 hdone
      obtain ⟨used, rfl, hused⟩ :=
        (recognizes_fieldOption.separated ',' fun t ht => endsConstant_of_isSymbol ht (by decide)).sound
          hlisted
      obtain ⟨t, ht⟩ := discard_eq_ok_iff.1 hclose
      obtain ⟨closing, rfl, hclosing, -⟩ := satisfy_eq_ok_iff.1 ht
      exact ⟨opening :: (used ++ [closing]), by simp, .brackets hopen hused hclosing⟩
    · obtain ⟨rfl, rfl⟩ := pure_eq_ok_iff.1 hafter
      exact ⟨[], rfl, .absent⟩
  complete := by
    intro used options rest derived ahead
    unfold fieldOptions
    cases derived with
    | absent =>
      exact bind_eq_ok_iff.2
        ⟨false, rest, accept_eq_ok_iff.2 (.inr ⟨rfl, rfl, ahead⟩), pure_eq_ok_iff.2 ⟨rfl, rfl⟩⟩
    | @brackets opening closing ls _ opens listed closes =>
      have hends : Ahead (fun t => endsConstant t && !t.isSymbol ',') (closing :: rest) := by
        simp [endsConstant_of_isSymbol closes, isSymbol_of_ne closes]
      have hlisted := (recognizes_fieldOption.separated ',' fun t ht =>
        endsConstant_of_isSymbol ht (by decide)).complete listed hends
      refine bind_eq_ok_iff.2
        ⟨true, ls ++ closing :: rest, accept_eq_ok_iff.2 (.inl ⟨rfl, opening, by simp, opens⟩), ?_⟩
      refine bind_eq_ok_iff.2 ⟨_, _, hlisted, ?_⟩
      refine bind_eq_ok_iff.2 ⟨(), rest, ?_, pure_eq_ok_iff.2 ⟨rfl, rfl⟩⟩
      exact discard_eq_ok_iff.2 ⟨_, satisfy_eq_ok_iff.2 ⟨closing, rfl, closes, rfl⟩⟩

/-! ### Ranges -/

theorem recognizes_signedNumber :
    Recognizes signedNumber (fun _ => true) fun ls s => SignedNumber ls ∧ s = spell ls := by
  have number : Recognizes (discard (satisfy "number" (·.kind = .number)) : Parser Unit)
      (fun _ => true) fun ls _ => ∃ l : Lexeme, ls = [l] ∧ l.token.kind = .number := by
    refine ⟨?_, ?_⟩
    · intro ls u rest he
      obtain ⟨t, ht⟩ := discard_eq_ok_iff.1 he
      obtain ⟨l, rfl, hl, -⟩ := satisfy_eq_ok_iff.1 ht
      exact ⟨[l], rfl, l, rfl, by simpa using hl⟩
    · rintro used ⟨⟩ rest ⟨l, rfl, hl⟩ -
      exact discard_eq_ok_iff.2 ⟨_, satisfy_eq_ok_iff.2 ⟨l, rfl, by simpa using hl, rfl⟩⟩
  have signed := number.afterOptional (·.isSymbol '-') fun ls _ h => by
    obtain ⟨l, rfl, hl⟩ := h
    exact ⟨l, [], rfl, by simp [Token.isSymbol, hl]⟩
  refine (signed.congr fun ls _ => ?_).written
  constructor
  · rintro (⟨l, rfl, hl⟩ | ⟨sign, _, rfl, hsign, l, rfl, hl⟩)
    · exact .plain hl
    · exact .negative hsign hl
  · rintro (hl | ⟨hsign, hl⟩)
    · exact .inl ⟨_, rfl, hl⟩
    · exact .inr ⟨_, _, rfl, hsign, _, rfl, hl⟩

theorem recognizes_range : Recognizes range (fun t => !t.isWord "to") Range where
  sound := by
    intro ls s rest he
    unfold range at he
    obtain ⟨low, ls₁, hlow, h₁⟩ := bind_eq_ok_iff.1 he
    obtain ⟨b, ls₂, hb, h₂⟩ := bind_eq_ok_iff.1 h₁
    obtain ⟨lows, rfl, hlows, rfl⟩ := recognizes_signedNumber.sound hlow
    rcases accept_eq_ok_iff.1 hb with ⟨rfl, middle, rfl, hmiddle⟩ | ⟨rfl, rfl, -⟩
    · obtain ⟨b', ls₃, hb', h₃⟩ := bind_eq_ok_iff.1 h₂
      rcases accept_eq_ok_iff.1 hb' with ⟨rfl, highest, rfl, hhighest⟩ | ⟨rfl, rfl, -⟩
      · obtain ⟨rfl, rfl⟩ := pure_eq_ok_iff.1 h₃
        exact ⟨lows ++ [middle, highest], by simp, .unbounded hlows hmiddle hhighest⟩
      · obtain ⟨high, ls₄, hhigh, hdone⟩ := bind_eq_ok_iff.1 h₃
        obtain ⟨rfl, rfl⟩ := pure_eq_ok_iff.1 hdone
        obtain ⟨highs, rfl, hhighs, rfl⟩ := recognizes_signedNumber.sound hhigh
        exact ⟨lows ++ middle :: highs, by simp, .bounded hlows hmiddle hhighs⟩
    · obtain ⟨rfl, rfl⟩ := pure_eq_ok_iff.1 h₂
      exact ⟨lows, rfl, .single hlows⟩
  complete := by
    intro used s rest derived ahead
    have low : ∀ {ls}, SignedNumber ls → ∀ tail, signedNumber (ls ++ tail) = .ok (spell ls, tail) :=
      fun h tail => recognizes_signedNumber.complete ⟨h, rfl⟩ (ahead_true tail)
    unfold range
    cases derived with
    | single h =>
      refine bind_eq_ok_iff.2 ⟨_, _, low h rest, ?_⟩
      exact bind_eq_ok_iff.2
        ⟨false, rest, accept_eq_ok_iff.2 (.inr ⟨rfl, rfl, ahead⟩), pure_eq_ok_iff.2 ⟨rfl, rfl⟩⟩
    | @bounded middle ls ms h word high =>
      have hnone : accept (·.isWord "max") (ms ++ rest) = .ok (false, ms ++ rest) := by
        obtain ⟨l, tail, rfl, hl⟩ := high.begins
        refine accept_eq_ok_iff.2 (.inr ⟨rfl, rfl, ?_⟩)
        rcases hl with hl | hl
        · simp [Token.isWord, hl]
        · simp [isWord_of_isSymbol hl]
      rw [List.append_assoc, List.cons_append]
      refine bind_eq_ok_iff.2 ⟨_, _, low h _, ?_⟩
      refine bind_eq_ok_iff.2 ⟨true, _, accept_eq_ok_iff.2 (.inl ⟨rfl, middle, rfl, word⟩), ?_⟩
      refine bind_eq_ok_iff.2 ⟨false, _, hnone, ?_⟩
      exact bind_eq_ok_iff.2 ⟨_, _, low high rest, pure_eq_ok_iff.2 ⟨rfl, rfl⟩⟩
    | @unbounded middle highest ls h word last =>
      rw [List.append_assoc]
      refine bind_eq_ok_iff.2 ⟨_, _, low h _, ?_⟩
      refine bind_eq_ok_iff.2 ⟨true, _, accept_eq_ok_iff.2 (.inl ⟨rfl, middle, rfl, word⟩), ?_⟩
      refine bind_eq_ok_iff.2 ⟨true, _, accept_eq_ok_iff.2 (.inl ⟨rfl, highest, rfl, last⟩), ?_⟩
      exact pure_eq_ok_iff.2 ⟨rfl, rfl⟩

theorem recognizes_ranges : Recognizes ranges endsRange (Separated ',' Range) :=
  recognizes_range.separated ',' fun t ht => by simp [isWord_of_isSymbol ht]

end SchemaLint.Parser
