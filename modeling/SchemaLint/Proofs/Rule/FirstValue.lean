import SchemaLint.Proofs.Span.Nested
import SchemaLint.Rule.FirstValueZero

/-!
# Which first values are zero

The rule on first values looks at the number of a value as it is written, from its sign to the last of
its digits.  It knows a zero by its digits in whatever way these are spelled, with a sign right before
them or without one.  Where there is room between the two, it takes a zero for another number.
-/

set_option autoImplicit false
set_option relaxedAutoImplicit false

namespace SchemaLint

open SchemaLint.Parser (spell)

/-- Spellings of zero: zeros alone, or behind the mark of the base sixteen. -/
inductive SpellsZero : List Char → Prop
  | plain {zeros : List Char} (some : zeros ≠ []) (all : ∀ c ∈ zeros, c = '0') : SpellsZero zeros
  | hexadecimal {mark : Char} {zeros : List Char} (marks : mark = 'x' ∨ mark = 'X')
      (some : zeros ≠ []) (all : ∀ c ∈ zeros, c = '0') : SpellsZero ('0' :: mark :: zeros)

/-- The lexemes of an enum value's number: behind its name and an equals sign come a minus sign or
nothing, and then the digits. -/
structure EnumValue.Numbered (ls : List Lexeme) (v : EnumValue) (sign : Option Lexeme)
    (digits : Lexeme) : Prop where
  row : ∃ before name equals after,
    ls = before ++ name :: equals :: (sign.toList ++ digits :: after) ∧
      name.token.position = v.span.first ∧ name.token.text = v.name ∧
      equals.token.isSymbol '=' = true
  minus : ∀ l ∈ sign, l.token.isSymbol '-' = true
  number : digits.token.kind = .number

/-- Whether a value is the first one in the body of an enum. -/
def EnumValue.IsFirst (v : EnumValue) (body : List Declaration) : Prop :=
  ∃ before after, body = before ++ .enumValue v :: after ∧ ∀ w, .enumValue w ∉ before

/-- What is said of an enum by its first value: nothing where there is none or where it is a zero with
no room behind its sign, and otherwise one failure, at the value. -/
structure FirstValueZero.Judged (ls : List Lexeme) (body : List Declaration) (fs : List Failure) :
    Prop where
  empty : (∀ v, .enumValue v ∉ body) → fs = []
  numbered : ∀ v : EnumValue, v.IsFirst body → ∃ sign digits, v.Numbered ls sign digits
  zero : ∀ (v : EnumValue) (sign : Option Lexeme) (digits : Lexeme), v.IsFirst body →
    v.Numbered ls sign digits → SpellsZero digits.token.text.toList →
      sign = none ∨ digits.gap = [] → fs = []
  other : ∀ (v : EnumValue) (sign : Option Lexeme) (digits : Lexeme), v.IsFirst body →
    v.Numbered ls sign digits →
      ¬(SpellsZero digits.token.text.toList ∧ (sign = none ∨ digits.gap = [])) →
        ∃ f, fs = [f] ∧ f.position = v.span.first

/-! ### The number of a value -/

theorem EnumValue.Numbered.unique {ls : List Lexeme} {v : EnumValue} {sign sign' : Option Lexeme}
    {digits digits' : Lexeme} (h : v.Numbered ls sign digits) (h' : v.Numbered ls sign' digits')
    (rising : ls.Pairwise Lexeme.Precedes) : sign = sign' ∧ digits = digits' := by
  obtain ⟨before, name, equals, after, rfl, hplace, -, -⟩ := h.row
  obtain ⟨before', name', equals', after', hrow, hplace', -, -⟩ := h'.row
  have hsame : name.token.position.offset = name'.token.position.offset := by
    rw [hplace, hplace']
  obtain ⟨-, hbehind, hbefore⟩ := List.pairwise_append.1 rising
  have hearly : name' ∉ before := fun hmem =>
    Nat.lt_irrefl _ (hsame.trans_lt (hbefore name' hmem name (by simp)))
  have hlate : name' ∉ equals :: (sign.toList ++ digits :: after) := fun hmem =>
    Nat.lt_irrefl _ (((List.pairwise_cons.1 hbehind).1 name' hmem).trans_eq hsame.symm)
  obtain ⟨-, -, hrest⟩ := (List.append_cons_inj_of_notMem hearly hlate).1 hrow
  have hnumber := (List.cons.inj hrest).2
  have hkind : ∀ l : Lexeme, l.token.isSymbol '-' = true → l.token.kind ≠ .number := by
    intro l hl hk
    simp [Token.isSymbol, hk] at hl
  cases sign with
  | none =>
    cases sign' with
    | none => exact ⟨rfl, (List.cons.inj hnumber).1⟩
    | some l => exact absurd ((List.cons.inj hnumber).1 ▸ h.number) (hkind l (h'.minus l rfl))
  | some l =>
    cases sign' with
    | none => exact absurd ((List.cons.inj hnumber).1 ▸ h'.number) (hkind l (h.minus l rfl))
    | some l' =>
      obtain ⟨rfl, hdigits⟩ := List.cons.inj hnumber
      exact ⟨rfl, (List.cons.inj hdigits).1⟩

theorem Grammar.Stands.exists_numbered {ls : List Lexeme} {ds : List Declaration} {v : EnumValue}
    (h : Stands ls ds) (mem : .enumValue v ∈ Declaration.preorderAll ds) :
    ∃ sign digits, v.Numbered ls sign digits ∧ v.number = spell (sign.toList ++ [digits]) := by
  obtain ⟨before, first, inner, last, after, rfl, hrun, -⟩ := h.exists_run _ mem
  obtain ⟨scope, hderived⟩ := hrun.derived
  have hrow : before ++ first :: (inner ++ last :: after) =
      before ++ (first :: (inner ++ [last]) ++ after) := by simp
  rw [hrow]
  generalize first :: (inner ++ [last]) = row at hderived
  cases hderived with
  | statement statement =>
    cases statement with
    | enumValue _ _ clause =>
      cases clause with
      | @mk name equals last _ options _ word assigns number listed ends =>
        cases number with
        | @plain digits number =>
          refine ⟨none, digits, ⟨⟨before, name, equals, options ++ last :: after, ?_, rfl, rfl,
            assigns⟩, by simp, number⟩, rfl⟩
          simp
        | @negative sign digits signs number =>
          refine ⟨some sign, digits, ⟨⟨before, name, equals, options ++ last :: after, ?_, rfl, rfl,
            assigns⟩, by simpa using signs, number⟩, rfl⟩
          simp

theorem EnumValue.IsFirst.exists_numbered {ls : List Lexeme} {file : SchemaFile} {v : EnumValue}
    {name : String} {body : List Declaration} {span : Span} (first : v.IsFirst body)
    (stands : Grammar.Stands ls file.body)
    (has : file.Has (.declaration (.block .enumeration name body span))) :
    ∃ sign digits, v.Numbered ls sign digits ∧ v.number = spell (sign.toList ++ [digits]) := by
  obtain ⟨before, after, rfl, -⟩ := first
  have hpart : file.Has (.declaration (.enumValue v)) :=
    .part has (by simp [Node.parts, Declaration.parts])
  have hmem : .enumValue v ∈ Declaration.preorderAll file.body := by
    simpa [SchemaFile.nodes] using SchemaFile.mem_nodes_iff.2 hpart
  exact stands.exists_numbered hmem

/-! ### Which numbers are taken for zero -/

theorem Scan.ne_sign_of_beginsNumber {text : List Char} (h : beginsNumber text = true) :
    ∀ c ∈ text.head?, c ≠ '-' ∧ c ≠ '+' := by
  cases text with
  | nil => simp
  | cons c cs =>
    intro d hd
    obtain rfl : c = d := by simpa using hd
    rw [beginsNumber_cons, Bool.or_eq_true, Bool.and_eq_true, decide_eq_true_eq] at h
    constructor <;> rintro rfl <;> simp at h

namespace FirstValueZero

theorem isZero_iff {number : String} (unsigned : ∀ c ∈ number.toList.head?, c ≠ '-' ∧ c ≠ '+') :
    isZero number = true ↔ SpellsZero number.toList := by
  have hdrop : number.toList.dropWhile (fun c => c = '-' || c = '+') = number.toList := by
    cases hnumber : number.toList with
    | nil => rfl
    | cons c cs =>
      rw [List.dropWhile_cons_of_neg]
      simpa using unsigned c (by simp [hnumber])
  unfold isZero digits
  rw [hdrop]
  generalize number.toList = cs
  simp only [Bool.and_eq_true, Bool.not_eq_true', List.isEmpty_eq_false_iff, List.all_eq_true,
    decide_eq_true_eq]
  constructor
  · intro h
    split at h
    · obtain ⟨hsome, hall⟩ := h
      exact .hexadecimal (.inl rfl) hsome hall
    · obtain ⟨hsome, hall⟩ := h
      exact .hexadecimal (.inr rfl) hsome hall
    · exact .plain h.1 h.2
  · intro h
    cases h with
    | plain hsome hall =>
      split
      · exact absurd (hall 'x' (by simp)) (by decide)
      · exact absurd (hall 'X' (by simp)) (by decide)
      · exact ⟨hsome, hall⟩
    | hexadecimal marks hsome hall =>
      rcases marks with rfl | rfl <;> exact ⟨hsome, hall⟩

theorem isZero_minus (number : String) : isZero ("-" ++ number) = isZero number := by
  simp [isZero, digits]

theorem isZero_cons_of_ne {c : Char} {cs : List Char} (h : c ≠ '0' ∧ c ≠ '-' ∧ c ≠ '+') :
    isZero (String.ofList (c :: cs)) = false := by
  have hdigits : digits (c :: cs) = c :: cs := by
    unfold digits
    rw [List.dropWhile_cons_of_neg (by simp [h])]
    split
    · simp_all
    · simp_all
    · rfl
  simp [isZero, hdigits, h.1]

theorem isZero_spell_iff {sign : Option Lexeme} {digits : Lexeme} {after : List Char}
    (minus : ∀ l ∈ sign, l.token.isSymbol '-' = true)
    (gap : Scan.Spacing digits.gap (digits.token.text.toList ++ after))
    (begins : Scan.beginsNumber digits.token.text.toList = true) :
    isZero (spell (sign.toList ++ [digits])) = true ↔
      SpellsZero digits.token.text.toList ∧ (sign = none ∨ digits.gap = []) := by
  have halone := isZero_iff (Scan.ne_sign_of_beginsNumber begins)
  cases sign with
  | none => simpa [spell] using halone
  | some l =>
    have hminus : l.token.text = "-" := by
      have htext := minus l rfl
      apply String.toList_injective
      simpa [Token.isSymbol] using (Bool.and_eq_true_iff.1 htext).2
    have hspell : spell ((some l).toList ++ [digits]) =
        "-" ++ (String.ofList digits.gap ++ digits.token.text) := by
      simp [spell, hminus, String.join]
    rw [hspell, isZero_minus]
    cases hgap : digits.gap with
    | nil => simpa using halone
    | cons c cs =>
      rw [hgap] at gap
      have hwritten : String.ofList (c :: cs) ++ digits.token.text =
          String.ofList (c :: (cs ++ digits.token.text.toList)) := by
        apply String.toList_injective
        simp
      have hgap : c ≠ '0' ∧ c ≠ '-' ∧ c ≠ '+' := by
        rcases gap.head with hblank | rfl
        · refine ⟨?_, ?_, ?_⟩ <;> rintro rfl <;> exact absurd hblank (by decide)
        · decide
      rw [hwritten, isZero_cons_of_ne hgap]
      simp

/-! ### The first value of an enum -/

theorem firstValue?_eq_none_iff {ds : List Declaration} :
    firstValue? ds = none ↔ ∀ v, .enumValue v ∉ ds := by
  fun_induction firstValue? ds with
  | case1 => simp
  | case2 v ds => simpa using ⟨v, fun h => absurd rfl h⟩
  | case3 d ds hother ih =>
    have hd : ∀ v, .enumValue v ≠ d := fun v he => hother v he.symm
    simp [ih, hd]

theorem firstValue?_eq_some_iff {ds : List Declaration} {v : EnumValue} :
    firstValue? ds = some v ↔ v.IsFirst ds := by
  constructor
  · intro h
    fun_induction firstValue? ds with
    | case1 => cases h
    | case2 w ds =>
      obtain rfl := Option.some.inj h
      exact ⟨[], ds, rfl, by simp⟩
    | case3 d ds hother ih =>
      obtain ⟨before, after, rfl, hbefore⟩ := ih h
      refine ⟨d :: before, after, rfl, fun w hw => ?_⟩
      rcases List.mem_cons.1 hw with he | hw
      · exact hother w he.symm
      · exact hbefore w hw
  · rintro ⟨before, after, rfl, hbefore⟩
    induction before with
    | nil => rfl
    | cons d before ih =>
      have hothers := ih fun w hw => hbefore w (List.mem_cons_of_mem _ hw)
      cases d with
      | enumValue w => exact absurd List.mem_cons_self (hbefore w)
      | _ => exact hothers

theorem check_eq_nil {body : List Declaration} {span : Span} {name : String}
    (no_value : ∀ v, .enumValue v ∉ body) :
    check (.declaration (.block .enumeration name body span)) = [] := by
  simp only [check, firstValue?_eq_none_iff.2 no_value]

theorem check_of_isFirst {body : List Declaration} {span : Span} {name : String} {v : EnumValue}
    (first : v.IsFirst body) : check (.declaration (.block .enumeration name body span)) =
      if isZero v.number then [] else [failure v] := by
  simp only [check, firstValue?_eq_some_iff.2 first]

theorem exists_of_mem_check {node : Node} {f : Failure} (h : f ∈ check node) :
    ∃ name body span v, node = .declaration (.block .enumeration name body span) ∧
      EnumValue.IsFirst v body ∧ check node = [failure v] := by
  unfold check at h ⊢
  split at h
  · rename_i name body span
    split at h
    · rename_i v hv
      split at h
      · cases h
      · rename_i hzero
        exact ⟨name, body, span, v, rfl, firstValue?_eq_some_iff.1 hv, if_neg hzero⟩
    · cases h
  · cases h

/-- Whatever enum a file has, at whatever depth, the rule judges it by the lexemes of its first
value. -/
theorem judged_of_parse (filename source : String) (file : SchemaFile)
    (read : SchemaFile.parse filename source = .ok file) (fix : Bool) :
    ∃ ls, (Lexer.start filename source.toList).read = ⟨ls, none⟩ ∧
      ∀ name body span, file.Has (.declaration (.block .enumeration name body span)) →
        ∃ fs, (rule fix).evaluate (.declaration (.block .enumeration name body span)) = .ok fs ∧
          Judged ls body fs := by
  obtain ⟨ls, hread, hstands, -⟩ := SchemaFile.exists_stands read
  obtain ⟨after, tiling⟩ := Lexer.exists_tiling hread
  refine ⟨ls, hread, fun name body span has => ⟨_, rfl, ?_⟩⟩
  have hzero : ∀ (v : EnumValue) (sign : Option Lexeme) (digits : Lexeme), v.IsFirst body →
      v.Numbered ls sign digits → (isZero v.number = true ↔
        SpellsZero digits.token.text.toList ∧ (sign = none ∨ digits.gap = [])) := by
    intro v sign digits hfirst hnumber
    obtain ⟨sign', digits', hnumber', hspell⟩ := hfirst.exists_numbered hstands has
    obtain ⟨rfl, rfl⟩ := hnumber.unique hnumber' tiling.precedes
    obtain ⟨before, name, equals, behind, hrow, -⟩ := hnumber.row
    have hsplit : ls = (before ++ name :: equals :: sign.toList) ++ digits :: behind := by
      simpa using hrow
    have htoken := tiling.token _ _ _ hsplit
    rw [hnumber.number] at htoken
    cases htoken with
    | number begins parts stops =>
      rw [hspell]
      exact isZero_spell_iff hnumber.minus (tiling.gap _ _ _ hsplit) begins
  constructor
  · exact check_eq_nil
  · intro v hfirst
    obtain ⟨sign, digits, hnumber, -⟩ := hfirst.exists_numbered hstands has
    exact ⟨sign, digits, hnumber⟩
  · intro v sign digits hfirst hnumber hspells hclose
    rw [check_of_isFirst hfirst, if_pos ((hzero v sign digits hfirst hnumber).2 ⟨hspells, hclose⟩)]
  · intro v sign digits hfirst hnumber hnot
    rw [check_of_isFirst hfirst, if_neg fun h => hnot ((hzero v sign digits hfirst hnumber).1 h)]
    exact ⟨failure v, rfl, rfl⟩

/-- An enum in a message, whose first value stands behind an option and a reserved number. -/
theorem judged_of_parse_nested :
    let source := "message M \x7b enum E \x7b option o = 1; reserved 2; A = -0x00; \x7d \x7d"
    ∃ file, SchemaFile.parse "a.proto" source = .ok file ∧
      file.nodes.map Node.kind = [.file, .message, .enumeration, .option, .reserved, .enumValue] ∧
      file.nodes.flatMap check = [] ∧
      ∃ ls, (Lexer.start "a.proto" source.toList).read = ⟨ls, none⟩ ∧
        ∀ name body span, file.Has (.declaration (.block .enumeration name body span)) →
          ∃ fs, (rule false).evaluate (.declaration (.block .enumeration name body span)) = .ok fs ∧
            Judged ls body fs := by
  intro source
  have hnodes : (SchemaFile.parse "a.proto" source).toOption.map
      (fun file => (file.nodes.map Node.kind, file.nodes.flatMap check)) =
        some ([.file, .message, .enumeration, .option, .reserved, .enumValue], []) := by
    decide +kernel
  obtain ⟨file, hfile, hboth⟩ := Option.map_eq_some_iff.1 hnodes
  obtain ⟨hkinds, hnone⟩ := Prod.mk.inj hboth
  have read := eq_ok_of_toOption hfile
  exact ⟨file, read, hkinds, hnone, judged_of_parse "a.proto" source file read false⟩

/-- A zero with room behind its sign is reported. -/
theorem evaluate_of_blank_behind_sign :
    let source := "enum E \x7b A = - 0; \x7d"
    ∃ file ls, SchemaFile.parse "a.proto" source = .ok file ∧
      (Lexer.start "a.proto" source.toList).read = ⟨ls, none⟩ ∧
      ∃ name body span, file.Has (.declaration (.block .enumeration name body span)) ∧
        ∃ (v : EnumValue) (sign : Option Lexeme) (digits : Lexeme), v.IsFirst body ∧
          v.Numbered ls sign digits ∧ SpellsZero digits.token.text.toList ∧
          ∃ f, (rule false).evaluate (.declaration (.block .enumeration name body span)) = .ok [f] ∧
            f.position = v.span.first := by
  intro source
  have hsome : (SchemaFile.parse "a.proto" source).toOption.map
      (fun file => (file.nodes.flatMap check).length) = some 1 := by
    decide +kernel
  have hzeros : ((Lexer.start "a.proto" source.toList).read.lexemes.all fun l =>
      l.token.kind ≠ .number || l.token.text = "0") = true := by
    decide +kernel
  obtain ⟨file, hfile, hlength⟩ := Option.map_eq_some_iff.1 hsome
  have read := eq_ok_of_toOption hfile
  obtain ⟨f, hf⟩ := List.exists_mem_of_length_pos (hlength.symm ▸ Nat.one_pos)
  obtain ⟨node, hnode, hmem⟩ := List.mem_flatMap.1 hf
  obtain ⟨name, body, span, v, rfl, hfirst, hcheck⟩ := exists_of_mem_check hmem
  obtain ⟨ls, hread, hstands, -⟩ := SchemaFile.exists_stands read
  have has := SchemaFile.mem_nodes_iff.1 hnode
  obtain ⟨sign, digits, hnumber, -⟩ := hfirst.exists_numbered hstands has
  have hmem : digits ∈ ls := by
    obtain ⟨before, name, equals, after, rfl, -⟩ := hnumber.row
    simp
  rw [hread] at hzeros
  have htext : digits.token.text = "0" := by
    simpa [hnumber.number] using List.all_eq_true.1 hzeros digits hmem
  have hspells : SpellsZero digits.token.text.toList := by
    rw [htext]
    exact .plain (by simp) (by simp)
  exact ⟨file, ls, read, hread, name, body, span, has, v, sign, digits, hfirst, hnumber, hspells,
    failure v, congrArg Except.ok hcheck, rfl⟩

end FirstValueZero

end SchemaLint
