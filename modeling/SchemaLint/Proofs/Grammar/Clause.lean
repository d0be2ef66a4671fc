import SchemaLint.Proofs.Grammar.Words
import SchemaLint.Proofs.Parse.Header
import Mathlib.Tactic.SplitIfs

/-!
# Statements are recognized

A statement ends with a semicolon or a brace of its own, so that its parser takes the same lexemes
whatever follows them.
-/

set_option autoImplicit false
set_option relaxedAutoImplicit false

namespace SchemaLint.Parser

open Grammar

variable {α : Type} {ls rest used : List Lexeme}

theorem versionClause_of_languageVersion {v : LanguageVersion}
    (word : (firstIs ls "syntax" || firstIs ls "edition") = true)
    (he : languageVersion ls = .ok (v, rest)) : ∃ used, ls = used ++ rest ∧ VersionClause used v := by
  unfold languageVersion at he
  obtain ⟨t, ls₁, hword, h₁⟩ := bind_eq_ok_iff.1 he
  obtain ⟨_, ls₂, hequals, h₂⟩ := bind_eq_ok_iff.1 h₁
  obtain ⟨version, ls₃, hversion, h₃⟩ := bind_eq_ok_iff.1 h₂
  obtain ⟨last, ls₄, hlast, hdone⟩ := bind_eq_ok_iff.1 h₃
  obtain ⟨rfl, rfl⟩ := pure_eq_ok_iff.1 hdone
  obtain ⟨first, rfl, -, rfl⟩ := satisfy_eq_ok_iff.1 hword
  obtain ⟨equals, rfl, hassign⟩ := discard_symbol_eq_ok_iff.1 hequals
  obtain ⟨s, rfl, hs, rfl⟩ := satisfy_eq_ok_iff.1 hversion
  obtain ⟨semi, rfl, hsemi, rfl⟩ := symbolAt_eq_ok_iff.1 hlast
  exact ⟨[first, equals, s, semi], rfl,
    .mk (Bool.or_eq_true_iff.1 word) hassign (by simpa using hs) hsemi⟩

theorem languageVersion_of_versionClause {v : LanguageVersion} (h : VersionClause used v) :
    languageVersion (used ++ rest) = .ok (v, rest) := by
  cases h with
  | mk word assigns quoted ends =>
    unfold languageVersion
    refine bind_eq_ok_iff.2 ⟨_, _, satisfy_eq_ok_iff.2 ⟨_, rfl, rfl, rfl⟩, ?_⟩
    refine bind_eq_ok_iff.2 ⟨(), _, discard_symbol_eq_ok_iff.2 ⟨_, rfl, assigns⟩, ?_⟩
    refine bind_eq_ok_iff.2 ⟨_, _, satisfy_eq_ok_iff.2 ⟨_, rfl, by simpa using quoted, rfl⟩, ?_⟩
    refine bind_eq_ok_iff.2 ⟨_, _, symbolAt_eq_ok_iff.2 ⟨_, rfl, ends, rfl⟩, ?_⟩
    exact pure_eq_ok_iff.2 ⟨rfl, rfl⟩

theorem recognizes_package : Recognizes package (fun _ => true) PackageClause where
  sound := by
    intro ls p rest he
    unfold package at he
    obtain ⟨first, ls₁, hfirst, h₁⟩ := bind_eq_ok_iff.1 he
    obtain ⟨name, ls₂, hname, h₂⟩ := bind_eq_ok_iff.1 h₁
    obtain ⟨last, ls₃, hlast, hdone⟩ := bind_eq_ok_iff.1 h₂
    obtain ⟨rfl, rfl⟩ := pure_eq_ok_iff.1 hdone
    obtain ⟨k, rfl, hk, rfl⟩ := keywordAt_eq_ok_iff.1 hfirst
    obtain ⟨run, rfl, names, hnames, rfl⟩ := recognizes_dottedName.sound hname
    obtain ⟨semi, rfl, hsemi, rfl⟩ := symbolAt_eq_ok_iff.1 hlast
    exact ⟨k :: (run ++ [semi]), by simp, .mk hk hnames hsemi⟩
  complete := by
    intro used p rest derived _
    cases derived with
    | @mk first last ls names word spells ends =>
      have hname := recognizes_dottedName.before ⟨names, spells, rfl⟩
        (endsName_of_isSymbol ends (by decide)) rest
      rw [List.cons_append, List.append_assoc]
      unfold package
      refine bind_eq_ok_iff.2 ⟨_, _, keywordAt_eq_ok_iff.2 ⟨_, rfl, word, rfl⟩, ?_⟩
      refine bind_eq_ok_iff.2 ⟨_, _, hname, ?_⟩
      refine bind_eq_ok_iff.2 ⟨_, _, symbolAt_eq_ok_iff.2 ⟨_, rfl, ends, rfl⟩, ?_⟩
      exact pure_eq_ok_iff.2 ⟨rfl, rfl⟩

theorem recognizes_importModifier :
    Recognizes importModifier (fun t => t.kind = .string) Modifier where
  sound := by
    intro ls m rest he
    unfold importModifier at he
    obtain ⟨b, mid, hb, hafter⟩ := bind_eq_ok_iff.1 he
    rcases accept_eq_ok_iff.1 hb with ⟨rfl, l, rfl, hl⟩ | ⟨rfl, rfl, -⟩
    · obtain ⟨rfl, rfl⟩ := pure_eq_ok_iff.1 hafter
      exact ⟨[l], rfl, .weakly hl⟩
    · obtain ⟨b', mid, hb', hlast⟩ := bind_eq_ok_iff.1 hafter
      rcases accept_eq_ok_iff.1 hb' with ⟨rfl, l, rfl, hl⟩ | ⟨rfl, rfl, -⟩
      · obtain ⟨rfl, rfl⟩ := pure_eq_ok_iff.1 hlast
        exact ⟨[l], rfl, .publicly hl⟩
      · obtain ⟨rfl, rfl⟩ := pure_eq_ok_iff.1 hlast
        exact ⟨[], rfl, .absent⟩
  complete := by
    intro used m rest derived ahead
    unfold importModifier
    cases derived with
    | absent =>
      have hnone : ∀ word, accept (·.isWord word) rest = .ok (false, rest) := fun word =>
        accept_eq_ok_iff.2 (.inr ⟨rfl, rfl, ahead.weaken fun t ht => by
          simp_all [Token.isWord]⟩)
      refine bind_eq_ok_iff.2 ⟨false, rest, hnone _, ?_⟩
      exact bind_eq_ok_iff.2 ⟨false, rest, hnone _, pure_eq_ok_iff.2 ⟨rfl, rfl⟩⟩
    | @weakly l word =>
      exact bind_eq_ok_iff.2
        ⟨true, rest, accept_eq_ok_iff.2 (.inl ⟨rfl, l, rfl, word⟩), pure_eq_ok_iff.2 ⟨rfl, rfl⟩⟩
    | @publicly l word =>
      have hweak : l.token.isWord "weak" = false := by simp_all [Token.isWord]
      refine bind_eq_ok_iff.2 ⟨false, l :: rest, accept_eq_ok_iff.2 (.inr ⟨rfl, rfl, ?_⟩), ?_⟩
      · simpa using hweak
      · exact bind_eq_ok_iff.2
          ⟨true, rest, accept_eq_ok_iff.2 (.inl ⟨rfl, l, rfl, word⟩), pure_eq_ok_iff.2 ⟨rfl, rfl⟩⟩

theorem recognizes_imported : Recognizes imported (fun _ => true) ImportClause where
  sound := by
    intro ls i rest he
    unfold imported at he
    obtain ⟨first, ls₁, hfirst, h₁⟩ := bind_eq_ok_iff.1 he
    obtain ⟨modifier, ls₂, hmodifier, h₂⟩ := bind_eq_ok_iff.1 h₁
    obtain ⟨location, ls₃, hlocation, h₃⟩ := bind_eq_ok_iff.1 h₂
    obtain ⟨last, ls₄, hlast, hdone⟩ := bind_eq_ok_iff.1 h₃
    obtain ⟨rfl, rfl⟩ := pure_eq_ok_iff.1 hdone
    obtain ⟨k, rfl, hk, rfl⟩ := keywordAt_eq_ok_iff.1 hfirst
    obtain ⟨used, rfl, hused⟩ := recognizes_importModifier.sound hmodifier
    obtain ⟨s, rfl, hs, rfl⟩ := satisfy_eq_ok_iff.1 hlocation
    obtain ⟨semi, rfl, hsemi, rfl⟩ := symbolAt_eq_ok_iff.1 hlast
    exact ⟨k :: (used ++ [s, semi]), by simp, .mk hk hused (by simpa using hs) hsemi⟩
  complete := by
    intro used i rest derived _
    cases derived with
    | @mk first location last ls modifier word modifies quoted ends =>
      have hmodifier := recognizes_importModifier.before (l := location) modifies
        (by simpa using quoted) (last :: rest)
      rw [List.cons_append, List.append_assoc]
      unfold imported
      refine bind_eq_ok_iff.2 ⟨_, _, keywordAt_eq_ok_iff.2 ⟨_, rfl, word, rfl⟩, ?_⟩
      refine bind_eq_ok_iff.2 ⟨_, _, hmodifier, ?_⟩
      refine bind_eq_ok_iff.2 ⟨_, _, satisfy_eq_ok_iff.2 ⟨_, rfl, by simpa using quoted, rfl⟩, ?_⟩
      refine bind_eq_ok_iff.2 ⟨_, _, symbolAt_eq_ok_iff.2 ⟨_, rfl, ends, rfl⟩, ?_⟩
      exact pure_eq_ok_iff.2 ⟨rfl, rfl⟩

theorem recognizes_option : Recognizes option (fun _ => true) OptionClause where
  sound := by
    intro ls o rest he
    unfold option at he
    obtain ⟨first, ls₁, hfirst, h₁⟩ := bind_eq_ok_iff.1 he
    obtain ⟨name, ls₂, hname, h₂⟩ := bind_eq_ok_iff.1 h₁
    obtain ⟨_, ls₃, hequals, h₃⟩ := bind_eq_ok_iff.1 h₂
    obtain ⟨value, ls₄, hvalue, h₄⟩ := bind_eq_ok_iff.1 h₃
    obtain ⟨last, ls₅, hlast, hdone⟩ := bind_eq_ok_iff.1 h₄
    obtain ⟨rfl, rfl⟩ := pure_eq_ok_iff.1 hdone
    obtain ⟨k, rfl, hk, rfl⟩ := keywordAt_eq_ok_iff.1 hfirst
    obtain ⟨names, rfl, hnames⟩ := recognizes_optionName.sound hname
    obtain ⟨equals, rfl, hassign⟩ := discard_symbol_eq_ok_iff.1 hequals
    obtain ⟨values, rfl, hvalues, rfl⟩ := recognizes_constant.sound hvalue
    obtain ⟨semi, rfl, hsemi, rfl⟩ := symbolAt_eq_ok_iff.1 hlast
    exact ⟨k :: (names ++ equals :: (values ++ [semi])), by simp, .mk hk hnames hassign hvalues hsemi⟩
  complete := by
    intro used o rest derived _
    cases derived with
    | @mk first equals last ls ms name word named assigns constant ends =>
      have hname := recognizes_optionName.before named (endsName_of_isSymbol assigns (by decide))
        (ms ++ last :: rest)
      have hvalue := recognizes_constant.before ⟨constant, rfl⟩
        (endsConstant_of_isSymbol ends (by decide)) rest
      simp only [List.cons_append, List.append_assoc, List.nil_append]
      unfold option
      refine bind_eq_ok_iff.2 ⟨_, _, keywordAt_eq_ok_iff.2 ⟨_, rfl, word, rfl⟩, ?_⟩
      refine bind_eq_ok_iff.2 ⟨_, _, hname, ?_⟩
      refine bind_eq_ok_iff.2 ⟨(), _, discard_symbol_eq_ok_iff.2 ⟨_, rfl, assigns⟩, ?_⟩
      refine bind_eq_ok_iff.2 ⟨_, _, hvalue, ?_⟩
      refine bind_eq_ok_iff.2 ⟨_, _, symbolAt_eq_ok_iff.2 ⟨_, rfl, ends, rfl⟩, ?_⟩
      exact pure_eq_ok_iff.2 ⟨rfl, rfl⟩

/-! ### Fields -/

private theorem fieldOptions_of_semicolon {options : List FieldOption} {last : Lexeme}
    (h : BracketOptions used options) (ends : last.token.isSymbol ';' = true) :
    fieldOptions (used ++ last :: rest) = .ok (options, last :: rest) :=
  recognizes_fieldOptions.complete h ((ahead_cons _ _ _).2 (by simp [isSymbol_of_ne ends]))

theorem fieldEnd_eq_ok_iff {f : String → String → List FieldOption → Position → α} {a : α} :
    (identifier >>= fun name => discard (symbol '=') >>= fun _ => fieldNumber >>= fun number =>
      fieldOptions >>= fun options => symbolAt ';' >>= fun last =>
        pure (f name number options last)) ls = .ok (a, rest) ↔
      ∃ used name number options last, ls = used ++ rest ∧
        FieldEnd used name number options last ∧ f name number options last = a := by
  constructor
  · intro he
    obtain ⟨name, ls₁, hname, h₁⟩ := bind_eq_ok_iff.1 he
    obtain ⟨_, ls₂, hequals, h₂⟩ := bind_eq_ok_iff.1 h₁
    obtain ⟨number, ls₃, hnumber, h₃⟩ := bind_eq_ok_iff.1 h₂
    obtain ⟨options, ls₄, hoptions, h₄⟩ := bind_eq_ok_iff.1 h₃
    obtain ⟨last, ls₅, hlast, hdone⟩ := bind_eq_ok_iff.1 h₄
    obtain ⟨rfl, rfl⟩ := pure_eq_ok_iff.1 hdone
    obtain ⟨n, rfl, hn, rfl⟩ := identifier_eq_ok_iff.1 hname
    obtain ⟨equals, rfl, hassign⟩ := discard_symbol_eq_ok_iff.1 hequals
    obtain ⟨digits, rfl, hdigits, rfl⟩ := fieldNumber_eq_ok_iff.1 hnumber
    obtain ⟨used, rfl, hused⟩ := recognizes_fieldOptions.sound hoptions
    obtain ⟨semi, rfl, hsemi, rfl⟩ := symbolAt_eq_ok_iff.1 hlast
    exact ⟨n :: equals :: digits :: (used ++ [semi]), _, _, _, _, by simp,
      .mk hn hassign hdigits hused hsemi, rfl⟩
  · rintro ⟨used, name, number, options, last, rfl, derived, rfl⟩
    cases derived with
    | @mk n equals digits semi ls options hn assigns hdigits listed ends =>
      simp only [List.cons_append, List.append_assoc, List.nil_append]
      refine bind_eq_ok_iff.2 ⟨_, _, identifier_eq_ok_iff.2 ⟨_, rfl, hn, rfl⟩, ?_⟩
      refine bind_eq_ok_iff.2 ⟨(), _, discard_symbol_eq_ok_iff.2 ⟨_, rfl, assigns⟩, ?_⟩
      refine bind_eq_ok_iff.2 ⟨_, _, fieldNumber_eq_ok_iff.2 ⟨_, rfl, hdigits, rfl⟩, ?_⟩
      refine bind_eq_ok_iff.2 ⟨_, _, fieldOptions_of_semicolon listed ends, ?_⟩
      refine bind_eq_ok_iff.2 ⟨_, _, symbolAt_eq_ok_iff.2 ⟨_, rfl, ends, rfl⟩, ?_⟩
      exact pure_eq_ok_iff.2 ⟨rfl, rfl⟩

theorem labelAhead_cons_eq_some_iff {l : Lexeme} {c : Cardinality} :
    labelAhead (l :: ls) = some c ↔
      assignsThird (l :: ls) = false ∧ l.token.isWord (labelWord c) = true := by
  have heq : labelAhead (l :: ls) = if assignsThird (l :: ls) then none
      else if l.token.isWord "optional" then some .optional
      else if l.token.isWord "required" then some .required
      else if l.token.isWord "repeated" then some .repeated else none := rfl
  rw [heq]
  cases assignsThird (l :: ls) with
  | true => simp
  | false =>
    by_cases hkind : l.token.kind = .identifier
    · rw [if_neg Bool.false_ne_true]
      simp only [Token.isWord, hkind, decide_true, Bool.true_and, decide_eq_true_eq, true_and]
      cases c <;> simp only [labelWord] <;> split_ifs <;> simp_all
    · simp [Token.isWord, hkind]

theorem labelAhead_cons_eq_none_iff {l : Lexeme} :
    labelAhead (l :: ls) = none ↔
      assignsThird (l :: ls) = true ∨ ∀ c, l.token.isWord (labelWord c) = false := by
  constructor
  · intro hnone
    by_cases hthird : assignsThird (l :: ls) = true
    · exact .inl hthird
    · refine .inr fun c => Bool.eq_false_iff.2 fun hword => ?_
      have hsome := labelAhead_cons_eq_some_iff.2 ⟨Bool.eq_false_iff.2 hthird, hword⟩
      exact Option.some_ne_none c (hsome.symm.trans hnone)
  · intro h
    cases hahead : labelAhead (l :: ls) with
    | none => rfl
    | some c =>
      obtain ⟨hthird, hword⟩ := labelAhead_cons_eq_some_iff.1 hahead
      rcases h with h | h
      · rw [h] at hthird
        exact Bool.noConfusion hthird
      · rw [h c] at hword
        exact Bool.noConfusion hword

private theorem field_of_label {first : Lexeme} {tail types ends : List Lexeme}
    {label : Option Cardinality} {type name number : String} {options : List FieldOption}
    {last : Position} (ahead : labelAhead (first :: tail) = label)
    (behind : (if label.isSome then tail else first :: tail) = types ++ (ends ++ rest))
    (typed : Grammar.TypeName types type) (ended : FieldEnd ends name number options last) :
    field (first :: tail) =
      .ok (⟨label, type, name, number, options, ⟨first.token.position, last⟩⟩, rest) := by
  have hends : Ahead endsName (ends ++ rest) := by
    cases ended with
    | mk word _ _ _ _ => simp [endsName, Token.isSymbol, word]
  have htype := recognizes_typeName.complete typed hends
  unfold field
  refine bind_eq_ok_iff.2 ⟨_, _, here_eq_ok_iff.2 ⟨first, tail, rfl, rfl, rfl⟩, ?_⟩
  refine bind_eq_ok_iff.2 ⟨label, _, by rw [cardinality_apply, ahead], ?_⟩
  rw [List.tail_cons, behind]
  refine bind_eq_ok_iff.2 ⟨_, _, htype, ?_⟩
  exact fieldEnd_eq_ok_iff.2 ⟨ends, name, number, options, last, rfl, ended, rfl⟩

private theorem assignless_of_cons {first : Lexeme} {type : String}
    (typed : Grammar.TypeName (first :: ls) type) : Assignless ls :=
  fun l hl => typed.assignless l (List.mem_cons_of_mem _ hl)

theorem recognizes_field : Recognizes field (fun _ => true) FieldClause where
  sound := by
    intro ls f rest he
    unfold field at he
    obtain ⟨first, ls₁, hfirst, h₁⟩ := bind_eq_ok_iff.1 he
    obtain ⟨label, ls₂, hlabel, h₂⟩ := bind_eq_ok_iff.1 h₁
    obtain ⟨type, ls₃, htype, h₃⟩ := bind_eq_ok_iff.1 h₂
    obtain ⟨types, rfl, htypes⟩ := recognizes_typeName.sound htype
    obtain ⟨used, name, number, options, last, rfl, hend, rfl⟩ := fieldEnd_eq_ok_iff.1 h₃
    obtain ⟨k, tail, rfl, rfl, rfl⟩ := here_eq_ok_iff.1 hfirst
    rw [cardinality_apply] at hlabel
    obtain ⟨rfl, htail⟩ := Prod.mk.inj (Except.ok.inj hlabel)
    cases hahead : labelAhead (k :: tail) with
    | some c =>
      rw [hahead] at htail
      obtain rfl : tail = types ++ (used ++ rest) := htail
      exact ⟨k :: (types ++ used), by simp,
        .labelled (labelAhead_cons_eq_some_iff.1 hahead).2 htypes hend⟩
    | none =>
      rw [hahead] at htail
      have hsplit : k :: tail = types ++ (used ++ rest) := htail
      obtain ⟨l, ms, rfl, -⟩ := htypes.begins
      rw [List.cons_append] at hsplit
      obtain ⟨rfl, rfl⟩ := List.cons.inj hsplit
      refine ⟨k :: (ms ++ used), by simp, .plain ?_ htypes hend⟩
      -- No label was seen: an equals sign stands third, behind a type of one word, or there is none.
      refine (labelAhead_cons_eq_none_iff.1 hahead).imp_left fun hthird => ?_
      rw [hend.assignsThird (assignless_of_cons htypes)] at hthird
      exact List.isEmpty_iff.1 hthird
  complete := by
    intro used f rest derived _
    cases derived with
    | @labelled label ls ms c type name number options last word typed ends =>
      rw [List.cons_append, List.append_assoc]
      have hthird := ends.assignsThird typed.assignless label rest
      obtain ⟨l, tail, rfl, -⟩ := typed.begins
      exact field_of_label (labelAhead_cons_eq_some_iff.2 ⟨hthird, word⟩) rfl typed ends
    | @plain first ls ms type name number options last no_label typed ends =>
      rw [List.cons_append, List.append_assoc]
      have hthird := ends.assignsThird (assignless_of_cons typed) first rest
      have hlabel := labelAhead_cons_eq_none_iff.2
        (no_label.imp_left fun h => hthird.trans (List.isEmpty_iff.2 h))
      exact field_of_label hlabel rfl typed ends

theorem recognizes_mapField : Recognizes mapField (fun _ => true) MapClause where
  sound := by
    intro ls f rest he
    unfold mapField at he
    obtain ⟨first, ls₁, hfirst, h₁⟩ := bind_eq_ok_iff.1 he
    obtain ⟨_, ls₂, hopen, h₂⟩ := bind_eq_ok_iff.1 h₁
    obtain ⟨key, ls₃, hkey, h₃⟩ := bind_eq_ok_iff.1 h₂
    obtain ⟨_, ls₄, hcomma, h₄⟩ := bind_eq_ok_iff.1 h₃
    obtain ⟨type, ls₅, htype, h₅⟩ := bind_eq_ok_iff.1 h₄
    obtain ⟨_, ls₆, hclose, h₆⟩ := bind_eq_ok_iff.1 h₅
    obtain ⟨used, name, number, options, last, rfl, hend, rfl⟩ := fieldEnd_eq_ok_iff.1 h₆
    obtain ⟨k, rfl, hk, rfl⟩ := keywordAt_eq_ok_iff.1 hfirst
    obtain ⟨opening, rfl, hopening⟩ := discard_symbol_eq_ok_iff.1 hopen
    obtain ⟨keyed, rfl, hkeyed, rfl⟩ := identifier_eq_ok_iff.1 hkey
    obtain ⟨comma, rfl, hparts⟩ := discard_symbol_eq_ok_iff.1 hcomma
    obtain ⟨types, rfl, htypes⟩ := recognizes_typeName.sound htype
    obtain ⟨closing, rfl, hclosing⟩ := discard_symbol_eq_ok_iff.1 hclose
    exact ⟨k :: opening :: keyed :: comma :: (types ++ closing :: used), by simp,
      .mk hk hopening hkeyed hparts htypes hclosing hend⟩
  complete := by
    intro used f rest derived _
    cases derived with
    | @mk first opening key comma closing ls ms type name number options last word opens keyed parts
        typed closes ends =>
      have htype := recognizes_typeName.before typed (endsName_of_isSymbol closes (by decide))
        (ms ++ rest)
      simp only [List.cons_append, List.append_assoc]
      unfold mapField
      refine bind_eq_ok_iff.2 ⟨_, _, keywordAt_eq_ok_iff.2 ⟨_, rfl, word, rfl⟩, ?_⟩
      refine bind_eq_ok_iff.2 ⟨(), _, discard_symbol_eq_ok_iff.2 ⟨_, rfl, opens⟩, ?_⟩
      refine bind_eq_ok_iff.2 ⟨_, _, identifier_eq_ok_iff.2 ⟨_, rfl, keyed, rfl⟩, ?_⟩
      refine bind_eq_ok_iff.2 ⟨(), _, discard_symbol_eq_ok_iff.2 ⟨_, rfl, parts⟩, ?_⟩
      refine bind_eq_ok_iff.2 ⟨_, _, htype, ?_⟩
      refine bind_eq_ok_iff.2 ⟨(), _, discard_symbol_eq_ok_iff.2 ⟨_, rfl, closes⟩, ?_⟩
      exact fieldEnd_eq_ok_iff.2 ⟨ms, name, number, options, last, rfl, ends, rfl⟩

theorem recognizes_enumValue : Recognizes enumValue (fun _ => true) ValueClause where
  sound := by
    intro ls v rest he
    unfold enumValue at he
    obtain ⟨name, ls₁, hname, h₁⟩ := bind_eq_ok_iff.1 he
    obtain ⟨_, ls₂, hequals, h₂⟩ := bind_eq_ok_iff.1 h₁
    obtain ⟨number, ls₃, hnumber, h₃⟩ := bind_eq_ok_iff.1 h₂
    obtain ⟨options, ls₄, hoptions, h₄⟩ := bind_eq_ok_iff.1 h₃
    obtain ⟨last, ls₅, hlast, hdone⟩ := bind_eq_ok_iff.1 h₄
    obtain ⟨rfl, rfl⟩ := pure_eq_ok_iff.1 hdone
    obtain ⟨n, rfl, hn, rfl⟩ := satisfy_eq_ok_iff.1 hname
    obtain ⟨equals, rfl, hassign⟩ := discard_symbol_eq_ok_iff.1 hequals
    obtain ⟨digits, rfl, hdigits, rfl⟩ := recognizes_signedNumber.sound hnumber
    obtain ⟨used, rfl, hused⟩ := recognizes_fieldOptions.sound hoptions
    obtain ⟨semi, rfl, hsemi, rfl⟩ := symbolAt_eq_ok_iff.1 hlast
    exact ⟨n :: equals :: (digits ++ (used ++ [semi])), by simp,
      .mk (by simpa using hn) hassign hdigits hused hsemi⟩
  complete := by
    intro used v rest derived _
    cases derived with
    | @mk name equals last ls ms options word assigns digits listed ends =>
      have hnumber := recognizes_signedNumber.complete ⟨digits, rfl⟩ (ahead_true (ms ++ last :: rest))
      simp only [List.cons_append, List.append_assoc, List.nil_append]
      unfold enumValue
      refine bind_eq_ok_iff.2 ⟨_, _, satisfy_eq_ok_iff.2 ⟨_, rfl, by simpa using word, rfl⟩, ?_⟩
      refine bind_eq_ok_iff.2 ⟨(), _, discard_symbol_eq_ok_iff.2 ⟨_, rfl, assigns⟩, ?_⟩
      refine bind_eq_ok_iff.2 ⟨_, _, hnumber, ?_⟩
      refine bind_eq_ok_iff.2 ⟨_, _, fieldOptions_of_semicolon listed ends, ?_⟩
      refine bind_eq_ok_iff.2 ⟨_, _, symbolAt_eq_ok_iff.2 ⟨_, rfl, ends, rfl⟩, ?_⟩
      exact pure_eq_ok_iff.2 ⟨rfl, rfl⟩

/-! ### Calls -/

private theorem streamAhead_cons {word closing : Lexeme}
    (inside : ∀ l ∈ used, l.token.isSymbol ')' = false) (closes : closing.token.isSymbol ')' = true) :
    streamAhead (word :: (used ++ closing :: rest)) =
      (word.token.isWord "stream" && !used.isEmpty && !touches used) := by
  cases used with
  | nil => simp [streamAhead, closes]
  | cons l used =>
    have hl := inside l (by simp)
    simp [streamAhead, touches, hl]

private theorem streams_true_iff {closing : Lexeme} {type : String}
    (typed : Grammar.TypeName used type) (closes : closing.token.isSymbol ')' = true) :
    streams ls = .ok (true, used ++ closing :: rest) ↔ ∃ word : Lexeme,
      ls = word :: (used ++ closing :: rest) ∧ word.token.isWord "stream" = true ∧
        touches used = false := by
  rw [streams_apply]
  constructor
  · intro h
    obtain ⟨hahead, htail⟩ := Prod.mk.inj (Except.ok.inj h)
    rw [hahead] at htail
    cases ls with
    | nil => exact Bool.noConfusion hahead
    | cons word tail =>
      obtain rfl : tail = used ++ closing :: rest := htail
      rw [streamAhead_cons typed.no_parenthesis closes] at hahead
      obtain ⟨⟨hword, -⟩, hapart⟩ : (word.token.isWord "stream" = true ∧ used ≠ []) ∧
          touches used = false := by simpa using hahead
      exact ⟨word, rfl, hword, hapart⟩
  · rintro ⟨word, rfl, hword, hapart⟩
    have hahead : streamAhead (word :: (used ++ closing :: rest)) = true := by
      obtain ⟨l, tail, rfl, -⟩ := typed.begins
      rw [streamAhead_cons typed.no_parenthesis closes, hword, hapart]
      rfl
    rw [hahead]
    rfl

private theorem streams_false_iff {first closing : Lexeme} {type : String}
    (typed : Grammar.TypeName (first :: used) type) (closes : closing.token.isSymbol ')' = true) :
    streams ls = .ok (false, first :: (used ++ closing :: rest)) ↔
      ls = first :: (used ++ closing :: rest) ∧
        (first.token.isWord "stream" = true → used = [] ∨ touches used = true) := by
  have hinside : ∀ l ∈ used, l.token.isSymbol ')' = false := fun l hl =>
    typed.no_parenthesis l (List.mem_cons_of_mem _ hl)
  have hahead : streamAhead (first :: (used ++ closing :: rest)) = false ↔
      (first.token.isWord "stream" = true → used = [] ∨ touches used = true) := by
    rw [streamAhead_cons hinside closes]
    cases first.token.isWord "stream" <;> cases touches used <;> simp
  rw [streams_apply, ← hahead]
  constructor
  · intro h
    obtain ⟨hnone, htail⟩ := Prod.mk.inj (Except.ok.inj h)
    rw [hnone] at htail
    obtain rfl : ls = first :: (used ++ closing :: rest) := htail
    exact ⟨rfl, hnone⟩
  · rintro ⟨rfl, hnone⟩
    rw [hnone]
    rfl

theorem recognizes_callMessage : Recognizes callMessage (fun _ => true) CallSide where
  sound := by
    intro ls c rest he
    unfold callMessage at he
    obtain ⟨_, ls₁, hopen, h₁⟩ := bind_eq_ok_iff.1 he
    obtain ⟨isStream, ls₂, hstream, h₂⟩ := bind_eq_ok_iff.1 h₁
    obtain ⟨type, ls₃, htype, h₃⟩ := bind_eq_ok_iff.1 h₂
    obtain ⟨_, ls₄, hclose, hdone⟩ := bind_eq_ok_iff.1 h₃
    obtain ⟨rfl, rfl⟩ := pure_eq_ok_iff.1 hdone
    obtain ⟨opening, rfl, hopening⟩ := discard_symbol_eq_ok_iff.1 hopen
    obtain ⟨types, rfl, htypes⟩ := recognizes_typeName.sound htype
    obtain ⟨closing, rfl, hclosing⟩ := discard_symbol_eq_ok_iff.1 hclose
    cases isStream with
    | true =>
      obtain ⟨word, rfl, hword, hapart⟩ := (streams_true_iff htypes hclosing).1 hstream
      exact ⟨opening :: word :: (types ++ [closing]), by simp,
        .streamed hopening hword hapart htypes hclosing⟩
    | false =>
      obtain ⟨first, ms, rfl, -⟩ := htypes.begins
      obtain ⟨rfl, hsingle⟩ := (streams_false_iff htypes hclosing).1 hstream
      exact ⟨opening :: first :: (ms ++ [closing]), by simp,
        .single hopening hsingle htypes hclosing⟩
  complete := by
    intro used c rest derived _
    unfold callMessage
    cases derived with
    | @single opening first closing ls type opens no_stream typed closes =>
      have htype := recognizes_typeName.before typed (endsName_of_isSymbol closes (by decide)) rest
      simp only [List.cons_append, List.append_assoc, List.nil_append]
      refine bind_eq_ok_iff.2 ⟨(), _, discard_symbol_eq_ok_iff.2 ⟨_, rfl, opens⟩, ?_⟩
      refine bind_eq_ok_iff.2 ⟨_, _, (streams_false_iff typed closes).2 ⟨rfl, no_stream⟩, ?_⟩
      refine bind_eq_ok_iff.2 ⟨_, _, htype, ?_⟩
      refine bind_eq_ok_iff.2 ⟨(), _, discard_symbol_eq_ok_iff.2 ⟨_, rfl, closes⟩, ?_⟩
      exact pure_eq_ok_iff.2 ⟨rfl, rfl⟩
    | @streamed opening word closing ls type opens stream apart typed closes =>
      have htype := recognizes_typeName.before typed (endsName_of_isSymbol closes (by decide)) rest
      simp only [List.cons_append, List.append_assoc, List.nil_append]
      refine bind_eq_ok_iff.2 ⟨(), _, discard_symbol_eq_ok_iff.2 ⟨_, rfl, opens⟩, ?_⟩
      refine bind_eq_ok_iff.2 ⟨_, _, (streams_true_iff typed closes).2 ⟨word, rfl, stream, apart⟩, ?_⟩
      refine bind_eq_ok_iff.2 ⟨_, _, htype, ?_⟩
      refine bind_eq_ok_iff.2 ⟨(), _, discard_symbol_eq_ok_iff.2 ⟨_, rfl, closes⟩, ?_⟩
      exact pure_eq_ok_iff.2 ⟨rfl, rfl⟩

theorem recognizes_callOptions :
    Recognizes callOptions (fun _ => true) fun ls e => CallEnd ls e.1 e.2 where
  sound := by
    intro ls e rest he
    unfold callOptions at he
    obtain ⟨b, mid, hb, hafter⟩ := bind_eq_ok_iff.1 he
    rcases accept_eq_ok_iff.1 hb with ⟨rfl, opening, rfl, hopen⟩ | ⟨rfl, rfl, -⟩
    · obtain ⟨⟨options, last⟩, _, hbody, hdone⟩ := bind_eq_ok_iff.1 hafter
      obtain ⟨rfl, rfl⟩ := pure_eq_ok_iff.1 hdone
      obtain ⟨used, closing, rfl, hused, hclosing, rfl⟩ :=
        ((enclosed_eq_ok_iff rereads_option.progresses).1 hbody).phrases
          fun _ _ _ => recognizes_option.sound
      exact ⟨opening :: (used ++ [closing]), by simp, .block hopen hused hclosing⟩
    · obtain ⟨last, _, hlast, hdone⟩ := bind_eq_ok_iff.1 hafter
      obtain ⟨rfl, rfl⟩ := pure_eq_ok_iff.1 hdone
      obtain ⟨semi, rfl, hsemi, rfl⟩ := symbolAt_eq_ok_iff.1 hlast
      exact ⟨[semi], rfl, .semicolon hsemi⟩
  complete := by
    rintro used ⟨options, last⟩ rest derived -
    unfold callOptions
    cases derived with
    | @semicolon last ends =>
      have hnone : accept (·.isSymbol '\x7b') ([last] ++ rest) = .ok (false, [last] ++ rest) :=
        accept_eq_ok_iff.2 (.inr ⟨rfl, rfl, by simp [isSymbol_of_ne ends]⟩)
      refine bind_eq_ok_iff.2 ⟨_, _, hnone, ?_⟩
      exact bind_eq_ok_iff.2
        ⟨_, _, symbolAt_eq_ok_iff.2 ⟨last, rfl, ends, rfl⟩, pure_eq_ok_iff.2 ⟨rfl, rfl⟩⟩
    | @block opening closing ls options opens inside closes =>
      have hbody : Encloses option (ls ++ closing :: rest) options closing.token rest :=
        encloses_of_phrases inside
          (fun _ _ _ h => recognizes_option.complete h (ahead_true _))
          (fun _ _ h => by
            obtain ⟨l, tail, rfl, hl⟩ := h.begins
            exact ⟨l, tail, rfl, isSymbol_of_isWord hl _, isSymbol_of_isWord hl _⟩) closes
      refine bind_eq_ok_iff.2
        ⟨true, ls ++ closing :: rest, accept_eq_ok_iff.2 (.inl ⟨rfl, opening, by simp, opens⟩), ?_⟩
      exact bind_eq_ok_iff.2
        ⟨_, _, (enclosed_eq_ok_iff rereads_option.progresses).2 hbody, pure_eq_ok_iff.2 ⟨rfl, rfl⟩⟩

theorem recognizes_rpc : Recognizes rpc (fun _ => true) CallClause where
  sound := by
    intro ls c rest he
    unfold rpc at he
    obtain ⟨first, ls₁, hfirst, h₁⟩ := bind_eq_ok_iff.1 he
    obtain ⟨name, ls₂, hname, h₂⟩ := bind_eq_ok_iff.1 h₁
    obtain ⟨request, ls₃, hrequest, h₃⟩ := bind_eq_ok_iff.1 h₂
    obtain ⟨_, ls₄, hreturns, h₄⟩ := bind_eq_ok_iff.1 h₃
    obtain ⟨response, ls₅, hresponse, h₅⟩ := bind_eq_ok_iff.1 h₄
    obtain ⟨⟨options, last⟩, ls₆, hoptions, hdone⟩ := bind_eq_ok_iff.1 h₅
    obtain ⟨rfl, rfl⟩ := pure_eq_ok_iff.1 hdone
    obtain ⟨k, rfl, hk, rfl⟩ := keywordAt_eq_ok_iff.1 hfirst
    obtain ⟨n, rfl, hn, rfl⟩ := identifier_eq_ok_iff.1 hname
    obtain ⟨requests, rfl, hrequests⟩ := recognizes_callMessage.sound hrequest
    obtain ⟨between, rfl, hbetween⟩ := discard_keyword_eq_ok_iff.1 hreturns
    obtain ⟨responses, rfl, hresponses⟩ := recognizes_callMessage.sound hresponse
    obtain ⟨used, rfl, hused⟩ := recognizes_callOptions.sound hoptions
    exact ⟨k :: n :: (requests ++ between :: (responses ++ used)), by simp,
      .mk hk hn hrequests hbetween hresponses hused⟩
  complete := by
    intro used c rest derived _
    cases derived with
    | @mk _ _ _ _ _ _ _ _ options last word named takes between gives ends =>
      have hend := recognizes_callOptions.complete (a := (options, last)) ends (ahead_true rest)
      simp only [List.cons_append, List.append_assoc]
      unfold rpc
      refine bind_eq_ok_iff.2 ⟨_, _, keywordAt_eq_ok_iff.2 ⟨_, rfl, word, rfl⟩, ?_⟩
      refine bind_eq_ok_iff.2 ⟨_, _, identifier_eq_ok_iff.2 ⟨_, rfl, named, rfl⟩, ?_⟩
      refine bind_eq_ok_iff.2 ⟨_, _, recognizes_callMessage.complete takes (ahead_true _), ?_⟩
      refine bind_eq_ok_iff.2 ⟨(), _, discard_keyword_eq_ok_iff.2 ⟨_, rfl, between⟩, ?_⟩
      refine bind_eq_ok_iff.2 ⟨_, _, recognizes_callMessage.complete gives (ahead_true _), ?_⟩
      refine bind_eq_ok_iff.2 ⟨_, _, hend, ?_⟩
      exact pure_eq_ok_iff.2 ⟨rfl, rfl⟩

/-! ### Reserved names and numbers -/

theorem recognizes_reservedItems :
    Recognizes reservedItems endsRange fun ls items =>
      (Separated ',' Range ls items.1 ∧ items.2 = []) ∨
        (items.1 = [] ∧ Separated ',' ReservedName ls items.2) := by
  have word : Recognizes (Token.unquoted <$> satisfy "reserved name"
      fun t => t.kind = .string || t.kind = .identifier) (fun _ => true) ReservedName := by
    refine ⟨?_, ?_⟩
    · intro ls s rest he
      obtain ⟨t, ht, rfl⟩ := map_eq_ok_iff.1 he
      obtain ⟨l, rfl, hl, rfl⟩ := satisfy_eq_ok_iff.1 ht
      exact ⟨[l], rfl, .mk (by simpa using hl)⟩
    · rintro _ _ rest ⟨sort⟩ -
      exact map_eq_ok_iff.2 ⟨_, satisfy_eq_ok_iff.2 ⟨_, rfl, by simpa using sort, rfl⟩, rfl⟩
  have names := word.separated ',' fun _ _ => rfl
  refine ⟨?_, ?_⟩
  · intro ls items rest he
    unfold reservedItems at he
    rw [bind_of_eq_ok (sees_apply _ _)] at he
    split at he
    · obtain ⟨found, mid, hfound, hdone⟩ := bind_eq_ok_iff.1 he
      obtain ⟨rfl, rfl⟩ := pure_eq_ok_iff.1 hdone
      obtain ⟨used, rfl, hused⟩ := names.sound hfound
      exact ⟨used, rfl, .inr ⟨rfl, hused⟩⟩
    · obtain ⟨found, mid, hfound, hdone⟩ := bind_eq_ok_iff.1 he
      obtain ⟨rfl, rfl⟩ := pure_eq_ok_iff.1 hdone
      obtain ⟨used, rfl, hused⟩ := recognizes_ranges.sound hfound
      exact ⟨used, rfl, .inl ⟨hused, rfl⟩⟩
  · rintro used ⟨numbers, words⟩ rest (⟨derived, rfl⟩ | ⟨rfl, derived⟩) ahead
    · have hsees : (used ++ rest).head?.any
          (fun l => l.token.kind = .string || l.token.kind = .identifier) = false := by
        obtain ⟨l, tail, rfl, hl⟩ := derived.begins fun _ _ h => h.begins
        rcases hl with hl | hl
        · simp [hl]
        · simp_all [Token.isSymbol]
      unfold reservedItems
      rw [bind_of_eq_ok (sees_apply _ _), if_neg (by simpa using hsees)]
      exact bind_eq_ok_iff.2
        ⟨_, _, recognizes_ranges.complete derived ahead, pure_eq_ok_iff.2 ⟨rfl, rfl⟩⟩
    · have hsees : (used ++ rest).head?.any
          (fun l => l.token.kind = .string || l.token.kind = .identifier) = true := by
        obtain ⟨l, tail, rfl, hl⟩ := derived.begins fun _ _ h => h.begins
        simpa using hl
      have hends := ahead.weaken fun t ht => (Bool.and_eq_true_iff.1 ht).2
      unfold reservedItems
      rw [bind_of_eq_ok (sees_apply _ _), if_pos hsees]
      exact bind_eq_ok_iff.2
        ⟨_, _, names.complete derived (by simpa using hends), pure_eq_ok_iff.2 ⟨rfl, rfl⟩⟩

theorem recognizes_reserved : Recognizes reserved (fun _ => true) ReservedClause where
  sound := by
    intro ls c rest he
    unfold reserved at he
    obtain ⟨first, ls₁, hfirst, h₁⟩ := bind_eq_ok_iff.1 he
    obtain ⟨⟨numbers, names⟩, ls₂, hitems, h₂⟩ := bind_eq_ok_iff.1 h₁
    obtain ⟨last, ls₃, hlast, hdone⟩ := bind_eq_ok_iff.1 h₂
    obtain ⟨rfl, rfl⟩ := pure_eq_ok_iff.1 hdone
    obtain ⟨k, rfl, hk, rfl⟩ := keywordAt_eq_ok_iff.1 hfirst
    obtain ⟨used, rfl, hused⟩ := recognizes_reservedItems.sound hitems
    obtain ⟨semi, rfl, hsemi, rfl⟩ := symbolAt_eq_ok_iff.1 hlast
    refine ⟨k :: (used ++ [semi]), by simp, ?_⟩
    rcases hused with ⟨hused, rfl⟩ | ⟨rfl, hused⟩
    · exact .numbers hk hused hsemi
    · exact .names hk hused hsemi
  complete := by
    intro used c rest derived _
    have reads : ∀ {first last : Lexeme} {items : List Lexeme} {numbers names : List String},
        first.token.isWord "reserved" = true → last.token.isSymbol ';' = true →
        reservedItems (items ++ last :: rest) = .ok ((numbers, names), last :: rest) →
        reserved (first :: (items ++ [last]) ++ rest) =
          .ok (⟨numbers, names, ⟨first.token.position, last.token.position⟩⟩, rest) := by
      intro first last items numbers names word ends hitems
      rw [List.cons_append, List.append_assoc]
      unfold reserved
      refine bind_eq_ok_iff.2 ⟨_, _, keywordAt_eq_ok_iff.2 ⟨_, rfl, word, rfl⟩, ?_⟩
      refine bind_eq_ok_iff.2 ⟨_, _, hitems, ?_⟩
      refine bind_eq_ok_iff.2 ⟨_, _, symbolAt_eq_ok_iff.2 ⟨_, rfl, ends, rfl⟩, ?_⟩
      exact pure_eq_ok_iff.2 ⟨rfl, rfl⟩
    have hends : ∀ {last : Lexeme}, last.token.isSymbol ';' = true → endsRange last.token = true :=
      fun ends => by simp [endsRange, isWord_of_isSymbol ends, isSymbol_of_ne ends]
    cases derived with
    | numbers word listed ends =>
      exact reads word ends (recognizes_reservedItems.before (.inl ⟨listed, rfl⟩) (hends ends) rest)
    | names word listed ends =>
      exact reads word ends (recognizes_reservedItems.before (.inr ⟨rfl, listed⟩) (hends ends) rest)

theorem recognizes_extensions : Recognizes extensions (fun _ => true) ExtensionsClause where
  sound := by
    intro ls e rest he
    unfold extensions at he
    obtain ⟨first, ls₁, hfirst, h₁⟩ := bind_eq_ok_iff.1 he
    obtain ⟨numbers, ls₂, hnumbers, h₂⟩ := bind_eq_ok_iff.1 h₁
    obtain ⟨_, ls₃, hoptions, h₃⟩ := bind_eq_ok_iff.1 h₂
    obtain ⟨last, ls₄, hlast, hdone⟩ := bind_eq_ok_iff.1 h₃
    obtain ⟨rfl, rfl⟩ := pure_eq_ok_iff.1 hdone
    obtain ⟨k, rfl, hk, rfl⟩ := keywordAt_eq_ok_iff.1 hfirst
    obtain ⟨items, rfl, hitems⟩ := recognizes_ranges.sound hnumbers
    obtain ⟨options, hoptions⟩ := discard_eq_ok_iff.1 hoptions
    obtain ⟨used, rfl, hused⟩ := recognizes_fieldOptions.sound hoptions
    obtain ⟨semi, rfl, hsemi, rfl⟩ := symbolAt_eq_ok_iff.1 hlast
    exact ⟨k :: (items ++ (used ++ [semi])), by simp, .mk hk hitems hused hsemi⟩
  complete := by
    intro used e rest derived _
    cases derived with
    | @mk first last ls ms ranges options word listed dropped ends =>
      have hends : Ahead endsRange (ms ++ last :: rest) := by
        cases dropped with
        | absent => simp [endsRange, isWord_of_isSymbol ends, isSymbol_of_ne ends]
        | brackets opens _ _ => simp [endsRange, isWord_of_isSymbol opens, isSymbol_of_ne opens]
      simp only [List.cons_append, List.append_assoc, List.nil_append]
      unfold extensions
      refine bind_eq_ok_iff.2 ⟨_, _, keywordAt_eq_ok_iff.2 ⟨_, rfl, word, rfl⟩, ?_⟩
      refine bind_eq_ok_iff.2 ⟨_, _, recognizes_ranges.complete listed hends, ?_⟩
      refine bind_eq_ok_iff.2
        ⟨(), _, discard_eq_ok_iff.2 ⟨_, fieldOptions_of_semicolon dropped ends⟩, ?_⟩
      refine bind_eq_ok_iff.2 ⟨_, _, symbolAt_eq_ok_iff.2 ⟨_, rfl, ends, rfl⟩, ?_⟩
      exact pure_eq_ok_iff.2 ⟨rfl, rfl⟩

end SchemaLint.Parser
