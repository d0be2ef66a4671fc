import SchemaLint.Proofs.Layout.Words
import SchemaLint.Proofs.Parse.Named

/-!
# Statements, however they are laid out

Every statement declares the same.  The one place where a gap is looked at is behind the word
`stream`, and there both rows have one or neither has.
-/

set_option autoImplicit false
set_option relaxedAutoImplicit false

namespace SchemaLint

def Declares {α : Type} (wrap : α → Declaration) (a a' : α) : Prop :=
  Shows Declaration.outline? (wrap a) (wrap a')

theorem OptionStatement.declares {o o' : OptionStatement} (h : Shows outline? o o') :
    Declares .option o o' := by
  obtain ⟨assignment, ho, ho'⟩ := h
  exact ⟨.option assignment, by simp [Declaration.outline?, ho],
    by simp [Declaration.outline?, ho']⟩

namespace Parser

theorem parallel_keywordAt (word : String) :
    Parallel (fun _ _ => True) (keywordAt word) (keywordAt word) :=
  (parallel_satisfy _ fun _ _ => rfl).map fun _ _ _ => trivial

theorem parallel_symbolAt (c : Char) :
    Parallel (fun _ _ => True) (symbolAt c) (symbolAt c) :=
  (parallel_symbol c).map fun _ _ _ => trivial

theorem parallel_here : Parallel (fun _ _ => True) here here := by
  intro ls ls' same
  cases same with
  | nil => exact .error .endOfInput
  | cons => exact .ok 0 trivial

theorem parallel_languageVersion :
    Parallel (Declares .version) languageVersion languageVersion := by
  refine (parallel_satisfy _ fun _ _ => rfl).bind fun word word' hword => ?_
  refine (parallel_symbol '=').discard.bind fun _ _ _ => ?_
  refine (parallel_satisfy _ fun _ _ => rfl).bind fun version version' hversion => ?_
  refine (parallel_symbolAt ';').bind fun _ _ _ => parallel_pure ?_
  rw [isWord_congr hword, unquoted_congr hversion]
  exact ⟨_, rfl, rfl⟩

theorem parallel_package : Parallel (Declares .package) package package := by
  refine (parallel_keywordAt _).bind fun _ _ _ => ?_
  refine parallel_dottedName.bind_eq fun name => ?_
  exact (parallel_symbolAt ';').bind fun _ _ _ => parallel_pure ⟨_, rfl, rfl⟩

theorem parallel_importModifier : Parallel Eq importModifier importModifier :=
  (parallel_acceptWord _).choose (parallel_pure rfl)
    ((parallel_acceptWord _).choose (parallel_pure rfl) (parallel_pure rfl))

theorem parallel_imported : Parallel (Declares .imported) imported imported := by
  refine (parallel_keywordAt _).bind fun _ _ _ => ?_
  refine parallel_importModifier.bind_eq fun modifier => ?_
  refine (parallel_satisfy _ fun _ _ => rfl).bind fun location location' hlocation => ?_
  refine (parallel_symbolAt ';').bind fun _ _ _ => parallel_pure ?_
  rw [unquoted_congr hlocation]
  exact ⟨_, rfl, rfl⟩

theorem parallel_option : Parallel (Shows OptionStatement.outline?) option option := by
  refine (parallel_keywordAt _).bind fun _ _ _ => ?_
  refine parallel_optionName.bind_eq fun name => ?_
  refine (parallel_symbol '=').discard.bind fun _ _ _ => ?_
  refine parallel_constant.bind fun s s' alike => ?_
  refine (parallel_symbolAt ';').bind fun _ _ _ => parallel_pure ?_
  obtain ⟨cs, hs, hs'⟩ := alike.shows
  exact ⟨⟨name, cs⟩, by simp [OptionStatement.outline?, hs],
    by simp [OptionStatement.outline?, hs']⟩

theorem parallel_cardinality : Parallel Eq cardinality cardinality := by
  refine (parallel_look 2).bind fun o o' same => ?_
  rw [IsPlain.any_eq (fun _ _ => rfl) same]
  split
  · exact parallel_pure rfl
  · refine (parallel_acceptWord _).choose (parallel_pure rfl) ?_
    refine (parallel_acceptWord _).choose (parallel_pure rfl) ?_
    exact (parallel_acceptWord _).choose (parallel_pure rfl) (parallel_pure rfl)

theorem parallel_fieldNumber : Parallel Eq fieldNumber fieldNumber :=
  parallel_map_satisfy _ (fun _ _ => rfl) fun _ _ => rfl

theorem parallel_field : Parallel (Declares .field) field field := by
  refine parallel_here.bind fun _ _ _ => ?_
  refine parallel_cardinality.bind_eq fun label => ?_
  refine parallel_typeName.bind_eq fun type => ?_
  refine parallel_identifier.bind_eq fun name => ?_
  refine (parallel_symbol '=').discard.bind fun _ _ _ => ?_
  refine parallel_fieldNumber.bind_eq fun number => ?_
  refine parallel_fieldOptions.bind fun options options' same => ?_
  refine (parallel_symbolAt ';').bind fun _ _ _ => parallel_pure ?_
  obtain ⟨assignments, ho, ho'⟩ := Shows.mapM same
  exact ⟨.field label type name number assignments, by simp [Declaration.outline?, ho],
    by simp [Declaration.outline?, ho']⟩

theorem parallel_mapField : Parallel (Declares .mapField) mapField mapField := by
  refine (parallel_keywordAt _).bind fun _ _ _ => ?_
  refine (parallel_symbol '<').discard.bind fun _ _ _ => ?_
  refine parallel_identifier.bind_eq fun key => ?_
  refine (parallel_symbol ',').discard.bind fun _ _ _ => ?_
  refine parallel_typeName.bind_eq fun type => ?_
  refine (parallel_symbol '>').discard.bind fun _ _ _ => ?_
  refine parallel_identifier.bind_eq fun name => ?_
  refine (parallel_symbol '=').discard.bind fun _ _ _ => ?_
  refine parallel_fieldNumber.bind_eq fun number => ?_
  refine parallel_fieldOptions.bind fun options options' same => ?_
  refine (parallel_symbolAt ';').bind fun _ _ _ => parallel_pure ?_
  obtain ⟨assignments, ho, ho'⟩ := Shows.mapM same
  exact ⟨.mapField key type name number assignments, by simp [Declaration.outline?, ho],
    by simp [Declaration.outline?, ho']⟩

theorem parallel_enumValue : Parallel (Declares .enumValue) enumValue enumValue := by
  refine (parallel_satisfy _ fun _ _ => rfl).bind fun name name' hname => ?_
  refine (parallel_symbol '=').discard.bind fun _ _ _ => ?_
  refine parallel_signedNumber.bind fun number number' hnumber => ?_
  refine parallel_fieldOptions.bind fun options options' same => ?_
  refine (parallel_symbolAt ';').bind fun _ _ _ => parallel_pure ?_
  obtain ⟨contents, hn, hn'⟩ := hnumber.shows
  obtain ⟨assignments, ho, ho'⟩ := Shows.mapM same
  have htext : name.text = name'.text := congrArg Prod.snd hname
  exact ⟨.enumValue name.text contents assignments, by simp [Declaration.outline?, hn, ho],
    by simp [Declaration.outline?, hn', ho', htext]⟩

private theorem streamAhead_congr {ls ls' : List Lexeme} (same : Relaid ls ls') :
    streamAhead ls = streamAhead ls' := by
  cases same with
  | nil => rfl
  | @cons word word' ls ls' content touch _ _ others =>
    cases others with
    | nil => rfl
    | @cons following following' ls ls' hfollowing =>
      have hword := isWord_congr content "stream"
      have hclosing := isSymbol_congr hfollowing ')'
      cases hstream : word'.token.isWord "stream" with
      | false => simp [streamAhead, hword, hstream]
      | true =>
        have htouch := touch (hword.trans hstream)
        simp only [Grammar.touches, List.head?_cons, Option.any_some] at htouch
        simp only [streamAhead, hword, hstream, hclosing, htouch]

theorem parallel_streams : Parallel Eq streams streams := by
  intro ls ls' same
  rw [streams_apply, streams_apply, streamAhead_congr same]
  split
  · rw [← List.drop_one, ← List.drop_one]
    exact .ok 1 rfl
  · exact .ok 0 rfl

theorem parallel_callMessage : Parallel Eq callMessage callMessage := by
  refine (parallel_symbol '(').discard.bind fun _ _ _ => ?_
  refine parallel_streams.bind_eq fun isStream => ?_
  refine parallel_typeName.bind_eq fun type => ?_
  exact (parallel_symbol ')').discard.bind fun _ _ _ => parallel_pure rfl

theorem parallel_callOptions :
    Parallel (fun x x' => List.Forall₂ (Shows OptionStatement.outline?) x.1 x'.1) callOptions
      callOptions := by
  refine (parallel_acceptSymbol '\x7b').choose ?_ ?_
  · exact parallel_option.enclosed.bind fun _ _ same => parallel_pure same
  · exact (parallel_symbolAt ';').bind fun _ _ _ => parallel_pure .nil

theorem parallel_rpc : Parallel (Declares .rpc) rpc rpc := by
  refine (parallel_keywordAt _).bind fun _ _ _ => ?_
  refine parallel_identifier.bind_eq fun name => ?_
  refine parallel_callMessage.bind_eq fun request => ?_
  refine (parallel_satisfy _ fun _ _ => rfl).discard.bind fun _ _ _ => ?_
  refine parallel_callMessage.bind_eq fun response => ?_
  refine parallel_callOptions.bind fun x x' same => parallel_pure ?_
  obtain ⟨assignments, ho, ho'⟩ := Shows.mapM same
  exact ⟨.rpc name request response assignments, by simp [Declaration.outline?, ho],
    by simp [Declaration.outline?, ho']⟩

theorem parallel_reservedItems :
    Parallel (fun x x' => List.Forall₂ Text.Alike x.1 x'.1 ∧ x.2 = x'.2) reservedItems
      reservedItems := by
  refine (parallel_sees fun _ _ => rfl).choose ?_ ?_
  · refine Parallel.bind_eq (Parallel.separated_eq ',' ?_) fun names => parallel_pure ⟨.nil, rfl⟩
    exact parallel_map_satisfy _ (fun _ _ => rfl) fun _ _ => rfl
  · exact parallel_ranges.bind fun _ _ same => parallel_pure ⟨same, rfl⟩

theorem shows_ranges {ranges ranges' : List String} (h : List.Forall₂ Text.Alike ranges ranges') :
    Shows (List.mapM Text.contents?) ranges ranges' :=
  .mapM (h.imp fun _ _ alike => alike.shows)

theorem parallel_reserved : Parallel (Declares .reserved) reserved reserved := by
  refine (parallel_keywordAt _).bind fun _ _ _ => ?_
  refine parallel_reservedItems.bind fun x x' same => ?_
  refine (parallel_symbolAt ';').bind fun _ _ _ => parallel_pure ?_
  obtain ⟨hranges, hnames⟩ := same
  obtain ⟨contents, hr, hr'⟩ := shows_ranges hranges
  exact ⟨.reserved contents x.2, by simp [Declaration.outline?, hr],
    by simp [Declaration.outline?, hr', hnames]⟩

theorem parallel_extensions : Parallel (Declares .extensions) extensions extensions := by
  refine (parallel_keywordAt _).bind fun _ _ _ => ?_
  refine parallel_ranges.bind fun _ _ same => ?_
  refine parallel_fieldOptions.discard.bind fun _ _ _ => ?_
  refine (parallel_symbolAt ';').bind fun _ _ _ => parallel_pure ?_
  obtain ⟨contents, hr, hr'⟩ := shows_ranges same
  exact ⟨.extensions contents, by simp [Declaration.outline?, hr],
    by simp [Declaration.outline?, hr']⟩

end Parser

end SchemaLint
