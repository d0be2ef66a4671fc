import SchemaLint.Proofs.Layout.Outline
import SchemaLint.Proofs.Layout.Parallel
import SchemaLint.Proofs.Parse.Words

/-!
# Names, constants, options and ranges, however they are laid out

Names are read the same.  What is kept as written has the same tokens.
-/

set_option autoImplicit false
set_option relaxedAutoImplicit false

namespace SchemaLint

namespace Text

variable {s s' t t' : String}

theorem Alike.shows (h : Alike s s') : Shows contents? s s' := by
  obtain ⟨cs, -, hs, hs'⟩ := h
  exact ⟨cs, hs.contents?_eq, hs'.contents?_eq⟩

theorem Alike.append (h : Alike s s') (h' : Alike t t') :
    Alike (s ++ " " ++ t) (s' ++ " " ++ t') := by
  obtain ⟨cs, _, hs, hs'⟩ := h
  obtain ⟨ds, hds, ht, ht'⟩ := h'
  exact ⟨cs ++ ds, by simp [hds], hs.append ht hds, hs'.append ht' hds⟩

theorem alike_of_isIdentifier (word : Scan.isIdentifier s.toList = true) : Alike s s := by
  have hword : Says s [(.identifier, s)] := by
    refine ⟨[⟨[], ⟨.identifier, s, .start ""⟩⟩], [], ?_, ⟨.nil, .identifier word ?_, trivial⟩, rfl⟩
    · simp [Lexeme.chars]
    · simp
  exact ⟨_, List.cons_ne_nil _ _, hword, hword⟩

end Text

namespace Parser

theorem parallel_identifier : Parallel Eq identifier identifier :=
  parallel_map_satisfy _ (fun _ _ => rfl) fun _ _ => rfl

theorem parallel_symbol (c : Char) :
    Parallel (fun t t' => t.content = t'.content) (symbol c) (symbol c) :=
  parallel_satisfy _ fun _ _ => rfl

theorem parallel_dottedName : Parallel Eq dottedName dottedName :=
  (parallel_identifier.separated_eq '.').map fun _ _ names => congrArg _ names

theorem parallel_typeName : Parallel Eq typeName typeName :=
  (parallel_acceptSymbol '.').choose
    (parallel_dottedName.bind_eq fun _ => parallel_pure rfl) parallel_dottedName

theorem parallel_optionPart : Parallel Eq optionPart optionPart := by
  refine (parallel_acceptSymbol '(').choose ?_ parallel_identifier
  exact parallel_typeName.bind_eq fun name =>
    (parallel_symbol ')').discard.bind fun _ _ _ => parallel_pure rfl

theorem parallel_optionName : Parallel Eq optionName optionName :=
  (parallel_optionPart.separated_eq '.').map fun _ _ names => congrArg _ names

theorem parallel_closeBraces (depth : Nat) :
    Parallel Eq (closeBraces depth : Parser Unit) (closeBraces depth) := by
  intro ls ls' same
  induction same generalizing depth with
  | nil => cases depth <;> exact .error .endOfInput
  | @cons l l' ls ls' content _ _ _ _ ih =>
    rw [closeBraces_cons, closeBraces_cons, isSymbol_congr content, isSymbol_congr content]
    split
    · exact (ih _).of_drop (n := 1)
    · split
      · cases depth with
        | zero => exact .ok 1 rfl
        | succ outer => exact (ih _).of_drop (n := 1)
      · exact (ih _).of_drop (n := 1)

theorem parallel_moreStrings : Parallel Eq (moreStrings : Parser Unit) moreStrings := by
  intro ls ls' same
  induction same with
  | nil => exact .ok 0 rfl
  | @cons l l' ls ls' content _ _ _ _ ih =>
    have kind : l.token.kind = l'.token.kind := congrArg Prod.fst content
    simp only [moreStrings, kind]
    split
    · exact ih.of_drop (n := 1)
    · exact .ok 0 rfl

theorem parallel_moreParts : Parallel Eq (moreParts : Parser Unit) moreParts := by
  intro ls ls' same
  induction hlength : ls.length using Nat.strongRecOn generalizing ls ls' with
  | ind n ih =>
    cases same with
    | nil => exact .ok 0 rfl
    | cons hpoint _ _ _ others =>
      cases others with
      | nil => exact .ok 0 rfl
      | @cons part part' ls ls' hpart _ _ _ others =>
        have hkind : part.token.kind = part'.token.kind := congrArg Prod.fst hpart
        have hlt : ls.length < n := by
          simp only [List.length_cons] at hlength
          omega
        simp only [moreParts, isSymbol_congr hpoint, hkind]
        split
        · exact (ih _ hlt ls ls' others rfl).of_drop (n := 2)
        · exact .ok 0 rfl

theorem parallel_plainValue : Parallel Eq plainValue plainValue := by
  refine (parallel_satisfy _ fun _ _ => rfl).bind fun t t' content => ?_
  have kind : t.kind = t'.kind := congrArg Prod.fst content
  rw [kind]
  cases t'.kind with
  | string => exact parallel_moreStrings
  | identifier => exact parallel_moreParts
  | number => exact parallel_pure rfl
  | symbol => exact parallel_pure rfl

theorem parallel_constant : Parallel Text.Alike constant constant := by
  refine Parallel.written (R := Eq) ?_ ?_
  · exact (parallel_acceptSymbol '\x7b').choose (parallel_closeBraces 0)
      ((parallel_accept fun _ _ => rfl).discard.bind fun _ _ _ => parallel_plainValue)
  · exact Progresses.ifAccept (isLocal_closeBraces 0) progresses_plainValue.afterOptional

theorem parallel_fieldOption :
    Parallel (Shows FieldOption.outline?) fieldOption fieldOption := by
  refine parallel_optionName.bind_eq fun name => ?_
  refine (parallel_symbol '=').discard.bind fun _ _ _ => ?_
  refine parallel_constant.bind fun s s' alike => parallel_pure ?_
  obtain ⟨cs, hs, hs'⟩ := alike.shows
  exact ⟨⟨name, cs⟩, by simp [FieldOption.outline?, hs], by simp [FieldOption.outline?, hs']⟩

theorem parallel_fieldOptions :
    Parallel (List.Forall₂ (Shows FieldOption.outline?)) fieldOptions fieldOptions := by
  refine (parallel_acceptSymbol '[').choose ?_ (parallel_pure .nil)
  refine (parallel_fieldOption.separated ',').bind fun options options' same => ?_
  exact (parallel_satisfy _ fun _ _ => rfl).discard.bind fun _ _ _ => parallel_pure same

theorem parallel_signedNumber : Parallel Text.Alike signedNumber signedNumber := by
  refine Parallel.written (R := fun _ _ => True) ?_ ?_
  · exact (parallel_acceptSymbol '-').discard.bind fun _ _ _ =>
      (parallel_satisfy _ fun _ _ => rfl).discard
  · exact (progresses_satisfy _ _).discard.afterOptional

theorem parallel_range : Parallel Text.Alike range range := by
  refine parallel_signedNumber.bind fun low low' hlow => ?_
  have upTo : ∀ high high', Text.Alike high high' →
      Text.Alike (low ++ " to " ++ high) (low' ++ " to " ++ high') := by
    intro high high' hhigh
    have hto := hlow.append (Text.alike_of_isIdentifier (s := "to") (by decide))
    simpa [String.append_assoc] using hto.append hhigh
  have hmax : Text.Alike "max" "max" := Text.alike_of_isIdentifier (by decide)
  refine (parallel_acceptWord "to").choose ?_ (parallel_pure hlow)
  refine (parallel_acceptWord "max").choose ?_ ?_
  · exact (parallel_pure hmax).bind fun high high' hhigh => parallel_pure (upTo high high' hhigh)
  · exact parallel_signedNumber.bind fun high high' hhigh =>
      parallel_pure (upTo high high' hhigh)

theorem parallel_ranges : Parallel (List.Forall₂ Text.Alike) ranges ranges :=
  parallel_range.separated ','

end Parser

end SchemaLint
