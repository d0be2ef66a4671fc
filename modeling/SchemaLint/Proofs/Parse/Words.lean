import SchemaLint.Parse.Words
import SchemaLint.Proofs.Parse.Basic

/-!
# Names, constants, options and ranges elsewhere

Every part of a statement is read in the same way wherever it stands, before anything that does not
prolong it.
-/

set_option autoImplicit false
set_option relaxedAutoImplicit false

namespace SchemaLint.Parser

def endsName (t : Token) : Bool :=
  !t.isSymbol '.'

def endsConstant (t : Token) : Bool :=
  t.kind ≠ .string && !t.isSymbol '.'

def endsRange (t : Token) : Bool :=
  !t.isWord "to" && !t.isSymbol ','

theorem isLocal_identifier : IsLocal identifier fun _ => true :=
  isLocal_map_satisfy "identifier" (fun _ _ => rfl) fun _ _ => rfl

theorem progresses_identifier : Progresses identifier :=
  (progresses_satisfy "identifier" _).map _

theorem isLocal_discard_symbol (c : Char) :
    IsLocal (discard (symbol c) : Parser Unit) fun _ => true :=
  isLocal_discard_satisfy _ fun _ _ => rfl

theorem starts_discard_symbol {c : Char} {test : Token → Bool}
    (h : ∀ t, t.isSymbol c = true → test t = true) :
    Starts (discard (symbol c) : Parser Unit) test :=
  (starts_satisfy h).discard

theorem isSymbol_of_ne {t : Token} {c d : Char} (h : t.isSymbol c = true) (ne : c ≠ d) :
    t.isSymbol d = false := by
  simp_all [Token.isSymbol]

theorem isWord_of_isSymbol {t : Token} {c : Char} (h : t.isSymbol c = true) (word : String) :
    t.isWord word = false := by
  simp_all [Token.isSymbol, Token.isWord]

theorem isSymbol_of_isWord {t : Token} {word : String} (h : t.isWord word = true) (c : Char) :
    t.isSymbol c = false := by
  simp_all [Token.isSymbol, Token.isWord]

theorem isLocal_dottedName : IsLocal dottedName endsName :=
  ((isLocal_identifier.separated fun _ _ => rfl).map _).weaken fun _ h => by simpa [endsName] using h

theorem progresses_dottedName : Progresses dottedName :=
  progresses_identifier.separated.map _

theorem isLocal_typeName : IsLocal typeName endsName :=
  IsLocal.ifAccept (fun _ _ => rfl)
    (isLocal_dottedName.map ("." ++ ·))
    isLocal_dottedName (.inl progresses_dottedName)

theorem progresses_typeName : Progresses typeName :=
  Progresses.ifAccept (isLocal_dottedName.map ("." ++ ·)) progresses_dottedName

private theorem isLocal_extension : IsLocal (typeName >>= fun name =>
    discard (symbol ')') >>= fun _ => pure ("(" ++ name ++ ")")) fun _ => true := by
  refine isLocal_typeName.bind (fun name => (isLocal_discard_symbol ')').bind_pure _) fun name => ?_
  refine (starts_discard_symbol fun t ht => ?_).bind _
  simp [endsName, isSymbol_of_ne ht]

theorem isLocal_optionPart : IsLocal optionPart fun _ => true :=
  isLocal_extension.ifAccept (fun _ _ => rfl) isLocal_identifier (.inl progresses_identifier)

theorem isLocal_optionName : IsLocal optionName endsName :=
  ((isLocal_optionPart.separated fun _ _ => rfl).map _).weaken fun _ h => by simpa [endsName] using h

theorem closeBraces_cons (depth : Nat) (l : Lexeme) (ls : List Lexeme) :
    closeBraces depth (l :: ls) =
      if l.token.isSymbol '\x7b' then closeBraces (depth + 1) ls
      else if l.token.isSymbol '\x7d' then
        match depth with
        | 0 => .ok ((), ls)
        | outer + 1 => closeBraces outer ls
      else closeBraces depth ls := by
  cases depth <;> rfl

theorem isLocal_closeBraces (depth : Nat) : IsLocal (closeBraces depth) fun _ => true := by
  intro ls u rest he
  induction ls generalizing depth with
  | nil => cases depth <;> simp [closeBraces] at he
  | cons l ls ih =>
    have further : ∀ depth', closeBraces depth' ls = .ok (u, rest) →
        (∀ l' : Lexeme, (∀ c, l'.token.isSymbol c = l.token.isSymbol c) → ∀ tail,
          closeBraces depth (l' :: tail) = closeBraces depth' tail) →
        ∃ used, l :: ls = used ++ rest ∧
          Reads (closeBraces depth) (fun _ => true) used u := by
      intro depth' hrest hstep
      obtain ⟨used, rfl, hread⟩ := ih depth' hrest
      refine ⟨l :: used, rfl, fun place rest ahead => ?_⟩
      rw [List.map_cons, List.cons_append, hstep (l.move place) fun _ => rfl]
      exact hread place rest ahead
    rw [closeBraces_cons] at he
    split at he
    · rename_i hopen
      exact further _ he fun l' hl' tail => by rw [closeBraces_cons, hl', if_pos hopen]
    · rename_i hopen
      split at he
      · rename_i hclose
        split at he
        · obtain ⟨rfl, rfl⟩ := Prod.mk.inj (Except.ok.inj he)
          refine ⟨[l], rfl, fun place rest ahead => ?_⟩
          rw [List.map_cons, List.cons_append, closeBraces_cons, Lexeme.move_isSymbol,
            Lexeme.move_isSymbol, if_neg hopen, if_pos hclose]
          rfl
        · exact further _ he fun l' hl' tail => by
            rw [closeBraces_cons, hl', hl', if_neg hopen, if_pos hclose]
      · rename_i hclose
        exact further _ he fun l' hl' tail => by
          rw [closeBraces_cons, hl', hl', if_neg hopen, if_neg hclose]

theorem isLocal_moreStrings : IsLocal moreStrings fun t => t.kind ≠ .string := by
  intro ls u rest he
  have done : ∀ rest, Ahead (fun t => t.kind ≠ .string) rest →
      moreStrings rest = .ok ((), rest) := by
    intro rest ahead
    cases rest with
    | nil => rfl
    | cons l rest => exact if_neg (by simpa using ahead)
  fun_induction moreStrings ls with
  | case1 =>
    obtain ⟨rfl, rfl⟩ := Prod.mk.inj (Except.ok.inj he)
    exact ⟨[], rfl, fun place rest ahead => done rest ahead⟩
  | case2 l ls hstring ih =>
    obtain ⟨used, rfl, hread⟩ := ih he
    refine ⟨l :: used, rfl, fun place rest ahead => ?_⟩
    have step : moreStrings (l.move place :: (used.map (Lexeme.move place) ++ rest)) =
        moreStrings (used.map (Lexeme.move place) ++ rest) := if_pos hstring
    exact step.trans (hread place rest ahead)
  | case3 l ls hstring =>
    obtain ⟨rfl, rfl⟩ := Prod.mk.inj (Except.ok.inj he)
    exact ⟨[], rfl, fun place rest ahead => done rest ahead⟩

theorem isLocal_moreParts : IsLocal moreParts endsName := by
  intro ls u rest he
  have done : ∀ rest, Ahead endsName rest → moreParts rest = .ok ((), rest) := by
    intro rest ahead
    cases rest with
    | nil => rfl
    | cons point rest =>
      cases rest with
      | nil => rfl
      | cons part rest =>
        have hpoint : point.token.isSymbol '.' = false := by simpa [endsName] using ahead
        simp [moreParts, hpoint]
  fun_induction moreParts ls with
  | case1 point part ls hparts ih =>
    obtain ⟨used, rfl, hread⟩ := ih he
    refine ⟨point :: part :: used, rfl, fun place rest ahead => ?_⟩
    have step : moreParts
        (point.move place :: part.move place :: (used.map (Lexeme.move place) ++ rest)) =
        moreParts (used.map (Lexeme.move place) ++ rest) := if_pos hparts
    exact step.trans (hread place rest ahead)
  | case2 point part ls hparts =>
    obtain ⟨rfl, rfl⟩ := Prod.mk.inj (Except.ok.inj he)
    exact ⟨[], rfl, fun place rest ahead => done rest ahead⟩
  | case3 ls hshort =>
    obtain ⟨rfl, rfl⟩ := Prod.mk.inj (Except.ok.inj he)
    exact ⟨[], rfl, fun place rest ahead => done rest ahead⟩

private def afterValue (t : Token) : Parser Unit :=
  match t.kind with
  | .string => moreStrings
  | .identifier => moreParts
  | .number | .symbol => return

private theorem isLocal_afterValue (t : Token) : IsLocal (afterValue t) endsConstant := by
  unfold afterValue
  cases t.kind with
  | string => exact isLocal_moreStrings.weaken fun t ht => by simp_all [endsConstant]
  | identifier => exact isLocal_moreParts.weaken fun t ht => by simp_all [endsConstant, endsName]
  | number => exact (isLocal_pure ()).weaken fun _ _ => rfl
  | symbol => exact (isLocal_pure ()).weaken fun _ _ => rfl

private theorem plainValue_eq :
    plainValue = satisfy "constant" (·.kind ≠ .symbol) >>= afterValue := rfl

theorem isLocal_plainValue : IsLocal plainValue endsConstant :=
  plainValue_eq ▸ IsLocal.satisfy_bind (fun _ _ => rfl) (fun _ _ => rfl) isLocal_afterValue

theorem progresses_plainValue : Progresses plainValue :=
  plainValue_eq ▸ (progresses_satisfy _ _).bind isLocal_afterValue

theorem isLocal_constant : IsLocal constant endsConstant :=
  (((isLocal_closeBraces 0).weaken fun _ _ => rfl).ifAccept (fun _ _ => rfl)
    (isLocal_plainValue.afterOptional (fun _ _ => rfl) progresses_plainValue)
    (.inl progresses_plainValue.afterOptional)).written

theorem isLocal_fieldOption : IsLocal fieldOption endsConstant := by
  refine isLocal_optionName.bind (fun name => ?_) fun name => ?_
  · exact (isLocal_discard_symbol '=').bind_any fun _ => isLocal_constant.bind_pure _
  · refine (starts_discard_symbol fun t ht => ?_).bind _
    simp [endsName, isSymbol_of_ne ht]

theorem isLocal_fieldOptions : IsLocal fieldOptions fun t => !t.isSymbol '[' := by
  have inside : IsLocal (separated ',' fieldOption >>= fun options =>
      discard (satisfy "`,`" (·.isSymbol ']')) >>= fun _ => pure options) fun _ => true := by
    have comma : ∀ t : Token, t.isSymbol ',' = true → endsConstant t = true := by
      intro t ht
      have hkind : t.kind = .symbol := by simp_all [Token.isSymbol]
      simp [endsConstant, hkind, isSymbol_of_ne ht]
    refine (isLocal_fieldOption.separated comma).bind (fun options => ?_) fun options => ?_
    · exact (isLocal_discard_satisfy _ fun _ _ => rfl).bind_pure _
    · refine (starts_satisfy fun t ht => ?_).discard.bind _
      have hkind : t.kind = .symbol := by simp_all [Token.isSymbol]
      simp [endsConstant, hkind, isSymbol_of_ne ht]
  refine (inside.weaken fun _ _ => rfl).ifAccept (fun _ _ => rfl)
    ((isLocal_pure []).weaken fun _ _ => rfl) (.inr fun t ht => by simpa using ht)

theorem fieldOptions_begins {ls rest : List Lexeme} {options : List FieldOption}
    (h : fieldOptions ls = .ok (options, rest)) :
    ls = rest ∨ ∃ l tail, ls = l :: tail ∧ l.token.isSymbol '[' = true := by
  unfold fieldOptions at h
  obtain ⟨b, mid, hb, hafter⟩ := bind_eq_ok_iff.1 h
  rcases accept_eq_ok_iff.1 hb with ⟨rfl, l, rfl, hl⟩ | ⟨rfl, rfl, -⟩
  · exact .inr ⟨l, mid, rfl, hl⟩
  · exact .inl (pure_eq_ok_iff.1 hafter).2

theorem isLocal_signedNumber : IsLocal signedNumber fun _ => true :=
  ((isLocal_discard_satisfy _ fun _ _ => rfl).afterOptional (fun _ _ => rfl)
    (progresses_satisfy _ _).discard).written

theorem progresses_signedNumber : Progresses signedNumber :=
  (progresses_satisfy _ _).discard.afterOptional.written

private def rangeFrom (low : String) : Parser String := do
  if ← accept (·.isWord "to") then
    let high ← if ← accept (·.isWord "max") then pure "max" else signedNumber
    return low ++ " to " ++ high
  else return low

private theorem isLocal_rangeFrom (low : String) :
    IsLocal (rangeFrom low) fun t => !t.isWord "to" := by
  have high : IsLocal (accept (·.isWord "max") >>= fun b =>
      if b = true then pure (low ++ " to " ++ "max") else (low ++ " to " ++ ·) <$> signedNumber)
      fun _ => true :=
    (isLocal_pure _).ifAccept (fun _ _ => rfl) (isLocal_signedNumber.map _)
      (.inl (progresses_signedNumber.map _))
  exact (high.weaken fun _ _ => rfl).ifAccept (fun _ _ => rfl)
    ((isLocal_pure low).weaken fun _ _ => rfl) (.inr fun t ht => by simpa using ht)

private theorem range_eq : range = signedNumber >>= rangeFrom := rfl

theorem isLocal_range : IsLocal range fun t => !t.isWord "to" :=
  range_eq ▸ isLocal_signedNumber.bind_any isLocal_rangeFrom

theorem progresses_range : Progresses range :=
  range_eq ▸ progresses_signedNumber.bind isLocal_rangeFrom

theorem isLocal_ranges : IsLocal ranges endsRange :=
  isLocal_range.separated fun t ht => by simp [isWord_of_isSymbol ht]

end SchemaLint.Parser
