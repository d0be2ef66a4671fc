import SchemaLint.Proofs.Linter.Builtin

/-!
# A fix changes names and nothing else

The tokens of the new text are those of the old one, with the same blanks and comments between
them; only names are spelled anew.  What a name is changed to is what the failure that led to it
quotes.
-/

set_option autoImplicit false
set_option relaxedAutoImplicit false

namespace SchemaLint

open Piece (flat allRenamed)

/-- Whether a failure quotes a name as the one to write. -/
def Failure.Quotes (f : Failure) (name : String) : Prop :=
  ∃ lead, f.message = lead ++ "like \"" ++ name ++ "\"" ∨
    f.message = lead ++ "like \"" ++ name ++ "\"."

theorem NamingPolicy.quotes_failure (policy : NamingPolicy) (p : Position) (name : String) :
    (policy.failure p name).Quotes (policy.suggestion name) := by
  refine ⟨s!"{policy.label} name \"{name}\" must be {policy.casing.describe} ", .inl ?_⟩
  apply String.toList_injective
  simp [failure, toString]

theorem PackageName.quotes_failure (package : Package) :
    (failure package).Quotes (suggestion package.name) := by
  refine ⟨s!"Package name \"{package.name}\" must not contain any uppercase letter. Consider to change ",
    .inr ?_⟩
  apply String.toList_injective
  simp [failure, toString]

theorem NodeKind.quotes_of_demand? {kind : NodeKind} {m : Demand} (h : kind.demand? = some m)
    (p : Position) (name : String) : (m.failure p name).Quotes (m.suggestion name) := by
  unfold demand? at h
  split at h
  · obtain rfl := Option.some.inj h
    exact PackageName.quotes_failure _
  · obtain ⟨policy, -, rfl⟩ := Option.map_eq_some_iff.1 h
    exact policy.quotes_failure p name

/-- Whether the lexeme at an index is an identifier of the name that a declaration introduces. -/
def Declaration.NamedAt (d : Declaration) (ls : List Lexeme) (n : Nat) : Prop :=
  ∃ lead before us l vs after, ls = lead ++ (before ++ (us ++ l :: vs) ++ after) ∧
    n = (lead ++ before ++ us).length ∧ l.token.kind = .identifier ∧
      Introduced d before (us ++ l :: vs) after

namespace Linter

variable {x : Linter} {filename source : String} {file : SchemaFile} {ps : List Piece}
  {trail : List Char}

/-- How the lexemes of a file and of the text that a fix has made of it correspond. -/
structure Respells (x : Linter) (source : String) (file : SchemaFile) (ls ls' : List Lexeme) :
    Prop where
  alike : List.Forall₂ (fun l l' => l'.gap = l.gap ∧ l'.token.kind = l.token.kind) ls ls'
  named : ∀ n l l', ls[n]? = some l → ls'[n]? = some l' → l'.token.text ≠ l.token.text →
    ∃ d ∈ Declaration.preorderAll file.body, x.renames source d = true ∧ d.NamedAt ls n

theorem respells_fixing (read : SchemaFile.ReadFrom filename source.toList file ps trail) :
    x.Respells source file (flat ps) (allRenamed (x.fixing source ps) ps) where
  alike := (rewordable (x := x) read).rewords.imp fun l l' h => ⟨h.gap, h.kind⟩
  named := by
    intro n l l' hl hl' hdiffers
    obtain ⟨as, d, run, bs, us, vs, hps, rfl, htake, hword, htext⟩ :=
      Piece.exists_name (x.fixing source ps) hl hl' hdiffers
    have hmem : Piece.name d (us ++ l :: vs) ∈ ps := by
      rw [hps]
      simp
    obtain ⟨lead, before, hlead, hintroduced, -⟩ := read.unfolds.introduced as d _ bs hps
    refine ⟨d, (read.mem_owners.1 ⟨_, hmem⟩).1, ?_, lead, before, us, l, vs, flat bs, ?_, ?_, hword,
      hintroduced⟩
    · rw [← Bool.not_eq_false]
      intro hkept
      apply hdiffers
      rw [htext]
      exact rewrite_of_not_renames hkept l.token.text
    · rw [hps, Piece.flat_append, Piece.flat_name, hlead]
      simp only [List.append_assoc]
    · obtain ⟨hn, -⟩ := List.getElem?_eq_some_iff.1 hl
      rw [← hlead, ← htake, List.length_take]
      omega

theorem quotes_of_renames (builtin : x.IsBuiltin) {d : Declaration}
    (renames : x.renames source d = true) :
    ∃ name, d.name? = some name ∧ ∀ rule ∈ x.rules, rule.fixable = true →
      ∀ index found, Dispatch.consult (.declaration d) index rule = .ok found →
        ∀ finding ∈ found, finding.failure.Quotes (x.rewrite source d name) := by
  obtain ⟨m, name, hm, hname, -⟩ := demand?_of_renames renames
  refine ⟨name, hname, ?_⟩
  intro rule hrule hfixable index found hfound finding hfinding
  rw [consult_eq_ok (builtin rule hrule), Node.reports, if_pos hfixable] at hfound
  obtain rfl := Except.ok.inj hfound
  obtain ⟨f, hf, rfl⟩ := List.mem_map.1 hfinding
  obtain ⟨d', m', name', hd, hm', hname', -, -, rfl⟩ := Node.mem_complaints.1 hf
  obtain rfl : d = d' := Node.declaration.inj hd
  obtain rfl : m = m' := Option.some.inj (hm.symm.trans hm')
  obtain rfl : name = name' := Option.some.inj (hname.symm.trans hname')
  rw [rewrite_of_renames renames hm]
  exact NodeKind.quotes_of_demand? hm _ _

/-- A fix with built-in rules writes the same tokens with the same blanks and comments before,
between and behind them, names of declarations that it renames apart.  The new text is read as the
old file with those names changed to what their failures quote, and with every place moved along its
line by what the changes before it take more. -/
theorem fix_changes_names (x : Linter) (builtin : x.IsBuiltin) (filename source : String)
    (file : SchemaFile) (o : FixOutcome) (read : SchemaFile.parse filename source = .ok file)
    (fixed : x.fix SchemaFile.parse file source = .ok o) :
    ∃ ls ls' trail, source.toList = Lexeme.spelled ls ++ trail ∧
      o.text.toList = Lexeme.spelled ls' ++ trail ∧
      (Lexer.start filename source.toList).read = ⟨ls, none⟩ ∧
      (Lexer.start filename o.text.toList).read = ⟨ls', none⟩ ∧
      x.Respells source file ls ls' ∧
      SchemaFile.parse filename o.text =
        .ok ((x.asRenaming source (Change.shift (Change.between ls ls'))).file file) ∧
      (∀ p, (Change.shift (Change.between ls ls') p).line = p.line) ∧
      (∀ d, x.renames source d = true → ∃ name, d.name? = some name ∧
        ∀ rule ∈ x.rules, rule.fixable = true → ∀ index found,
          Dispatch.consult (.declaration d) index rule = .ok found →
            ∀ finding ∈ found, finding.failure.Quotes (x.rewrite source d name)) ∧
      ∀ p parts, x.renames source (.package p) = true → p.name = ".".intercalate parts →
        x.rewrite source (.package p) p.name =
          ".".intercalate (parts.map fun part => part.map Char.toLower) := by
  obtain ⟨ps, trail, hread⟩ := SchemaFile.readFrom_of_parse read
  obtain ⟨first, hfirst, hfixed⟩ := exists_fixed builtin hread read
  obtain rfl : o = first := Except.ok.inj (fixed.symm.trans hfirst)
  have hplace := place_fixing x source ps
  have hreparsed := parse_fixedText (x := x) hread
  have htiles := (hread.tiles_again (rewordable (x := x) hread) hplace).1
  have htext : o.text.toList = Lexeme.spelled (allRenamed (x.fixing source ps) ps) ++ trail := by
    rw [hfixed.text, fixedText, String.toList_ofList]
  rw [← hfixed.text] at hreparsed
  refine ⟨flat ps, allRenamed (x.fixing source ps) ps, trail, hread.tiles.rest_eq, htext,
    Lexer.read_eq_iff.2 ⟨trail, hread.tiles⟩, ?_, respells_fixing hread, ?_, fun _ => rfl, ?_, ?_⟩
  · rw [htext]
    exact Lexer.read_eq_iff.2 ⟨trail, htiles⟩
  · rw [hreparsed, ← hplace]
    rfl
  · intro d hrenames
    exact quotes_of_renames builtin hrenames
  · intro p parts hrenames hname
    have hdemand : (Declaration.package p).kind.demand? = some PackageName.demand := rfl
    have hrewrite : x.rewrite source (.package p) = PackageName.suggestion :=
      rewrite_of_renames hrenames hdemand
    rw [hrewrite, hname, PackageName.suggestion_intercalate]
    rfl

/-- A field is renamed, next to comments and to a message that stay. -/
theorem fix_changes_names_file :
    let source := "message M \x7b /* a */\n  optional M fA /* b */ = 1; message b \x7b\x7d // c\n\x7d\n"
    let x : Linter := ⟨[NamingPolicy.fields.rule true, NamingPolicy.messages.rule false], true,
      .default⟩
    x.IsBuiltin ∧ ∃ file o, SchemaFile.parse "a.proto" source = .ok file ∧
      x.fix SchemaFile.parse file source = .ok o ∧ o.editsApplied = 1 ∧
      ∃ ls ls' trail, source.toList = Lexeme.spelled ls ++ trail ∧
        o.text.toList = Lexeme.spelled ls' ++ trail ∧ x.Respells source file ls ls' ∧
        SchemaFile.parse "a.proto" o.text =
          .ok ((x.asRenaming source (Change.shift (Change.between ls ls'))).file file) := by
  intro source x
  have hbuiltin : x.IsBuiltin := by
    intro rule hrule
    rcases (by simpa [x] using hrule : rule = _ ∨ rule = _) with rfl | rfl
    · exact NamingPolicy.IsBuiltin.fields.isBuiltin_rule true
    · exact NamingPolicy.IsBuiltin.messages.isBuiltin_rule false
  have hrun : ((SchemaFile.parse "a.proto" source).toOption.bind fun file =>
      (x.fix SchemaFile.parse file source).toOption).map FixOutcome.editsApplied = some 1 := by
    decide +kernel
  obtain ⟨o, ho, hedits⟩ := Option.map_eq_some_iff.1 hrun
  obtain ⟨file, hfile, ho⟩ := Option.bind_eq_some_iff.1 ho
  have hread : SchemaFile.parse "a.proto" source = .ok file := eq_ok_of_toOption hfile
  have hfixed : x.fix SchemaFile.parse file source = .ok o := eq_ok_of_toOption ho
  obtain ⟨ls, ls', trail, hold, hnew, -, -, hrespells, hreparsed, -⟩ :=
    fix_changes_names x hbuiltin "a.proto" source file o hread hfixed
  exact ⟨hbuiltin, file, o, hread, hfixed, hedits, ls, ls', trail, hold, hnew, hrespells, hreparsed⟩

end Linter

end SchemaLint
