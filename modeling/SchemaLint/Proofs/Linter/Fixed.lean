import SchemaLint.Proofs.Directive.Renamed
import SchemaLint.Proofs.Linter.Proposals

/-!
# What a fix with built-in rules comes to

With built-in rules no stage of a fix fails.  The new text is read as the renamed file, and nothing
in it asks for a fix any more.
-/

set_option autoImplicit false
set_option relaxedAutoImplicit false

namespace SchemaLint

open Piece (flat allRenamed)

theorem Piece.text_allRenamed {r r' : Renaming} (same : r.rewrite = r'.rewrite) (ps : List Piece) :
    (allRenamed r ps).map (·.token.text) = (allRenamed r' ps).map (·.token.text) := by
  have htext : ∀ d l, ((Lexeme.reword (r.rewrite d) l).move r.place).token.text =
      ((Lexeme.reword (r'.rewrite d) l).move r'.place).token.text := by
    intro d l
    rw [same]
    rfl
  induction ps with
  | nil => rfl
  | cons p ps ih =>
    cases p with
    | plain l => simpa using ih
    | name d run =>
      rw [allRenamed_name, allRenamed_name, List.map_append, List.map_append, ih, List.map_map,
        List.map_map]
      congr 1
      apply List.map_congr_left
      intro l hl
      exact htext d l

theorem Change.between_congr {ls ms ms' : List Lexeme}
    (same : ms.map (·.token.text) = ms'.map (·.token.text)) : between ls ms = between ls ms' := by
  have htexts : ∀ ms : List Lexeme, between ls ms =
      List.zipWith (fun l text => ⟨l.token, text⟩) ls (ms.map (·.token.text)) := by
    intro ms
    rw [List.zipWith_map_right]
    rfl
  rw [htexts, htexts, same]

theorem NodeKind.isWordPart_of_demand? {kind : NodeKind} {m : Demand} (h : kind.demand? = some m) :
    ∀ c ∈ m.ruleId.toList, Scan.isWordPart c = true := by
  apply List.all_eq_true.1
  unfold demand? at h
  split at h
  · obtain rfl := Option.some.inj h
    decide +kernel
  · obtain ⟨policy, hpolicy, rfl⟩ := Option.map_eq_some_iff.1 h
    have hbuiltin := NamingPolicy.isBuiltin_of_ofKind? hpolicy
    cases hbuiltin <;> decide +kernel

theorem NodeKind.message_of_demand? {kind : NodeKind} {m : Demand} (h : kind.demand? = some m)
    (p q : Position) (name : String) : (m.failure p name).message = (m.failure q name).message := by
  unfold demand? at h
  split at h
  · obtain rfl := Option.some.inj h
    rfl
  · obtain ⟨policy, -, rfl⟩ := Option.map_eq_some_iff.1 h
    rfl

theorem Allowances.allows_none (f : Failure) : none.allows f = false := by
  have hnone : ∀ line, none.directiveAt line = Option.none := by
    intro line
    cases line <;> rfl
  rw [allows_eq, hnone, hnone]
  rfl

namespace Linter

variable {x : Linter} {filename source : String} {file : SchemaFile} {ps : List Piece}
  {trail : List Char} {d : Declaration}

def changes (x : Linter) (source : String) (ps : List Piece) : List Change :=
  Change.between (flat ps) (allRenamed (x.asRenaming source id) ps)

/-- A fix as a renaming of the file that some pieces spell. -/
def fixing (x : Linter) (source : String) (ps : List Piece) : Renaming :=
  x.asRenaming source (Change.shift (x.changes source ps))

def fixedText (x : Linter) (source : String) (ps : List Piece) (trail : List Char) : String :=
  String.ofList (Lexeme.spelled (allRenamed (x.fixing source ps) ps) ++ trail)

theorem place_fixing (x : Linter) (source : String) (ps : List Piece) :
    (x.fixing source ps).place =
      Change.shift (Change.between (flat ps) (allRenamed (x.fixing source ps) ps)) := by
  have hsame : (x.asRenaming source id).rewrite = (x.fixing source ps).rewrite := rfl
  show Change.shift (x.changes source ps) = _
  rw [changes, Change.between_congr (Piece.text_allRenamed hsame ps)]

theorem parse_fixedText (read : SchemaFile.ReadFrom filename source.toList file ps trail) :
    SchemaFile.parse filename (x.fixedText source ps trail) =
      .ok ((x.fixing source ps).file file) :=
  read.parse_again (rewordable read) (place_fixing x source ps)

theorem edits_eq_nil_iff (read : SchemaFile.ReadFrom filename source.toList file ps trail) :
    Piece.edits (x.author source) (x.fixing source ps) ps = [] ↔
      ∀ d ∈ Declaration.preorderAll file.body, x.renames source d = false := by
  rw [List.eq_nil_iff_forall_not_mem]
  constructor
  · intro hnone d hd
    rw [← Bool.not_eq_true]
    intro hrenames
    obtain ⟨m, name, hm, hname, -⟩ := demand?_of_renames hrenames
    obtain ⟨run, hrun⟩ := read.mem_owners.2 ⟨hd, Declaration.isNamed_of_demand? hm hname⟩
    exact hnone _ (Piece.mem_edits.2 ⟨d, run, _, hrun, author_of_renames hrenames hm, rfl⟩)
  · intro hidle e he
    obtain ⟨d, run, ruleId, hmem, hauthor, -⟩ := Piece.mem_edits.1 he
    have hkept := hidle d (read.mem_owners.1 ⟨run, hmem⟩).1
    simp [author, hkept] at hauthor

theorem fixedText_of_idle (read : SchemaFile.ReadFrom filename source.toList file ps trail)
    (idle : ∀ d ∈ Declaration.preorderAll file.body, x.renames source d = false) :
    x.fixedText source ps trail = source := by
  have hwhole := @Piece.splice_edits (x.author source) (x.fixing source ps) ps (rewordable read)
    (fun _ => kept_of_author) (.start filename) 0 [] trail read.tiles.placed rfl
  rw [(edits_eq_nil_iff read).2 idle] at hwhole
  have hsource : source.toList = Lexeme.spelled (flat ps) ++ trail := read.tiles.rest_eq
  apply String.toList_injective
  rw [fixedText, String.toList_ofList, hsource]
  exact hwhole.symm

theorem stands_fixedText (read : SchemaFile.ReadFrom filename source.toList file ps trail)
    {f f' : Failure} (line : f'.position.line = f.position.line) (ruleId : f'.ruleId = f.ruleId)
    (isId : ∀ c ∈ f.ruleId.toList, Scan.isWordPart c = true) :
    x.stands (x.fixedText source ps trail) f' = x.stands source f := by
  have hcovered : Directive.covered f.ruleId (x.fixedText source ps trail).toList =
      Directive.covered f.ruleId source.toList := by
    rw [fixedText, String.toList_ofList]
    exact read.covered_allRenamed (rewordable read) isId
  have hallows := Allowances.allows_scan_congr line ruleId hcovered
  unfold stands allowances
  split
  · rw [hallows]
  · rw [Allowances.allows_none, Allowances.allows_none]

theorem name?_fixing {m : Demand} {name : String} (demand : d.kind.demand? = some m)
    (named : d.name? = some name) :
    ((x.fixing source ps).declaration d).name? =
      some (if x.renames source d then m.suggestion name else name) := by
  rw [Renaming.name?_declaration, if_pos (Declaration.isNamed_of_demand? demand named), named]
  show some (x.rewrite source d name) = _
  rw [rewrite, Declaration.suggestion_of_demand? demand]

theorem name?_of_offends {m : Demand} {name : String}
    (demand : ((x.fixing source ps).declaration d).kind.demand? = some m)
    (named : ((x.fixing source ps).declaration d).name? = some name)
    (offends : m.accepts name = false) :
    d.kind.demand? = some m ∧ d.name? = some name ∧ x.renames source d = false := by
  rw [Renaming.kind_declaration] at demand
  cases hname : d.name? with
  | none => simp [Renaming.name?_declaration, Declaration.isNamed, hname] at named
  | some old =>
    rw [name?_fixing demand hname] at named
    have hnew := Option.some.inj named
    cases hrenames : x.renames source d with
    | false =>
      rw [hrenames, if_neg (by simp)] at hnew
      exact ⟨demand, by rw [hnew], rfl⟩
    | true =>
      obtain ⟨m', old', hm', hold', haccepts⟩ := demand?_of_renames hrenames
      obtain rfl : m = m' := Option.some.inj (demand.symm.trans hm')
      obtain rfl : old = old' := Option.some.inj (hname.symm.trans hold')
      rw [hrenames, if_pos rfl] at hnew
      rw [hnew, offends] at haccepts
      exact absurd haccepts (by simp)

theorem line_fixing (x : Linter) (source : String) (ps : List Piece) (d : Declaration) :
    ((x.fixing source ps).declaration d).span.first.line = d.span.first.line := by
  rw [Renaming.span_declaration]
  rfl

theorem stands_failure (read : SchemaFile.ReadFrom filename source.toList file ps trail)
    {m : Demand} (demand : d.kind.demand? = some m) (name name' : String) :
    x.stands (x.fixedText source ps trail)
        (m.failure ((x.fixing source ps).declaration d).span.first name') =
      x.stands source (m.failure d.span.first name) := by
  obtain ⟨hplace, hid, -⟩ := NodeKind.failure_of_demand? demand d.span.first name
  obtain ⟨hplace', hid', -⟩ := NodeKind.failure_of_demand? demand
    ((x.fixing source ps).declaration d).span.first name'
  apply stands_fixedText read
  · rw [hplace, hplace', line_fixing]
  · rw [hid, hid']
  · rw [hid]
    exact NodeKind.isWordPart_of_demand? demand

/-- Nothing asks for a fix behind a fix: what was renamed has a name that its rule accepts, and
whatever kept another name from being changed still does. -/
theorem renames_fixing (builtin : x.IsBuiltin)
    (read : SchemaFile.ReadFrom filename source.toList file ps trail) (d : Declaration) :
    x.renames (x.fixedText source ps trail) ((x.fixing source ps).declaration d) = false := by
  rw [← Bool.not_eq_true, renames_iff builtin]
  rintro ⟨m, name, hm, hname, hoffends, hfit, hstands, hrule⟩
  obtain ⟨hdemand, hold, hrenames⟩ := name?_of_offends hm hname hoffends
  rw [stands_failure read hdemand name] at hstands
  have hagain : x.renames source d = true :=
    (renames_iff builtin).2 ⟨m, name, hdemand, hold, hoffends, hfit, hstands, hrule⟩
  rw [hrenames] at hagain
  exact absurd hagain (by simp)

theorem complaint_before (read : SchemaFile.ReadFrom filename source.toList file ps trail)
    {node : Node} {ruleId : String} {f : Failure}
    (complaint : f ∈ ((x.fixing source ps).node node).complaints ruleId)
    (counts : x.stands (x.fixedText source ps trail) f = true) :
    ∃ d m name, node = .declaration d ∧ d.kind.demand? = some m ∧ d.name? = some name ∧
      m.ruleId = ruleId ∧ m.accepts name = false ∧ x.renames source d = false ∧
      x.stands source (m.failure d.span.first name) = true ∧
      f = m.failure ((x.fixing source ps).declaration d).span.first name := by
  obtain ⟨d', m, name, hnode, hm, hname, hid, hoffends, rfl⟩ := Node.mem_complaints.1 complaint
  cases node with
  | file file => simp [Renaming.node] at hnode
  | declaration d =>
    obtain rfl : (x.fixing source ps).declaration d = d' := Node.declaration.inj hnode
    obtain ⟨hdemand, hold, hrenames⟩ := name?_of_offends hm hname hoffends
    rw [stands_failure read hdemand name] at counts
    exact ⟨d, m, name, rfl, hdemand, hold, hid, hoffends, hrenames, counts, rfl⟩

end Linter

end SchemaLint
