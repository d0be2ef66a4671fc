import SchemaLint.Proofs.Linter.Renames

/-!
# What built-in rules propose

Every rule that is asked for an edit answers.  Together the answers are the edits of the pieces that
the fix renames, each of them as often as there are rules that ask for it.
-/

set_option autoImplicit false
set_option relaxedAutoImplicit false

namespace SchemaLint

open Piece (flat)

namespace SchemaFile.ReadFrom

variable {filename : String} {text : List Char} {file : SchemaFile} {ps : List Piece}
  {trail : List Char} {d : Declaration}

theorem mem_owners (h : ReadFrom filename text file ps trail) :
    (∃ run, .name d run ∈ ps) ↔ d ∈ Declaration.preorderAll file.body ∧ d.isNamed = true := by
  rw [← List.mem_filter, ← h.unfolds.owners, List.mem_filterMap]
  constructor
  · rintro ⟨run, hmem⟩
    exact ⟨_, hmem, rfl⟩
  · rintro ⟨piece, hmem, howner⟩
    cases piece with
    | plain l => simp [Piece.owner?] at howner
    | name e run =>
      obtain rfl : e = d := by simpa [Piece.owner?] using howner
      exact ⟨run, hmem⟩

theorem introduced_of_mem (h : ReadFrom filename text file ps trail) {run : List Lexeme}
    (mem : .name d run ∈ ps) : ∃ lead before after, Introduced d before run after ∧
      Lexer.Tiles (Lexer.start filename text) (lead ++ (before ++ run ++ after)) trail := by
  obtain ⟨as, bs, hps⟩ := List.append_of_mem mem
  obtain ⟨lead, before, hlead, hintroduced, -⟩ := h.unfolds.introduced as d run bs hps
  refine ⟨lead, before, flat bs, hintroduced, ?_⟩
  have htiles := h.tiles
  rw [hps, Piece.flat_append, Piece.flat_name, hlead] at htiles
  simpa using htiles

end SchemaFile.ReadFrom

theorem Declaration.isNamed_of_demand? {d : Declaration} {m : Demand} {name : String}
    (demand : d.kind.demand? = some m) (named : d.name? = some name) : d.isNamed = true := by
  have hkind : d.kind ≠ .option := by
    intro he
    simp [he, NodeKind.demand?, NamingPolicy.ofKind?] at demand
  simp [isNamed, hkind, named]

theorem Node.mem_complaints {node : Node} {ruleId : String} {f : Failure} :
    f ∈ node.complaints ruleId ↔ ∃ d m name, node = .declaration d ∧ d.kind.demand? = some m ∧
      d.name? = some name ∧ m.ruleId = ruleId ∧ m.accepts name = false ∧
        f = m.failure d.span.first name := by
  cases node with
  | file file =>
    have hnone : (Node.file file).complaints ruleId = [] := rfl
    simp [hnone]
  | declaration d =>
    have hkind : (Node.declaration d).kind = d.kind := rfl
    have hname : (Node.declaration d).name? = d.name? := rfl
    unfold complaints
    rw [hkind, hname]
    cases hm : d.kind.demand? with
    | none => simp [hm]
    | some m =>
      cases hn : d.name? with
      | none => simp [hn]
      | some name =>
        have hspan : (Node.declaration d).span = d.span := rfl
        simp only [hspan]
        constructor
        · intro h
          split at h
          · rename_i hcond
            simp only [Bool.and_eq_true, decide_eq_true_eq, Bool.not_eq_true'] at hcond
            exact ⟨d, m, name, rfl, hm, hn, hcond.1, hcond.2, by simpa using h⟩
          · simp at h
        · rintro ⟨d', m', name', hnode, hm', hn', hid, hoffends, rfl⟩
          obtain rfl : d = d' := Node.declaration.inj hnode
          obtain rfl : m = m' := Option.some.inj (hm.symm.trans hm')
          obtain rfl : name = name' := Option.some.inj (hn.symm.trans hn')
          simp [hid, hoffends]

namespace Linter

variable {x : Linter} {filename source : String} {file : SchemaFile} {ps : List Piece}
  {trail : List Char} {place : Position → Position} {d : Declaration}

/-- The rule for which a fix renames a declaration. -/
def author (x : Linter) (source : String) (d : Declaration) : Option String :=
  if x.renames source d then d.kind.demand?.map Demand.ruleId else none

theorem rewrite_of_not_renames (h : x.renames source d = false) (name : String) :
    x.rewrite source d name = name := by
  unfold rewrite
  rw [h]
  rfl

theorem rewrite_of_renames {m : Demand} (h : x.renames source d = true)
    (demand : d.kind.demand? = some m) : x.rewrite source d = m.suggestion := by
  funext name
  rw [rewrite, if_pos h, Declaration.suggestion_of_demand? demand]

theorem author_of_renames {m : Demand} (h : x.renames source d = true)
    (demand : d.kind.demand? = some m) : x.author source d = some m.ruleId := by
  rw [author, if_pos h, demand]
  rfl

theorem kept_of_author (h : x.author source d = none) (name : String) :
    x.rewrite source d name = name := by
  refine rewrite_of_not_renames (Bool.eq_false_iff.2 fun hrenames => ?_) name
  obtain ⟨m, -, hm, -⟩ := demand?_of_renames hrenames
  rw [author_of_renames hrenames hm] at h
  simp at h

theorem rewordable (read : SchemaFile.ReadFrom filename source.toList file ps trail) :
    Piece.Rewordable (x.asRenaming source place) ps where
  nonempty d run hmem := by
    obtain ⟨_, _, _, hintroduced, -⟩ := read.introduced_of_mem hmem
    obtain ⟨names, hspells, -⟩ := hintroduced.spells
    exact hspells.ne_nil
  identifiers d run hmem l hl hword := by
    have hold : Scan.isIdentifier l.token.text.toList = true := by
      refine read.tiles.isIdentifier l ?_ hword
      exact List.mem_flatMap.2 ⟨.name d run, hmem, hl⟩
    change Scan.isIdentifier (x.rewrite source d l.token.text).toList = true
    cases hrenames : x.renames source d with
    | false => rwa [rewrite_of_not_renames hrenames]
    | true =>
      obtain ⟨m, name, hm, hname, hfit⟩ := demand?_of_renames hrenames
      rw [rewrite_of_renames hrenames hm]
      have hdemand := hm
      unfold NodeKind.demand? at hdemand
      split at hdemand
      · obtain rfl := Option.some.inj hdemand
        have hlower := Casing.isIdentifier_lower hold
        simpa [Casing.lower, PackageName.demand, PackageName.suggestion, String.toList_map] using hlower
      · obtain ⟨policy, hpolicy, rfl⟩ := Option.map_eq_some_iff.1 hdemand
        obtain ⟨_, _, _, hintroduced, -⟩ := read.introduced_of_mem hmem
        obtain ⟨k, rfl, -⟩ :=
          hintroduced.place.between (NamingPolicy.namePlace?_of_ofKind? hpolicy)
        obtain rfl : l = k := by simpa using hl
        obtain ⟨names, hspells, hspelled⟩ := hintroduced.spells
        have htext : l.token.text = name := by
          rw [hname] at hspelled
          cases hspells with
          | last => simpa using hspelled.symm
        rw [htext]
        exact Casing.isIdentifier_of_isMatch hfit

theorem ofFinding_eq_ok (builtin : x.IsBuiltin)
    (read : SchemaFile.ReadFrom filename source.toList file ps trail) {finding : Finding}
    (found : finding ∈ file.findings x.rules) (counts : x.stands source finding.failure = true) :
    ∃ edit, Proposal.ofFinding ⟨filename, source.toList⟩ finding = .ok ⟨finding, edit⟩ ∧
      (edit = none ∧ (finding.rule.fixes = true → ∀ d, finding.node = .declaration d →
          x.renames source d = false) ∨
        ∃ d m, finding.node = .declaration d ∧ d.kind.demand? = some m ∧
          finding.rule.fixes = true ∧ x.renames source d = true ∧
            (∃ run, .name d run ∈ ps) ∧ ∀ run, .name d run ∈ ps →
              edit = some (.ofRun m.ruleId (x.rewrite source d) run)) := by
  cases hfixes : finding.rule.fixes with
  | false =>
    refine ⟨none, ?_, .inl ⟨rfl, by simp⟩⟩
    simp [Proposal.ofFinding, hfixes]
  | true =>
    obtain ⟨hnode, hrule, hfailure⟩ := mem_findings.1 found
    have hmem := rule_mem_of_mem_findings found
    have hfixable : finding.rule.fixable = true := by
      simp only [Rule.fixes, Bool.and_eq_true] at hfixes
      exact hfixes.2
    rw [Node.reports, if_pos hfixable] at hfailure
    obtain ⟨d, m, name, hd, hm, hname, hid, hoffends, hf⟩ := Node.mem_complaints.1 hfailure
    have hbody : d ∈ Declaration.preorderAll file.body := by
      rw [hd] at hnode
      simpa [SchemaFile.nodes] using hnode
    obtain ⟨run, hrun⟩ := read.mem_owners.2 ⟨hbody, Declaration.isNamed_of_demand? hm hname⟩
    have hfix : ∀ run, .name d run ∈ ps →
        finding.rule.fix ⟨filename, source.toList⟩ finding.node finding.failure =
          .ok (if m.accepts (m.suggestion name) then some (.ofRun m.ruleId m.suggestion run)
            else none) := by
      intro run hrun
      obtain ⟨lead, before, after, hintroduced, htiles⟩ := read.introduced_of_mem hrun
      rw [hd]
      exact (builtin _ hmem).fix_eq_ok hintroduced htiles hm hid.symm hname hoffends _
    by_cases hfit : m.accepts (m.suggestion name) = true
    · have hrenames : x.renames source d = true := by
        rw [hf] at counts
        exact (renames_iff builtin).2
          ⟨m, name, hm, hname, hoffends, hfit, counts, _, hmem, hfixes, hid.symm⟩
      simp only [hfit, if_true] at hfix
      refine ⟨some (.ofRun m.ruleId m.suggestion run), ?_,
        .inr ⟨d, m, hd, hm, rfl, hrenames, ⟨run, hrun⟩, fun run' hrun' => ?_⟩⟩
      · have hown : (Edit.ofRun m.ruleId m.suggestion run).ruleId = finding.rule.id := hid
        simp [Proposal.ofFinding, hfixes, hfix run hrun, hown]
      · have hsame := Except.ok.inj ((hfix run hrun).symm.trans (hfix run' hrun'))
        rw [rewrite_of_renames hrenames hm, hsame]
    · simp only [hfit, Bool.false_eq_true, if_false] at hfix
      refine ⟨none, by simp [Proposal.ofFinding, hfixes, hfix run hrun], .inl ⟨rfl, fun _ e he => ?_⟩⟩
      obtain rfl : d = e := Node.declaration.inj (hd.symm.trans he)
      rw [← Bool.not_eq_true, renames_iff builtin]
      rintro ⟨m', name', hm', hname', -, hfit', -⟩
      obtain rfl : m = m' := Option.some.inj (hm.symm.trans hm')
      obtain rfl : name = name' := Option.some.inj (hname.symm.trans hname')
      exact hfit hfit'

def removes (x : Linter) (source : String) (finding : Finding) : Bool :=
  finding.rule.fixes && match finding.node with
    | .file _ => false
    | .declaration d => x.renames source d

private theorem exists_finding (builtin : x.IsBuiltin)
    (body : d ∈ Declaration.preorderAll file.body) (h : x.renames source d = true) :
    ∃ finding ∈ file.findings x.rules, finding.node = .declaration d ∧
      finding.rule.fixes = true ∧ x.stands source finding.failure = true := by
  obtain ⟨m, name, hm, hname, hoffends, -, hstands, rule, hrule, hfixes, hid⟩ :=
    (renames_iff builtin).1 h
  obtain ⟨index, hindex⟩ := List.mem_iff_getElem?.1 hrule
  refine ⟨⟨.declaration d, index, rule, m.failure d.span.first name⟩, ?_, rfl, hfixes, hstands⟩
  have hfixable : rule.fixable = true := by
    simp only [Rule.fixes, Bool.and_eq_true] at hfixes
    exact hfixes.2
  refine mem_findings.2 ⟨?_, List.mem_zipIdx_iff_getElem?.2 hindex, ?_⟩
  · simpa [SchemaFile.nodes] using body
  · rw [Node.reports, if_pos hfixable]
    exact Node.mem_complaints.2 ⟨d, m, name, rfl, hm, hname, hid.symm, hoffends, rfl⟩

/-- The built-in rules have their say, and their edits are those of the pieces that the fix
renames; no edit is made of exactly those findings that stay. -/
theorem exists_proposes (builtin : x.IsBuiltin)
    (read : SchemaFile.ReadFrom filename source.toList file ps trail) :
    ∃ answer : Finding → Option Edit,
      x.Proposes file source (file.findings x.rules)
        (((file.findings x.rules).filter (x.stands source ·.failure)).map fun f => ⟨f, answer f⟩) ∧
      (∀ e, e ∈ Piece.edits (x.author source) (x.asRenaming source place) ps ↔
        ∃ finding ∈ file.findings x.rules, x.stands source finding.failure = true ∧
          answer finding = some e) ∧
      ∀ finding ∈ file.findings x.rules, x.stands source finding.failure = true →
        (answer finding).isNone = !x.removes source finding := by
  have hanswer : ∀ finding, ∃ edit, finding ∈ file.findings x.rules →
      x.stands source finding.failure = true →
        Proposal.ofFinding ⟨filename, source.toList⟩ finding = .ok ⟨finding, edit⟩ ∧
          (edit = none ∧ (finding.rule.fixes = true → ∀ d, finding.node = .declaration d →
              x.renames source d = false) ∨
            ∃ d m, finding.node = .declaration d ∧ d.kind.demand? = some m ∧
              finding.rule.fixes = true ∧ x.renames source d = true ∧
                (∃ run, .name d run ∈ ps) ∧ ∀ run, .name d run ∈ ps →
                  edit = some (.ofRun m.ruleId (x.rewrite source d) run)) := by
    intro finding
    by_cases h : finding ∈ file.findings x.rules ∧ x.stands source finding.failure = true
    · obtain ⟨edit, hedit⟩ := ofFinding_eq_ok builtin read h.1 h.2
      exact ⟨edit, fun _ _ => hedit⟩
    · exact ⟨none, fun hfound hcounts => absurd ⟨hfound, hcounts⟩ h⟩
  choose answer hanswer using hanswer
  refine ⟨answer, ⟨dispatch_eq_ok builtin file, ?_⟩, fun e => ?_, fun finding hfound hcounts => ?_⟩
  · have hfilename : file.filename = filename := by rw [read.whole]
    rw [mapM_eq_ok_iff, List.forall₂_map_right_iff, List.forall₂_same, hfilename]
    intro finding hfinding
    obtain ⟨hfound, hcounts⟩ := List.mem_filter.1 hfinding
    exact (hanswer finding hfound hcounts).1
  · rw [Piece.mem_edits]
    constructor
    · rintro ⟨d, run, ruleId, hmem, hauthor, rfl⟩
      have hrenames : x.renames source d = true := by
        by_contra hnot
        rw [author, if_neg hnot] at hauthor
        simp at hauthor
      have hbody := (read.mem_owners.1 ⟨run, hmem⟩).1
      obtain ⟨finding, hfound, hnode, hfixes, hcounts⟩ := exists_finding builtin hbody hrenames
      refine ⟨finding, hfound, hcounts, ?_⟩
      rcases (hanswer finding hfound hcounts).2 with ⟨-, hnot⟩ | ⟨e, m, he, hm, -, -, -, hall⟩
      · rw [hnot hfixes d hnode] at hrenames
        simp at hrenames
      · obtain rfl : d = e := Node.declaration.inj (hnode.symm.trans he)
        rw [author_of_renames hrenames hm] at hauthor
        obtain rfl := Option.some.inj hauthor
        exact hall run hmem
    · rintro ⟨finding, hfound, hcounts, he⟩
      rcases (hanswer finding hfound hcounts).2 with ⟨hnone, -⟩ |
        ⟨d, m, -, hm, -, hrenames, ⟨run, hrun⟩, hall⟩
      · rw [hnone] at he
        simp at he
      · have hsame := Option.some.inj (he.symm.trans (hall run hrun))
        exact ⟨d, run, m.ruleId, hrun, author_of_renames hrenames hm, hsame⟩
  · rcases (hanswer finding hfound hcounts).2 with ⟨hnone, hnot⟩ |
      ⟨d, m, hd, -, hfixes, hrenames, ⟨run, hrun⟩, hall⟩
    · have hstays : x.removes source finding = false := by
        unfold removes
        cases hfixes : finding.rule.fixes with
        | false => rfl
        | true =>
          cases hnode : finding.node with
          | file f => rfl
          | declaration d => simpa using hnot hfixes d hnode
      rw [hnone, hstays]
      rfl
    · rw [hall run hrun, removes, hfixes, hd]
      simpa using hrenames

end Linter

end SchemaLint
