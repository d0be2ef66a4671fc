import SchemaLint.Proofs.Linter.Builtin
import SchemaLint.Proofs.Rule.FirstValue
import SchemaLint.Proofs.Span.Place

/-!
# Reports come in document order

Rules are put to nodes in document order, and most failures stand where their node begins.  The rule
on first values is the exception: it looks at an enum and reports at a value in it.  Its reports still
come in order, for it is the last rule asked about the enum, and no rule has anything to say of what
stands in an enum before its first value.
-/

set_option autoImplicit false
set_option relaxedAutoImplicit false

namespace SchemaLint

/-! ### Rules chosen among the built-in ones -/

/-- Rules that are chosen among the built-in ones at one time: by their ids, or by a preset. -/
inductive Rule.Chosen : List Rule → Prop
  | resolved {enabled : List String} {fix : Bool} {rules : List Rule}
      (answer : Registry.builtin.resolve enabled fix = .ok rules) : Chosen rules
  | preset (preset : Preset) (fix : Bool) : Chosen (preset.rules fix)

namespace Rule.Chosen

variable {rules : List Rule}

theorem exists_sublist (h : Chosen rules) : ∃ (entries : List RuleEntry) (fix : Bool),
    entries.Sublist builtinEntries ∧ rules = entries.map (·.build fix) := by
  cases h with
  | @resolved enabled fix _ answer =>
    unfold Registry.resolve at answer
    split at answer
    · cases answer
    · have hbuilt := mapM_eq_ok_iff.1 answer
      have hrules : List.Forall₂ (· = ·)
          ((Registry.builtin.entries.filter fun entry => enabled.contains entry.id).map
            (·.build fix)) rules := by
        refine List.forall₂_map_left_iff.2 (hbuilt.imp fun entry rule h => ?_)
        simp only [Registry.buildEntry] at h
        split at h
        · exact Except.ok.inj h
        · cases h
      rw [List.forall₂_eq_eq_eq] at hrules
      exact ⟨_, fix, List.filter_sublist, hrules.symm⟩
  | preset preset fix => exact ⟨_, fix, List.filter_sublist, rfl⟩

theorem isBuiltin (h : Chosen rules) : ∀ rule ∈ rules, rule.IsBuiltin := by
  obtain ⟨entries, fix, hentries, rfl⟩ := h.exists_sublist
  intro rule hrule
  obtain ⟨entry, hentry, rfl⟩ := List.mem_map.1 hrule
  exact ⟨entry, hentries.subset hentry, fix, rfl⟩

theorem fixable (h : Chosen rules) : rules.Pairwise fun rule _ => rule.fixable = true := by
  obtain ⟨entries, fix, hentries, rfl⟩ := h.exists_sublist
  have hall : builtinEntries.Pairwise fun entry _ => (entry.build fix).fixable = true := by
    cases fix <;> decide
  exact List.pairwise_map.2 (hall.sublist hentries)

end Rule.Chosen

/-! ### Where the failures of a node stand -/

namespace Node

variable {rule : Rule} {d : Declaration} {f : Failure}

theorem place_of_mem_reports (h : f ∈ (Node.declaration d).reports rule) :
    f.position = d.span.first ∨ rule.fixable = false ∧ ∃ name body span v,
      d = .block .enumeration name body span ∧ EnumValue.IsFirst v body ∧
        f.position = v.span.first := by
  unfold reports at h
  split at h
  · obtain ⟨e, m, name, he, hm, -, -, -, rfl⟩ := mem_complaints.1 h
    obtain rfl := Node.declaration.inj he
    exact .inl (NodeKind.failure_of_demand? hm _ _).1
  · rename_i hfixable
    obtain ⟨name, body, span, v, he, hv, hcheck⟩ := FirstValueZero.exists_of_mem_check h
    obtain rfl := Node.declaration.inj he
    obtain rfl : f = FirstValueZero.failure v := List.mem_singleton.1 (hcheck ▸ h)
    exact .inr ⟨by simpa using hfixable, name, body, span, v, rfl, hv, rfl⟩

theorem exists_part_of_mem_reports (h : f ∈ (Node.declaration d).reports rule) :
    ∃ c ∈ d :: d.parts, f.position = c.span.first := by
  obtain hplace | ⟨-, name, body, span, v, rfl, hv, hplace⟩ := place_of_mem_reports h
  · exact ⟨d, by simp, hplace⟩
  · obtain ⟨before, after, rfl, -⟩ := hv
    exact ⟨.enumValue v, by simp [Declaration.parts], hplace⟩

theorem reports_file (rule : Rule) (file : SchemaFile) : (Node.file file).reports rule = [] := by
  unfold reports
  split <;> rfl

theorem length_reports_le (rule : Rule) (node : Node) : (node.reports rule).length ≤ 1 := by
  unfold reports complaints FirstValueZero.check
  repeat' split
  all_goals simp

end Node

/-! ### The order of declarations -/

inductive Declaration.InEnumeration : Declaration → Prop
  | value (v : EnumValue) : InEnumeration (.enumValue v)
  | option (o : OptionStatement) : InEnumeration (.option o)
  | reserved (r : Reserved) : InEnumeration (.reserved r)

theorem Grammar.Body.inEnumeration {scope : Parser.Scope} {ls : List Lexeme}
    {ds : List Declaration} (h : Body scope ls ds) (within : scope = .body .enumeration) :
    ∀ d ∈ ds, d.InEnumeration := by
  induction h with
  | nil => simp
  | skip semicolon others ih => exact ih within
  | statement first others ih =>
    subst within
    refine List.forall_mem_cons.2 ⟨?_, ih rfl⟩
    cases first with
    | option => exact .option _
    | reserved => exact .reserved _
    | enumValue => exact .value _
  | block listed =>
    subst within
    simp [blocks] at listed

structure Declaration.Rising (ds : List Declaration) : Prop where
  starts : (preorderAll ds).Pairwise fun d e => d.span.first.offset < e.span.first.offset
  plain : ∀ name body span, .block .enumeration name body span ∈ preorderAll ds →
    ∀ d ∈ body, InEnumeration d

namespace Declaration

variable {ds body : List Declaration} {d e : Declaration} {rule rule' : Rule} {f g : Failure}

theorem InEnumeration.parts_eq_nil (h : d.InEnumeration) : d.parts = [] := by
  cases h <;> rfl

theorem InEnumeration.reports_eq_nil (h : d.InEnumeration) (no_value : ∀ v, d ≠ .enumValue v) :
    (Node.declaration d).reports rule = [] := by
  unfold Node.reports
  cases h with
  | value v => exact absurd rfl (no_value v)
  | option => split <;> rfl
  | reserved => split <;> rfl

theorem preorderAll_of_inEnumeration (h : ∀ d ∈ body, InEnumeration d) :
    preorderAll body = body := by
  induction body with
  | nil => rfl
  | cons d body ih =>
    obtain ⟨hd, hbody⟩ := List.forall_mem_cons.1 h
    rw [preorderAll_cons, hd.parts_eq_nil, ih hbody]
    rfl

namespace Rising

theorem parts (h : Rising (d :: ds)) : Rising d.parts := by
  obtain ⟨hstarts, hplain⟩ := h
  rw [preorderAll_cons] at hstarts hplain
  have hsub : (preorderAll d.parts).Sublist (d :: (preorderAll d.parts ++ preorderAll ds)) :=
    (List.sublist_append_left _ _).trans (List.sublist_cons_self _ _)
  exact ⟨hstarts.sublist hsub, fun name body span he => hplain name body span (hsub.subset he)⟩

theorem others (h : Rising (d :: ds)) : Rising ds := by
  obtain ⟨hstarts, hplain⟩ := h
  rw [preorderAll_cons] at hstarts hplain
  have hsub : (preorderAll ds).Sublist (d :: (preorderAll d.parts ++ preorderAll ds)) :=
    (List.sublist_append_right _ _).trans (List.sublist_cons_self _ _)
  exact ⟨hstarts.sublist hsub, fun name body span he => hplain name body span (hsub.subset he)⟩

theorem part_lt (h : Rising ds) : ∀ d ∈ preorderAll ds, ∀ c ∈ d.parts,
    d.span.first.offset < c.span.first.offset := by
  induction ds using forest_induction with
  | nil => simp [preorderAll]
  | cons e ds inside others =>
    intro d hd c hc
    have hstarts := h.starts
    rw [preorderAll_cons] at hd hstarts
    rcases List.mem_cons.1 hd with rfl | hd
    · exact (List.pairwise_cons.1 hstarts).1 c (List.mem_append_left _ (mem_preorderAll hc))
    · rcases List.mem_append.1 hd with hd | hd
      · exact inside h.parts d hd c hc
      · exact others h.others d hd c hc

theorem start_le (h : Rising ds) (hd : d ∈ preorderAll ds)
    (mem : f ∈ (Node.declaration d).reports rule) : d.span.first.offset ≤ f.position.offset := by
  obtain ⟨c, hc, hplace⟩ := Node.exists_part_of_mem_reports mem
  rw [hplace]
  rcases List.mem_cons.1 hc with rfl | hc
  · exact Nat.le_refl _
  · exact Nat.le_of_lt (h.part_lt d hd c hc)

/-- The failures of a declaration stand before those of all in it: what stands in an enum before its
first value has none. -/
theorem le_inside (h : Rising (d :: ds)) (mem : f ∈ (Node.declaration d).reports rule)
    (he : e ∈ preorderAll d.parts) (mem' : g ∈ (Node.declaration e).reports rule') :
    f.position.offset ≤ g.position.offset := by
  have hg := h.parts.start_le he mem'
  obtain hplace | ⟨-, name, body, span, v, rfl, hv, hplace⟩ := Node.place_of_mem_reports mem
  · have hstarts := h.starts
    rw [preorderAll_cons] at hstarts
    have hlt := (List.pairwise_cons.1 hstarts).1 e (List.mem_append_left _ he)
    rw [hplace]
    exact Nat.le_trans (Nat.le_of_lt hlt) hg
  · have hplain := h.plain name body span (mem_preorderAll (by simp))
    have hstarts : (preorderAll body).Pairwise fun d e =>
        d.span.first.offset < e.span.first.offset := h.parts.starts
    have he : e ∈ preorderAll body := he
    rw [preorderAll_of_inEnumeration hplain] at he hstarts
    rw [hplace]
    refine Nat.le_trans ?_ hg
    obtain ⟨before, after, rfl, hbefore⟩ := hv
    rcases List.mem_append.1 he with hearly | hlate
    · rw [(hplain e he).reports_eq_nil fun w he => hbefore w (he ▸ hearly)] at mem'
      cases mem'
    · have hafter := (List.pairwise_cons.1 (List.pairwise_append.1 hstarts).2.1).1
      rcases List.mem_cons.1 hlate with rfl | hlate
      · exact Nat.le_refl _
      · exact Nat.le_of_lt (hafter e hlate)

theorem reports (h : Rising ds) : (preorderAll ds).Pairwise fun d e => ∀ rule rule' : Rule,
    ∀ f ∈ (Node.declaration d).reports rule, ∀ g ∈ (Node.declaration e).reports rule',
      f.position.offset ≤ g.position.offset := by
  induction ds using forest_induction with
  | nil => exact .nil
  | cons d ds inside others =>
    have hstarts := h.starts
    rw [preorderAll_cons] at hstarts ⊢
    have hbehind : ∀ c ∈ d :: preorderAll d.parts, ∀ e ∈ preorderAll ds, ∀ rule rule' : Rule,
        ∀ f ∈ (Node.declaration c).reports rule, ∀ g ∈ (Node.declaration e).reports rule',
          f.position.offset ≤ g.position.offset := by
      intro c hc e he rule rule' f hf g hg
      rw [← List.cons_append] at hstarts
      obtain ⟨b, hb, hplace⟩ := Node.exists_part_of_mem_reports hf
      have hmem : b ∈ d :: preorderAll d.parts := by
        rcases List.mem_cons.1 hb with rfl | hb
        · exact hc
        · refine List.mem_cons_of_mem _ ?_
          rcases List.mem_cons.1 hc with rfl | hc
          · exact mem_preorderAll hb
          · exact preorderAll_parts _ c hc b hb
      have hlt := (List.pairwise_append.1 hstarts).2.2 b hmem e he
      rw [hplace]
      exact Nat.le_trans (Nat.le_of_lt hlt) (h.others.start_le he hg)
    refine .cons (fun e he => ?_) (List.pairwise_append.2
      ⟨inside h.parts, others h.others, fun c hc => hbehind c (List.mem_cons_of_mem _ hc)⟩)
    rcases List.mem_append.1 he with he | he
    · exact fun rule rule' f hf g hg => h.le_inside hf he hg
    · exact hbehind d (by simp) e he

end Rising

end Declaration

namespace SchemaFile

variable {filename source : String} {file : SchemaFile} {rules : List Rule}

theorem rising (read : parse filename source = .ok file) : Declaration.Rising file.body := by
  obtain ⟨ls, hread, hstands, -⟩ := exists_stands read
  obtain ⟨after, tiling⟩ := Lexer.exists_tiling hread
  refine ⟨hstands.starts tiling.precedes, fun name body span hmem => ?_⟩
  obtain ⟨-, first, inner, last, -, -, hrun, -⟩ := hstands.exists_run _ hmem
  obtain ⟨scope, hderived⟩ := hrun.derived
  generalize first :: (inner ++ [last]) = row at hderived
  cases hderived with
  | statement statement => cases statement
  | block listed head inside closes => exact inside.inEnumeration rfl

theorem map_failure_findings (file : SchemaFile) (rules : List Rule) :
    (file.findings rules).map Finding.failure =
      file.nodes.flatMap fun node => rules.flatMap node.reports := by
  have hnode : ∀ node : Node, (node.findingsFrom 0 rules).map Finding.failure =
      rules.flatMap node.reports := by
    intro node
    calc (node.findingsFrom 0 rules).map Finding.failure
        = rules.zipIdx.flatMap fun entry => node.reports entry.1 := by
          simp [Node.findingsFrom, List.map_flatMap, Function.comp_def]
      _ = (rules.zipIdx.map Prod.fst).flatMap node.reports := by rw [List.flatMap_map]
      _ = rules.flatMap node.reports := by rw [List.zipIdx_map_fst]
  unfold findings
  rw [List.map_flatMap]
  simp only [hnode]

theorem pairwise_findings (read : parse filename source = .ok file)
    (fixable : rules.Pairwise fun rule _ => rule.fixable = true) :
    ((file.findings rules).map Finding.failure).Pairwise fun f g =>
      f.position.offset ≤ g.position.offset := by
  have hrising := rising read
  rw [map_failure_findings, List.pairwise_flatMap]
  constructor
  · intro node hnode
    rw [List.pairwise_flatMap]
    constructor
    · intro rule _
      have hlength := Node.length_reports_le rule node
      cases hreports : node.reports rule with
      | nil => exact .nil
      | cons f fs =>
        rw [hreports] at hlength
        obtain rfl := List.eq_nil_of_length_eq_zero (Nat.le_zero.1 (Nat.le_of_succ_le_succ hlength))
        exact List.pairwise_singleton _ f
    · refine fixable.imp fun {rule other} hfixable f hf g hg => ?_
      rcases List.mem_cons.1 hnode with rfl | hnode
      · rw [Node.reports_file] at hf
        cases hf
      · obtain ⟨d, hd, rfl⟩ := List.mem_map.1 hnode
        obtain hplace | ⟨hnot, -⟩ := Node.place_of_mem_reports hf
        · rw [hplace]
          exact hrising.start_le hd hg
        · exact absurd (hfixable.symm.trans hnot) (by simp)
  · refine .cons (fun node _ f hf => ?_) (List.pairwise_map.2 (hrising.reports.imp ?_))
    · obtain ⟨rule, -, hf⟩ := List.mem_flatMap.1 hf
      rw [Node.reports_file] at hf
      cases hf
    · intro d e hle f hf g hg
      obtain ⟨rule, -, hf⟩ := List.mem_flatMap.1 hf
      obtain ⟨rule', -, hg⟩ := List.mem_flatMap.1 hg
      exact hle rule rule' f hf g hg

theorem exists_node_of_mem_findings {f : Failure}
    (mem : f ∈ (file.findings rules).map Finding.failure) :
    ∃ node ∈ file.nodes, f.position = node.span.first := by
  rw [map_failure_findings] at mem
  obtain ⟨node, hnode, hf⟩ := List.mem_flatMap.1 mem
  obtain ⟨rule, -, hf⟩ := List.mem_flatMap.1 hf
  rcases List.mem_cons.1 hnode with rfl | hnode
  · rw [Node.reports_file] at hf
    cases hf
  · obtain ⟨d, hd, rfl⟩ := List.mem_map.1 hnode
    obtain ⟨c, hc, hplace⟩ := Node.exists_part_of_mem_reports hf
    refine ⟨.declaration c, List.mem_cons_of_mem _ (List.mem_map_of_mem ?_), hplace⟩
    rcases List.mem_cons.1 hc with rfl | hc
    · exact hd
    · exact Declaration.preorderAll_parts _ d hd c hc

end SchemaFile

/-! ### Reports -/

theorem Text.takeBytes_prefix (cs : List Char) {m n : Nat} (h : m ≤ n) :
    takeBytes cs m <+: takeBytes cs n := by
  fun_induction takeBytes cs m generalizing n with
  | case1 => exact List.nil_prefix
  | case2 => exact List.nil_prefix
  | case3 c cs m ih =>
    obtain ⟨k, rfl⟩ : ∃ k, n = k + 1 := ⟨n - 1, by omega⟩
    exact (List.cons_prefix_cons).2 ⟨rfl, ih (by omega)⟩

theorem Position.IsTrue.line_le {filename source : String} {p q : Position}
    (hp : p.IsTrue filename source) (hq : q.IsTrue filename source) (h : p.offset ≤ q.offset) :
    p.line ≤ q.line := by
  have hcount := (Text.takeBytes_prefix source.toList h).sublist.count_le '\n'
  rw [hp.line_eq, hq.line_eq]
  omega

def Failure.Rising (fs : List Failure) : Prop :=
  fs.Pairwise fun f g => f.position.offset ≤ g.position.offset ∧ f.position.line ≤ g.position.line

namespace Linter

variable {x : Linter} {filename source : String} {file : SchemaFile}

theorem rising_overrideSeverities {fs : List Failure} (h : Failure.Rising fs) (text : String) :
    Failure.Rising (x.overrideSeverities (fs.filter (x.stands text))) :=
  List.pairwise_map.2 (h.sublist List.filter_sublist)

theorem rising_findings (chosen : Rule.Chosen x.rules)
    (read : SchemaFile.parse filename source = .ok file) :
    Failure.Rising ((file.findings x.rules).map Finding.failure) := by
  have htrue : ∀ f ∈ (file.findings x.rules).map Finding.failure,
      f.position.IsTrue filename source := by
    intro f hf
    obtain ⟨node, hnode, hplace⟩ := SchemaFile.exists_node_of_mem_findings hf
    rw [hplace]
    exact (SchemaFile.isTrue_span read node hnode).1
  refine (SchemaFile.pairwise_findings read chosen.fixable).imp_of_mem fun {f g} hf hg hle => ?_
  exact ⟨hle, (htrue f hf).line_le (htrue g hg) hle⟩

theorem lintSource_of_fixed {reader : SchemaReader} {o : FixOutcome}
    (read : reader filename source = .ok file) (mode : x.fixMode = true)
    (fixed : x.fix reader file source = .ok o) :
    ∃ changed, x.lintSource reader filename source = .ok ⟨filename, o.failures, changed⟩ := by
  have hread : (reader filename source).mapError LintError.parse = .ok file :=
    mapError_eq_ok_iff.2 read
  refine ⟨o.changed && o.text ≠ source, ?_⟩
  unfold lintSource lintText
  rw [hread]
  simp only [bind, Except.bind, mode, if_true, fixed]
  rfl

/-- Rules chosen among the built-in ones report in document order, whether they are to fix or not, and
whatever directives and settings there are. -/
theorem lintSource_rising (rules : List Rule) (chosen : Rule.Chosen rules) (fixMode : Bool)
    (config : Config) (filename source : String) (file : SchemaFile)
    (read : SchemaFile.parse filename source = .ok file) :
    ∃ report, (⟨rules, fixMode, config⟩ : Linter).lintSource SchemaFile.parse filename source =
        .ok report ∧
      report.failures.Pairwise fun f g =>
        f.position.offset ≤ g.position.offset ∧ f.position.line ≤ g.position.line := by
  generalize hx : (⟨rules, fixMode, config⟩ : Linter) = x
  have hchosen : Rule.Chosen x.rules := by rwa [← hx]
  have hbuiltin : x.IsBuiltin := hchosen.isBuiltin
  cases hmode : x.fixMode with
  | false =>
    exact ⟨_, lintSource_of_check read hmode (dispatch_eq_ok hbuiltin file),
      rising_overrideSeverities (rising_findings hchosen read) source⟩
  | true =>
    obtain ⟨ps, trail, hread⟩ := SchemaFile.readFrom_of_parse read
    obtain ⟨o, hfix, hfixed⟩ := exists_fixed hbuiltin hread read
    obtain ⟨changed, hreport⟩ := lintSource_of_fixed read hmode hfix
    have hreparsed := parse_fixedText (x := x) hread
    rw [← hfixed.text] at hreparsed
    refine ⟨_, hreport, ?_⟩
    show Failure.Rising o.failures
    rw [hfixed.failures]
    exact rising_overrideSeverities (rising_findings hchosen hreparsed) o.text

/-- An enum that is misnamed and does not begin with zero: its second failure stands at its value,
behind an option, together with the failure of the value itself.  Fixing leaves all but the first,
as the names of the value and of a message would begin with digits. -/
theorem lintSource_rising_enum :
    let source := "enum e \x7b option o = 1; _1a = 1; \x7d\nmessage _1_m \x7b\x7d"
    ∃ file, SchemaFile.parse "a.proto" source = .ok file ∧
      ∀ run ∈ [(false, [0, 23, 23, 34]), (true, [23, 23, 34])],
        Rule.Chosen (Preset.all.rules run.1) ∧
        ∃ report, (⟨Preset.all.rules run.1, run.1, .default⟩ : Linter).lintSource SchemaFile.parse
            "a.proto" source = .ok report ∧
          report.failures.map (·.position.offset) = run.2 ∧
          report.failures.Pairwise fun f g =>
            f.position.offset ≤ g.position.offset ∧ f.position.line ≤ g.position.line := by
  intro source
  have hread : (SchemaFile.parse "a.proto" source).toOption.isSome = true := by decide +kernel
  obtain ⟨file, hfile⟩ := Option.isSome_iff_exists.1 hread
  have read := eq_ok_of_toOption hfile
  have hoffsets : ∀ run ∈ [(false, [0, 23, 23, 34]), (true, [23, 23, 34])],
      ((⟨Preset.all.rules run.1, run.1, .default⟩ : Linter).lintSource SchemaFile.parse "a.proto"
        source).toOption.map (·.failures.map (·.position.offset)) = some run.2 := by
    decide +kernel
  refine ⟨file, read, fun run hrun => ?_⟩
  have hplaces := hoffsets run hrun
  have hchosen : Rule.Chosen (Preset.all.rules run.1) := .preset .all run.1
  obtain ⟨report, hreport, hrising⟩ :=
    lintSource_rising (Preset.all.rules run.1) hchosen run.1 .default "a.proto" source file read
  rw [hreport] at hplaces
  exact ⟨hchosen, report, hreport, Option.some.inj hplaces, hrising⟩

end Linter

end SchemaLint
