import SchemaLint.Config
import SchemaLint.Directive
import SchemaLint.Dispatch
import SchemaLint.Report

/-!
# Linting a file

Checking a file reports its failures.  Fixing it also changes its text: every edit is made against
the text as it was, all are applied in one pass, and the new text is read and checked again, so that
no rule that had its say leaves a failure of its own behind unseen.
-/

set_option autoImplicit false
set_option relaxedAutoImplicit false

namespace SchemaLint

/-- How a file is read: from its name and its text. -/
abbrev SchemaReader := String → String → Except ParseError SchemaFile

structure Linter where
  rules : List Rule
  fixMode : Bool
  config : Config

/-- What fixing a file gives: its text, the failures that remain in it, and the number of different
edits that were applied. -/
structure FixOutcome where
  text : String
  failures : List Failure
  editsApplied : Nat
  deriving DecidableEq, Repr

def FixOutcome.changed (o : FixOutcome) : Bool :=
  0 < o.editsApplied

inductive FixStage
  | parsed | evaluated | editsComputed | applied | reverified
  deriving DecidableEq, Repr

namespace FixStage

def all : List FixStage :=
  [.parsed, .evaluated, .editsComputed, .applied, .reverified]

def render : FixStage → String
  | .parsed => "parsed"
  | .evaluated => "evaluated"
  | .editsComputed => "edits computed"
  | .applied => "applied"
  | .reverified => "reverified"

end FixStage

/-- A finding with the edit that its rule made of it, where it made one. -/
structure Proposal where
  finding : Finding
  edit : Option Edit

namespace Proposal

/-- Ask the finding's rule for an edit, if it is one to be asked. -/
def ofFinding (source : SourceText) (finding : Finding) : Except LintError Proposal :=
  let rule := finding.rule
  if !rule.fixes then .ok ⟨finding, none⟩
  else
    match rule.fix source finding.node finding.failure with
    | .error (.crashed crash) => .error (.ruleFault rule.id (.crashed crash))
    | .error (.notLocated e) => .error (.ruleFault rule.id (.notLocated finding.failure e))
    | .ok none => .ok ⟨finding, none⟩
    | .ok (some edit) =>
      if edit.ruleId = rule.id then .ok ⟨finding, some edit⟩
      else .error (.ruleFault rule.id (.foreignEdit edit.ruleId))

/-- The edits among some proposals. -/
def edits (ps : List Proposal) : List Edit :=
  ps.filterMap Proposal.edit

def fixingIds (ps : List Proposal) : List String :=
  ((ps.filter (·.edit.isSome)).map (·.finding.rule.id)).eraseDups

def tolerated (ps : List Proposal) (ruleId : String) : List String :=
  (ps.filter fun p => p.edit.isNone && p.finding.failure.ruleId = ruleId).map
    (·.finding.failure.message)

end Proposal

namespace Linter

def beyond : List String → List Failure → List Failure
  | _, [] => []
  | messages, f :: fs =>
    if messages.contains f.message then beyond (messages.erase f.message) fs
    else f :: beyond messages fs

def persisting (ps : List Proposal) (remaining : List Failure) (ruleId : String) : List Failure :=
  beyond (Proposal.tolerated ps ruleId) (remaining.filter (·.ruleId = ruleId))

def verify (ps : List Proposal) (remaining : List Failure) : Except LintError Unit :=
  match (Proposal.fixingIds ps).find? fun id => !(persisting ps remaining id).isEmpty with
  | some id => .error (.fixVerification id (persisting ps remaining id))
  | none => .ok ()

/-- The severity of a failure: the one set for its rule's id, else that of the first rule of that
id, else its own. -/
def severityOf (x : Linter) (f : Failure) : Severity :=
  match x.config.ruleSeverity f.ruleId with
  | some severity => severity
  | none =>
    match x.rules.find? (·.id = f.ruleId) with
    | some rule => rule.severity
    | none => f.severity

/-- Give every failure its severity. -/
def overrideSeverities (x : Linter) (fs : List Failure) : List Failure :=
  fs.map fun f => { f with severity := x.severityOf f }

def allowances (x : Linter) (text : String) : Allowances :=
  if x.config.lint.respectDirectives then .scan text else .none

def check (x : Linter) (file : SchemaFile) : Except LintError (List Failure) := do
  return x.overrideSeverities (← failuresOf x.rules file)

/-- Change the text of a file by the edits that the rules make of its failures. -/
def fix (x : Linter) (reader : SchemaReader) (file : SchemaFile) (source : String) :
    Except LintError FixOutcome := do
  let found ← dispatch x.rules file
  let allowances := x.allowances source
  let findings := found.filter fun finding => !allowances.allows finding.failure
  let proposals ← findings.mapM (Proposal.ofFinding ⟨file.filename, source.toList⟩)
  let edits := Proposal.edits proposals
  if edits.isEmpty then
    return ⟨source, x.overrideSeverities (findings.map Finding.failure), 0⟩
  else
    let text ← (Edit.applyAll source.toList edits).mapError LintError.ofEditError
    let newSource := String.ofList text
    let newFile ← (reader file.filename newSource).mapError (.fixReparse file.filename)
    let reported ← failuresOf x.rules newFile
    let newAllowances := x.allowances newSource
    let remaining := reported.filter fun f => !newAllowances.allows f
    verify proposals remaining
    return ⟨newSource, x.overrideSeverities remaining, edits.eraseDups.length⟩

/-- Lint a file's text: the report, and the new text where fixing changed it. -/
def lintText (x : Linter) (reader : SchemaReader) (filename source : String) :
    Except LintError (FileReport × Option String) := do
  let file ← (reader filename source).mapError LintError.parse
  if x.fixMode then
    let outcome ← x.fix reader file source
    let changed := outcome.changed && outcome.text ≠ source
    return (⟨filename, outcome.failures, changed⟩, if changed then some outcome.text else none)
  else
    let failures ← x.check file
    let allowances := x.allowances source
    let kept := failures.filter fun f => !allowances.allows f
    return (⟨filename, kept, false⟩, none)

/-- Lint a file's text and keep the report only. -/
def lintSource (x : Linter) (reader : SchemaReader) (filename source : String) :
    Except LintError FileReport :=
  Prod.fst <$> x.lintText reader filename source

end Linter

end SchemaLint
