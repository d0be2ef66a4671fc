import SchemaLint.Linter
import SchemaLint.Proofs.Outcome

/-!
# The stages of fixing a file

Fixing a file either proposes no edit and ends early, or passes every stage.  What holds in each
case is said here once, so that no later proof has to open `Linter.fix`.
-/

set_option autoImplicit false
set_option relaxedAutoImplicit false

namespace SchemaLint

namespace Linter

/-- Whether a failure counts: no directive of the text allows it. -/
def stands (x : Linter) (text : String) (f : Failure) : Bool :=
  !(x.allowances text).allows f

/-- The first three stages: the findings that count, and what their rules make of them. -/
structure Proposes (x : Linter) (file : SchemaFile) (source : String) (found : List Finding)
    (proposals : List Proposal) : Prop where
  dispatched : dispatch x.rules file = .ok found
  asked : (found.filter (x.stands source ·.failure)).mapM
    (Proposal.ofFinding ⟨file.filename, source.toList⟩) = .ok proposals

/-- The last stages: the new text, read and checked again. -/
structure Applies (x : Linter) (reader : SchemaReader) (file : SchemaFile) (source : String)
    (proposals : List Proposal) (text : List Char) (newFile : SchemaFile)
    (reported : List Failure) : Prop where
  applied : Edit.applyAll source.toList (Proposal.edits proposals) = .ok text
  reread : reader file.filename (String.ofList text) = .ok newFile
  rechecked : failuresOf x.rules newFile = .ok reported
  verified : verify proposals (reported.filter (x.stands (String.ofList text))) = .ok ()

variable {x : Linter} {reader : SchemaReader} {file : SchemaFile} {source : String}
  {o : FixOutcome}

/-- Fixing a file gives an outcome in two ways: without an edit it is the findings that count, and
with edits it is what counts of the failures in the new text. -/
theorem fix_eq_ok_iff : x.fix reader file source = .ok o ↔
    ∃ found proposals, x.Proposes file source found proposals ∧
      ((Proposal.edits proposals = [] ∧
          o = ⟨source, x.overrideSeverities
            ((found.filter (x.stands source ·.failure)).map Finding.failure), 0⟩) ∨
        (Proposal.edits proposals ≠ [] ∧ ∃ text newFile reported,
          x.Applies reader file source proposals text newFile reported ∧
          o = ⟨String.ofList text,
            x.overrideSeverities (reported.filter (x.stands (String.ofList text))),
            (Proposal.edits proposals).eraseDups.length⟩)) := by
  constructor
  · intro h
    unfold fix at h
    obtain ⟨found, hfound, h⟩ := bind_eq_ok_iff.1 h
    obtain ⟨proposals, hproposals, h⟩ := bind_eq_ok_iff.1 h
    refine ⟨found, proposals, ⟨hfound, hproposals⟩, ?_⟩
    dsimp only at h
    split at h
    · rename_i hnone
      have he : _ = o := Except.ok.inj h
      exact .inl ⟨List.isEmpty_iff.1 hnone, he.symm⟩
    · rename_i hsome
      obtain ⟨text, htext, h⟩ := bind_eq_ok_iff.1 h
      obtain ⟨newFile, hnew, h⟩ := bind_eq_ok_iff.1 h
      obtain ⟨reported, hreported, h⟩ := bind_eq_ok_iff.1 h
      obtain ⟨⟨⟩, hverified, h⟩ := bind_eq_ok_iff.1 h
      have he : _ = o := Except.ok.inj h
      exact .inr ⟨fun e => hsome (by rw [e]; rfl), text, newFile, reported,
        ⟨mapError_eq_ok_iff.1 htext, mapError_eq_ok_iff.1 hnew, hreported, hverified⟩, he.symm⟩
  · rintro ⟨found, proposals, ⟨hfound, hasked⟩, ⟨hnone, rfl⟩ | ⟨hsome, text, newFile, reported,
      ⟨happlied, hreread, hrechecked, hverified⟩, rfl⟩⟩
    · unfold fix
      refine bind_eq_ok_iff.2 ⟨found, hfound, bind_eq_ok_iff.2 ⟨proposals, hasked, ?_⟩⟩
      rw [hnone]
      rfl
    · unfold fix
      refine bind_eq_ok_iff.2 ⟨found, hfound, bind_eq_ok_iff.2 ⟨proposals, hasked, ?_⟩⟩
      rw [if_neg (by simpa using hsome)]
      refine bind_eq_ok_iff.2 ⟨text, mapError_eq_ok_iff.2 happlied, ?_⟩
      refine bind_eq_ok_iff.2 ⟨newFile, mapError_eq_ok_iff.2 hreread, ?_⟩
      exact bind_eq_ok_iff.2 ⟨reported, hrechecked, bind_eq_ok_iff.2 ⟨(), hverified, rfl⟩⟩

theorem text_of_unchanged (fixed : x.fix reader file source = .ok o)
    (unchanged : o.changed = false) : o.text = source := by
  obtain ⟨found, proposals, -, ⟨-, rfl⟩ | ⟨hsome, text, newFile, reported, -, rfl⟩⟩ :=
    fix_eq_ok_iff.1 fixed
  · rfl
  · obtain ⟨e, es, he⟩ := List.exists_cons_of_ne_nil hsome
    simp [FixOutcome.changed, he, List.eraseDups_cons] at unchanged

theorem failuresOf_eq_ok_iff {rules : List Rule} {fs : List Failure} :
    failuresOf rules file = .ok fs ↔
      ∃ found, dispatch rules file = .ok found ∧ fs = found.map Finding.failure := by
  unfold failuresOf
  rw [bind_eq_ok_iff]
  constructor
  · rintro ⟨found, hfound, h⟩
    exact ⟨found, hfound, (Except.ok.inj h).symm⟩
  · rintro ⟨found, hfound, rfl⟩
    exact ⟨found, hfound, rfl⟩

theorem filter_overrideSeverities (text : String) (fs : List Failure) :
    (x.overrideSeverities fs).filter (x.stands text) =
      x.overrideSeverities (fs.filter (x.stands text)) := by
  unfold overrideSeverities
  rw [List.filter_map]
  rfl

theorem lintSource_of_check {filename : String} {found : List Finding}
    (read : reader filename source = .ok file) (mode : x.fixMode = false)
    (dispatched : dispatch x.rules file = .ok found) :
    x.lintSource reader filename source = .ok ⟨filename, x.overrideSeverities
      ((found.map Finding.failure).filter (x.stands source)), false⟩ := by
  have hcheck : x.check file = .ok (x.overrideSeverities (found.map Finding.failure)) := by
    unfold check
    rw [failuresOf_eq_ok_iff.2 ⟨found, dispatched, rfl⟩]
    rfl
  have hread : (reader filename source).mapError LintError.parse = .ok file :=
    mapError_eq_ok_iff.2 read
  unfold lintSource lintText
  rw [hread, ← filter_overrideSeverities]
  simp only [bind, Except.bind, mode, hcheck]
  rfl

end Linter

end SchemaLint
