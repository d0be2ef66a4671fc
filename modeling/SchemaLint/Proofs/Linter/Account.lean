import Mathlib.Data.List.Pairwise
import SchemaLint.Linter.Files
import SchemaLint.Proofs.Path.Order

/-!
# The report on what became of some files

A report names the files in the order of their paths.  Every file is counted, or it is among the
errors.
-/

set_option autoImplicit false
set_option relaxedAutoImplicit false

namespace SchemaLint

namespace FileOutcome

def failures (o : FileOutcome) : List Failure :=
  match o.result with
  | .ok report => report.failures
  | .error _ => []

def error? (o : FileOutcome) : Option FileError :=
  match o.result with
  | .ok _ => none
  | .error e => some ⟨o.path, e.message⟩

def fixed (o : FileOutcome) : Bool :=
  match o.result with
  | .ok report => report.fixed
  | .error _ => false

end FileOutcome

namespace RunReport

theorem addOutcome_eq (r : RunReport) (o : FileOutcome) : r.addOutcome o =
    ⟨r.failures ++ o.failures, r.errors ++ o.error?.toList,
      r.filesChecked + if o.result.isOk then 1 else 0, r.filesFixed + if o.fixed then 1 else 0⟩ := by
  obtain ⟨path, result⟩ := o
  cases result with
  | error e => simp [addOutcome, addError, FileOutcome.failures, FileOutcome.error?,
      FileOutcome.fixed, Except.isOk, Except.toBool]
  | ok report =>
    cases hfixed : report.fixed <;>
      simp [addOutcome, addReport, FileOutcome.failures, FileOutcome.error?, FileOutcome.fixed,
        Except.isOk, Except.toBool, hfixed]

theorem foldl_addOutcome (r : RunReport) (os : List FileOutcome) :
    os.foldl addOutcome r = ⟨r.failures ++ os.flatMap FileOutcome.failures,
      r.errors ++ os.filterMap FileOutcome.error?, r.filesChecked + os.countP (·.result.isOk),
      r.filesFixed + os.countP FileOutcome.fixed⟩ := by
  induction os generalizing r with
  | nil => simp
  | cons o os ih =>
    have herrors : (o :: os).filterMap FileOutcome.error? =
        o.error?.toList ++ os.filterMap FileOutcome.error? := by
      cases h : o.error? <;> simp [h]
    rw [List.foldl_cons, ih, addOutcome_eq, herrors, List.flatMap_cons, List.countP_cons,
      List.countP_cons, List.append_assoc, List.append_assoc, Nat.add_assoc, Nat.add_assoc,
      Nat.add_comm (os.countP _), Nat.add_comm (os.countP _)]

variable {os os' : List FileOutcome}

def sorted (os : List FileOutcome) : List FileOutcome :=
  os.mergeSort FileOutcome.le

theorem sorted_perm (os : List FileOutcome) : (sorted os).Perm os :=
  List.mergeSort_perm os FileOutcome.le

theorem pairwise_sorted (os : List FileOutcome) :
    (sorted os).Pairwise fun a b => Path.le a.path b.path = true :=
  @List.pairwise_mergeSort _ FileOutcome.le
    (fun a b c h h' => @Path.le_trans a.path b.path c.path h h')
    (fun a b => Path.le_total a.path b.path) os

theorem ofOutcomes_eq (os : List FileOutcome) : ofOutcomes os =
    ⟨(sorted os).flatMap FileOutcome.failures, (sorted os).filterMap FileOutcome.error?,
      os.countP (·.result.isOk), os.countP FileOutcome.fixed⟩ := by
  have hperm := sorted_perm os
  unfold ofOutcomes
  show (sorted os).foldl addOutcome empty = _
  rw [foldl_addOutcome, hperm.countP_eq, hperm.countP_eq]
  simp [empty]

theorem filesChecked_add_errors (os : List FileOutcome) :
    (ofOutcomes os).filesChecked + (ofOutcomes os).errors.length = os.length := by
  have herrors : ∀ os : List FileOutcome, (os.filterMap FileOutcome.error?).length =
      os.countP fun o => !o.result.isOk := by
    intro os
    induction os with
    | nil => rfl
    | cons o os ih =>
      obtain ⟨path, result⟩ := o
      cases result <;>
        simp [List.filterMap_cons, FileOutcome.error?, Except.isOk, Except.toBool, ih]
  rw [ofOutcomes_eq]
  simp only
  rw [herrors, (sorted_perm os).countP_eq, List.countP_eq_length_filter,
    List.countP_eq_length_filter, ← List.length_append]
  exact (List.filter_append_perm _ os).length_eq

theorem ofOutcomes_perm (perm : os.Perm os')
    (apart : os.Pairwise fun a b => Path.isSame a.path b.path = false) :
    ofOutcomes os = ofOutcomes os' := by
  have : Std.Symm fun a b : FileOutcome => Path.isSame a.path b.path = false := by
    refine ⟨fun a b h => ?_⟩
    unfold Path.isSame at h ⊢
    simpa [eq_comm] using h
  have hsorted : sorted os = sorted os' := by
    have hperm : (sorted os).Perm (sorted os') :=
      (sorted_perm os).trans (perm.trans (sorted_perm os').symm)
    refine hperm.eq_of_pairwise (fun a b ha hb h h' => ?_) (pairwise_sorted os) (pairwise_sorted os')
    by_contra hne
    have hmem := (sorted_perm os).mem_iff.1 ha
    have hmem' := perm.mem_iff.2 ((sorted_perm os').mem_iff.1 hb)
    have hdiffers := apart.forall hmem hmem' hne
    rw [Path.isSame_of_le h h'] at hdiffers
    cases hdiffers
  rw [ofOutcomes_eq, ofOutcomes_eq, hsorted, perm.countP_eq, perm.countP_eq]

end RunReport

end SchemaLint
