import Mathlib.Data.List.Pairwise
import SchemaLint.Proofs.Edit.Arrange
import SchemaLint.Proofs.Text.Cut

/-!
# What applying edits gives

Edits are applied exactly if each fits the text and no two of them overlap.  The text then keeps
whatever lies between them, and it is the text that they give one at a time from the last to the
first.
-/

set_option autoImplicit false
set_option relaxedAutoImplicit false

namespace SchemaLint.Edit

/-- An edit of a text reaches from one place of it to another, and what it takes away it replaces by
something. -/
structure Fits (text : List Char) (e : Edit) : Prop where
  ordered : e.start ≤ e.stop
  within : e.stop ≤ Text.byteLength text
  begins : Text.isPlace text e.start = true
  ends : Text.isPlace text e.stop = true
  inserts : e.replacement = "" → e.start = e.stop

def Disjoint (es : List Edit) : Prop :=
  ∀ a ∈ es, ∀ b ∈ es, a ≠ b → a.overlaps b = false

/-- Edits one behind the other rewrite the text that follows a byte offset: what stands before each
of them is kept, what it reaches over goes, and its replacement comes in its place. -/
inductive Rewrites : Nat → List Edit → List Char → List Char → Prop
  | done (cursor : Nat) (rest : List Char) : Rewrites cursor [] rest rest
  | edit {cursor : Nat} {e : Edit} {es : List Edit} {kept gone rest out : List Char}
      (start : cursor + Text.byteLength kept = e.start)
      (stop : e.start + Text.byteLength gone = e.stop) (later : Rewrites e.stop es rest out) :
      Rewrites cursor (e :: es) (kept ++ (gone ++ rest)) (kept ++ (e.replacement.toList ++ out))

/-- The text from a byte offset on with edits applied, put together from slices of the text.  There
is none if a slice is out of range or splits a character. -/
def assemble? (text : List Char) (cursor : Nat) : List Edit → Option (List Char)
  | [] => Text.slice? text cursor (Text.byteLength text)
  | e :: es => do
    let kept ← Text.slice? text cursor e.start
    let rest ← assemble? text e.stop es
    return kept ++ e.replacement.toList ++ rest

def applyOne? (text : List Char) (e : Edit) : Option (List Char) := do
  let before ← Text.slice? text 0 e.start
  let behind ← Text.slice? text e.stop (Text.byteLength text)
  return before ++ e.replacement.toList ++ behind

/-- The different members of a list of edits, those that start and end last first. -/
structure Descending (es ds : List Edit) : Prop where
  members : ∀ e, e ∈ ds ↔ e ∈ es
  nodup : ds.Nodup
  sorted : ds.Pairwise fun a b => b.start < a.start ∨ b.start = a.start ∧ b.stop ≤ a.stop

variable {text : List Char} {es : List Edit}

theorem misfit?_eq_none_iff {e : Edit} : e.misfit? text = none ↔ e.Fits text := by
  have hempty : e.replacement.isEmpty = true ↔ e.replacement = "" := String.isEmpty_iff
  unfold misfit?
  constructor
  · intro h
    split at h
    · cases h
    · split at h
      · cases h
      · split at h
        · cases h
        · split at h
          · cases h
          · rename_i hordered hwithin hplaces hreplaces
            simp only [Bool.or_eq_true, Bool.not_eq_true', not_or, Bool.not_eq_false] at hplaces
            simp only [Bool.and_eq_true, decide_eq_true_eq, hempty, not_and, not_not] at hreplaces
            exact ⟨by omega, by omega, hplaces.1, hplaces.2, hreplaces⟩
  · intro h
    have hreplaces : ¬(e.replacement.isEmpty && e.start ≠ e.stop) = true := by
      simp only [Bool.and_eq_true, decide_eq_true_eq, hempty, not_and, not_not]
      exact h.inserts
    rw [if_neg (by have := h.ordered; omega), if_neg (by have := h.within; omega), h.begins,
      h.ends, if_neg hreplaces]
    rfl

theorem firstMisfit?_append {as bs : List Edit} {e : Edit} (fits : ∀ a ∈ as, a.Fits text)
    {reason : Misfit} (misfit : e.misfit? text = some reason) :
    firstMisfit? text (as ++ e :: bs) = some (e, reason) := by
  induction as with
  | nil => simp [firstMisfit?, misfit]
  | cons a as ih =>
    have ha := misfit?_eq_none_iff.2 (fits a (by simp))
    rw [List.cons_append, firstMisfit?, ha]
    exact ih fun b hb => fits b (by simp [hb])

theorem firstOverlap?_arrange (ordered : ∀ e ∈ es, e.start ≤ e.stop) :
    firstOverlap? (arrange es) = none ↔ Disjoint es := by
  have hordered : ∀ e ∈ arrange es, e.start ≤ e.stop := fun e he => ordered e (mem_arrange.1 he)
  have hsorted := pairwise_arrange es
  rw [firstOverlap?_eq_none_iff hordered hsorted]
  constructor
  · intro hahead a ha b hb hne
    have hapart : (arrange es).Pairwise fun a b => a.overlaps b = false := by
      refine (hahead.and hsorted).imp_of_mem fun {a b} ha hb h => ?_
      exact (overlaps_eq_false_iff (hordered a ha) (hordered b hb)
        (place_of_key_le (le_of_lt h.2))).2 h.1
    have : Std.Symm fun a b : Edit => a.overlaps b = false := ⟨fun a b h => overlaps_symm.trans h⟩
    exact hapart.forall (mem_arrange.2 ha) (mem_arrange.2 hb) hne
  · intro hdisjoint
    refine hsorted.imp_of_mem fun {a b} ha hb hlt => ?_
    have hne : a ≠ b := by
      rintro rfl
      exact lt_irrefl _ hlt
    exact (overlaps_eq_false_iff (hordered a ha) (hordered b hb)
      (place_of_key_le (le_of_lt hlt))).1
      (hdisjoint a (mem_arrange.1 ha) b (mem_arrange.1 hb) hne)

theorem applyAll_eq_ok_iff {out : List Char} : applyAll text es = .ok out ↔
    (∀ e ∈ es, e.Fits text) ∧ Disjoint es ∧ splice 0 text (arrange es) = out := by
  have hfits : firstMisfit? text es = none ↔ ∀ e ∈ es, e.Fits text := by
    rw [firstMisfit?_eq_none_iff]
    exact forall₂_congr fun e _ => misfit?_eq_none_iff
  unfold applyAll
  cases hfirst : firstMisfit? text es with
  | some found =>
    have hnot : ¬∀ e ∈ es, e.Fits text := by
      rw [← hfits, hfirst]
      exact nofun
    simp [hnot]
  | none =>
    have hall := hfits.1 hfirst
    have hdisjoint := firstOverlap?_arrange fun e he => (hall e he).ordered
    cases hoverlap : firstOverlap? (arrange es) with
    | some found =>
      have hnot : ¬Disjoint es := by
        rw [← hdisjoint, hoverlap]
        exact nofun
      simp [hoverlap, hnot]
    | none =>
      simp only [hoverlap, Except.ok.injEq]
      exact ⟨fun h => ⟨hall, hdisjoint.1 hoverlap, h⟩, fun h => h.2.2⟩

theorem applyAll_congr {fs : List Edit} {out : List Char} (members : ∀ e, e ∈ fs ↔ e ∈ es)
    (applied : applyAll text es = .ok out) : applyAll text fs = .ok out := by
  obtain ⟨hfits, hdisjoint, hsplice⟩ := applyAll_eq_ok_iff.1 applied
  refine applyAll_eq_ok_iff.2 ⟨fun e he => hfits e ((members e).1 he), ?_, ?_⟩
  · intro a ha b hb
    exact hdisjoint a ((members a).1 ha) b ((members b).1 hb)
  · rw [arrange_congr members, hsplice]

theorem rewrites_splice {front rest : List Char} {cursor : Nat}
    (fits : ∀ e ∈ es, e.Fits (front ++ rest)) (ahead : es.Pairwise Ahead)
    (here : Text.byteLength front = cursor) (later : ∀ e ∈ es, cursor ≤ e.start) :
    Rewrites cursor es rest (splice cursor rest es) := by
  induction es generalizing front rest cursor with
  | nil => exact .done cursor rest
  | cons e es ih =>
    have he := fits e (by simp)
    have hlater := later e (by simp)
    subst here
    obtain ⟨kept, rest, rfl, hstart⟩ := Text.exists_append_of_isPlace he.begins hlater
    have hplace := he.ends
    rw [← List.append_assoc] at hplace
    have hordered : Text.byteLength (front ++ kept) ≤ e.stop := by
      have := he.ordered
      rw [Text.byteLength_append]
      omega
    obtain ⟨gone, rest, rfl, hstop⟩ := Text.exists_append_of_isPlace hplace hordered
    rw [Text.byteLength_append, hstart] at hstop
    have hkept : e.start - Text.byteLength front = Text.byteLength kept := by omega
    have hgone : e.stop - Text.byteLength front = Text.byteLength (kept ++ gone) := by
      rw [Text.byteLength_append]
      omega
    have hothers : Rewrites e.stop es rest (splice e.stop rest es) := by
      have htext : front ++ (kept ++ (gone ++ rest)) = front ++ kept ++ gone ++ rest := by simp
      refine @ih (front ++ kept ++ gone) rest e.stop (fun f hf => ?_) ahead.of_cons ?_ fun f hf => ?_
      · rw [← htext]
        exact fits f (by simp [hf])
      · simp only [Text.byteLength_append]
        omega
      · exact ((List.pairwise_cons.1 ahead).1 f hf).stop_le
    rw [splice, hkept, Text.takeBytes_append, hgone, ← List.append_assoc, Text.dropBytes_append,
      List.append_assoc, List.append_assoc]
    exact .edit hstart hstop hothers

theorem Rewrites.assemble? {front rest out : List Char} {cursor : Nat}
    (rewrites : Rewrites cursor es rest out) (here : Text.byteLength front = cursor) :
    Edit.assemble? (front ++ rest) cursor es = some out := by
  induction rewrites generalizing front with
  | done cursor rest =>
    subst here
    simpa [Edit.assemble?] using Text.slice?_append front rest []
  | @edit cursor e es kept gone rest out start stop later ih =>
    subst here
    have hstart : e.start = Text.byteLength (front ++ kept) := by
      rw [Text.byteLength_append]
      omega
    have hstop : Text.byteLength (front ++ kept ++ gone) = e.stop := by
      rw [Text.byteLength_append]
      omega
    have htext : front ++ (kept ++ (gone ++ rest)) = front ++ kept ++ (gone ++ rest) := by simp
    have htext' : front ++ (kept ++ (gone ++ rest)) = front ++ kept ++ gone ++ rest := by simp
    have hkept : Text.slice? (front ++ (kept ++ (gone ++ rest))) (Text.byteLength front) e.start =
        some kept := by
      rw [htext, hstart, Text.slice?_append]
    have hrest := ih hstop
    rw [← htext'] at hrest
    simp [Edit.assemble?, hkept, hrest]

theorem Rewrites.foldlM_reverse {front rest out : List Char} {cursor : Nat}
    (rewrites : Rewrites cursor es rest out) (here : Text.byteLength front = cursor) :
    es.reverse.foldlM applyOne? (front ++ rest) = some (front ++ out) := by
  induction rewrites generalizing front with
  | done cursor rest => rfl
  | @edit cursor e es kept gone rest out start stop later ih =>
    subst here
    have hstart : e.start = Text.byteLength (front ++ kept) := by
      rw [Text.byteLength_append]
      omega
    have hstop : Text.byteLength (front ++ kept ++ gone) = e.stop := by
      rw [Text.byteLength_append]
      omega
    have hbefore : Text.slice? (front ++ kept ++ gone ++ out) 0 e.start = some (front ++ kept) := by
      have h := Text.slice?_append [] (front ++ kept) (gone ++ out)
      rw [hstart]
      simpa [Text.byteLength] using h
    have hbehind : Text.slice? (front ++ kept ++ gone ++ out) e.stop
        (Text.byteLength (front ++ kept ++ gone ++ out)) = some out := by
      have h := Text.slice?_append (front ++ kept ++ gone) out []
      rw [hstop] at h
      simpa using h
    have hothers := ih hstop
    have htext : front ++ (kept ++ (gone ++ rest)) = front ++ kept ++ gone ++ rest := by simp
    rw [htext, List.reverse_cons, List.foldlM_append, hothers]
    show (applyOne? (front ++ kept ++ gone ++ out) e >>= fun t => pure t) = _
    rw [applyOne?, hbefore, hbehind]
    simp

theorem Descending.eq_reverse_arrange {ds : List Edit} (descending : Descending es ds)
    (ordered : ∀ e ∈ es, e.start ≤ e.stop) (disjoint : Disjoint es) : ds = (arrange es).reverse := by
  have hsorted : ds.Pairwise fun a b => b.key < a.key := by
    refine (descending.sorted.and descending.nodup).imp_of_mem fun {a b} ha hb h => ?_
    have ha := (descending.members a).1 ha
    have hb := (descending.members b).1 hb
    have hahead := (overlaps_eq_false_iff (ordered b hb) (ordered a ha) h.1).1
      (disjoint b hb a ha h.2.symm)
    exact hahead.key_lt (ordered b hb)
  have harrange : arrange es = ds.reverse := by
    refine arrange_eq (fun e => ?_) (List.pairwise_reverse.2 hsorted)
    rw [List.mem_reverse]
    exact (descending.members e).symm
  rw [harrange, List.reverse_reverse]

theorem descending_reverse_arrange (es : List Edit) : Descending es (arrange es).reverse where
  members e := by rw [List.mem_reverse, mem_arrange]
  nodup := List.nodup_reverse.2 ((pairwise_arrange es).imp fun h he => by
    rw [he] at h
    exact lt_irrefl _ h)
  sorted := List.pairwise_reverse.2 ((pairwise_arrange es).imp fun h => place_of_key_le (le_of_lt h))

theorem exists_conflict (fits : ∀ e ∈ es, e.Fits text) (overlap : ¬Disjoint es) :
    ∃ a ∈ es, ∃ b ∈ es, a ≠ b ∧ a.overlaps b = true ∧
      ∀ fs : List Edit, (∀ e, e ∈ fs ↔ e ∈ es) → applyAll text fs = .error (.conflict a b) := by
  have hordered : ∀ e ∈ es, e.start ≤ e.stop := fun e he => (fits e he).ordered
  have hfound : firstOverlap? (arrange es) ≠ none := fun h =>
    overlap ((firstOverlap?_arrange hordered).1 h)
  obtain ⟨⟨a, b⟩, hpair⟩ := Option.ne_none_iff_exists'.1 hfound
  obtain ⟨hoverlaps, hsub⟩ := overlaps_of_firstOverlap? hpair
  have hne : a ≠ b := by
    have hlt := (List.pairwise_cons.1 ((pairwise_arrange es).sublist hsub)).1 b (by simp)
    rintro rfl
    exact lt_irrefl _ hlt
  refine ⟨a, mem_arrange.1 (hsub.subset (by simp)), b, mem_arrange.1 (hsub.subset (by simp)), hne,
    hoverlaps, fun fs hfs => ?_⟩
  have hfirst : firstMisfit? text fs = none :=
    firstMisfit?_eq_none_iff.2 fun e he => misfit?_eq_none_iff.2 (fits e ((hfs e).1 he))
  unfold applyAll
  simp only [hfirst, arrange_congr hfs, hpair]

/-- Edits are applied exactly if all of them fit the text and no two different ones overlap.  The
outcome is the text rewritten by them, every slice of which exists, and the text that they give one
at a time from the last to the first; no other order or number of the same edits changes it.
Otherwise the first edit that does not fit is reported, or two that overlap, and these are the same
for every list of the same edits. -/
theorem applyAll_exact (text : List Char) (es : List Edit) :
    ((∃ out, applyAll text es = .ok out) ↔ (∀ e ∈ es, e.Fits text) ∧ Disjoint es) ∧
      (∀ out, applyAll text es = .ok out →
        assemble? text 0 (arrange es) = some out ∧ (∃ ds, Descending es ds) ∧
          (∀ ds, Descending es ds →
            Rewrites 0 ds.reverse text out ∧ ds.foldlM applyOne? text = some out) ∧
          ∀ fs : List Edit, (∀ e, e ∈ fs ↔ e ∈ es) → applyAll text fs = .ok out) ∧
      (∀ as e bs, es = as ++ e :: bs → (∀ a ∈ as, a.Fits text) → ¬e.Fits text →
        ∃ reason, e.misfit? text = some reason ∧
          applyAll text es = .error (.invalid e reason)) ∧
      ((∀ e ∈ es, e.Fits text) → ¬Disjoint es →
        ∃ a ∈ es, ∃ b ∈ es, a ≠ b ∧ a.overlaps b = true ∧
          ∀ fs : List Edit, (∀ e, e ∈ fs ↔ e ∈ es) →
            applyAll text fs = .error (.conflict a b)) := by
  refine ⟨?_, ?_, ?_, exists_conflict⟩
  · constructor
    · rintro ⟨out, hout⟩
      obtain ⟨hfits, hdisjoint, -⟩ := applyAll_eq_ok_iff.1 hout
      exact ⟨hfits, hdisjoint⟩
    · rintro ⟨hfits, hdisjoint⟩
      exact ⟨_, applyAll_eq_ok_iff.2 ⟨hfits, hdisjoint, rfl⟩⟩
  · intro out hout
    obtain ⟨hfits, hdisjoint, rfl⟩ := applyAll_eq_ok_iff.1 hout
    have hordered : ∀ e ∈ es, e.start ≤ e.stop := fun e he => (hfits e he).ordered
    have hahead := (firstOverlap?_eq_none_iff
      (fun e he => hordered e (mem_arrange.1 he)) (pairwise_arrange es)).1
      ((firstOverlap?_arrange hordered).2 hdisjoint)
    have hrewrites : Rewrites 0 (arrange es) text (splice 0 text (arrange es)) :=
      @rewrites_splice (arrange es) [] text 0 (fun e he => hfits e (mem_arrange.1 he)) hahead rfl
        fun e _ => Nat.zero_le e.start
    refine ⟨@Rewrites.assemble? _ [] text _ 0 hrewrites rfl, ⟨_, descending_reverse_arrange es⟩,
      fun ds hds => ?_, fun fs hfs => applyAll_congr hfs hout⟩
    rw [hds.eq_reverse_arrange hordered hdisjoint, List.reverse_reverse]
    exact ⟨hrewrites, @Rewrites.foldlM_reverse _ [] text _ 0 hrewrites rfl⟩
  · rintro as e bs rfl hfits hmisfit
    have hsome : e.misfit? text ≠ none := fun h => hmisfit (misfit?_eq_none_iff.1 h)
    obtain ⟨reason, hreason⟩ := Option.ne_none_iff_exists'.1 hsome
    refine ⟨reason, hreason, ?_⟩
    unfold applyAll
    rw [firstMisfit?_append hfits hreason]

/-- An insertion behind a replacement, listed before it and twice. -/
theorem applyAll_exact_insertion :
    applyAll ['a', 'b'] [⟨"A", 1, 1, "x"⟩, ⟨"B", 0, 1, "y"⟩, ⟨"A", 1, 1, "x"⟩] =
      .ok ['y', 'x', 'b'] := by
  obtain ⟨happlies, houtcome, -⟩ := applyAll_exact ['a', 'b']
    [⟨"A", 1, 1, "x"⟩, ⟨"B", 0, 1, "y"⟩, ⟨"A", 1, 1, "x"⟩]
  have hfits : ∀ e ∈ ([⟨"A", 1, 1, "x"⟩, ⟨"B", 0, 1, "y"⟩, ⟨"A", 1, 1, "x"⟩] : List Edit),
      e.misfit? ['a', 'b'] = none := by decide
  obtain ⟨out, hout⟩ := happlies.2 ⟨fun e he => misfit?_eq_none_iff.1 (hfits e he), by
    unfold Disjoint
    decide⟩
  obtain ⟨-, -, hone, -⟩ := houtcome out hout
  have hdescending : Descending [⟨"A", 1, 1, "x"⟩, ⟨"B", 0, 1, "y"⟩, ⟨"A", 1, 1, "x"⟩]
      [⟨"A", 1, 1, "x"⟩, ⟨"B", 0, 1, "y"⟩] := by
    refine ⟨fun e => ?_, by decide, by decide⟩
    simp only [List.mem_cons, List.not_mem_nil, or_false]
    tauto
  have hlast := (hone _ hdescending).2
  have hrun : [⟨"A", 1, 1, "x"⟩, ⟨"B", 0, 1, "y"⟩].foldlM applyOne? ['a', 'b'] =
      some ['y', 'x', 'b'] := by decide
  rw [hout, ← Option.some.inj (hrun.symm.trans hlast)]

end SchemaLint.Edit
