import Mathlib.Data.Option.Basic
import SchemaLint.Directive
import SchemaLint.Proofs.Text.Search
import SchemaLint.Proofs.Token.Scan

/-!
# Directives on a line with another word in it

A directive is looked for in plain text, which may hold names of declarations too.  Behind certain
characters a name is no part of a directive that counts, so that it does not matter which name it
is.
-/

set_option autoImplicit false
set_option relaxedAutoImplicit false

namespace SchemaLint.Directive

def lineCovers (ruleId : String) (line : List Char) : Bool :=
  (ofLine? line).any (·.covers ruleId)

def marks : List Char :=
  ['.', '>', '\x7b', ';', '\x7d', '/']

/-- A character and blanks that keep a name apart from what stands before it. -/
structure Guard (mark : Char) (blanks : List Char) : Prop where
  inert : Scan.isWordPart mark = true ∨ mark ∈ marks
  blank : ∀ b ∈ blanks, Text.isBlank b = true
  apart : Scan.isWordPart mark = true → blanks ≠ []

/-- Two texts are the same, or one has another word in the place of one that is kept apart. -/
inductive Alters (mark : Char) (blanks word word' : List Char) : List Char → List Char → Prop
  | same (cs : List Char) : Alters mark blanks word word' cs cs
  | word (before after : List Char) : Alters mark blanks word word'
      (before ++ mark :: (blanks ++ (word ++ after))) (before ++ mark :: (blanks ++ (word' ++ after)))

def IsWord (word : List Char) : Prop :=
  word ≠ [] ∧ ∀ c ∈ word, Scan.isWordPart c = true

theorem isBlank_of_mem_marks {c : Char} (h : c ∈ marks) :
    Text.isBlank c = false ∧ Scan.isWordPart c = false := by
  simp only [marks, List.mem_cons, List.not_mem_nil, or_false] at h
  rcases h with rfl | rfl | rfl | rfl | rfl | rfl <;> decide

theorem Guard.isBlank_mark {mark : Char} {blanks : List Char} (h : Guard mark blanks) :
    Text.isBlank mark = false := by
  rcases h.inert with hword | hmark
  · exact Scan.isBlank_of_isWordPart hword
  · exact (isBlank_of_mem_marks hmark).1

theorem trimEnd_append {cs ds : List Char} {c : Char} (last : cs.getLast? = some c)
    (solid : Text.isBlank c = false) : Text.trimEnd (cs ++ ds) = cs ++ Text.trimEnd ds := by
  obtain ⟨init, rfl⟩ := List.getLast?_eq_some_iff.1 last
  unfold Text.trimEnd
  have hsolid : ((init ++ [c]).reverse.dropWhile Text.isBlank) = (init ++ [c]).reverse := by
    simp [solid]
  rw [List.reverse_append, List.dropWhile_append]
  split
  · rename_i hnil
    rw [List.isEmpty_iff] at hnil
    rw [hsolid, hnil]
    simp
  · simp

section

variable {mark : Char} {blanks word word' l l' : List Char}

private theorem trim_guarded (guard : Guard mark blanks) (isWord : IsWord word)
    (before after : List Char) :
    Text.trim (before ++ mark :: (blanks ++ (word ++ after))) =
      before.dropWhile Text.isBlank ++ mark :: (blanks ++ (word ++ Text.trimEnd after)) := by
  obtain ⟨init, c, rfl⟩ : ∃ init c, word = init ++ [c] :=
    ⟨_, _, (List.dropLast_concat_getLast isWord.1).symm⟩
  have hsolid : Text.isBlank c = false := Scan.isBlank_of_isWordPart (isWord.2 c (by simp))
  have hstart : (before ++ mark :: (blanks ++ (init ++ [c] ++ after))).dropWhile Text.isBlank =
      before.dropWhile Text.isBlank ++ mark :: (blanks ++ (init ++ [c] ++ after)) := by
    rw [List.dropWhile_append]
    split
    · rename_i hnil
      rw [List.isEmpty_iff.1 hnil]
      simp [guard.isBlank_mark]
    · rfl
  have hlast : (before.dropWhile Text.isBlank ++ mark :: (blanks ++ (init ++ [c]))).getLast? =
      some c := by
    rw [← List.cons_append, ← List.append_assoc, ← List.append_assoc, List.getLast?_concat]
  have htrim : ∀ cs, Text.trim cs = Text.trimEnd (cs.dropWhile Text.isBlank) := fun _ => rfl
  have hend := @trimEnd_append _ after _ hlast hsolid
  rw [htrim, hstart]
  simpa using hend

theorem Alters.trim (h : Alters mark blanks word word' l l') (guard : Guard mark blanks)
    (isWord : IsWord word) (isWord' : IsWord word') :
    Alters mark blanks word word' (Text.trim l) (Text.trim l') := by
  cases h with
  | same cs => exact .same _
  | word before after =>
    rw [trim_guarded guard isWord, trim_guarded guard isWord']
    exact .word _ _

private theorem dropStart?_guarded (guard : Guard mark blanks) {start : List Char}
    (solid : ∀ c ∈ start, Text.isBlank c = false ∧ c ∉ marks)
    (ends : ∀ c ∈ start.getLast?, Scan.isWordPart c = false) (before tail : List Char) :
    Text.dropStart? start (before ++ mark :: (blanks ++ tail)) =
      (Text.dropStart? start before).map (· ++ mark :: (blanks ++ tail)) := by
  induction start generalizing before with
  | nil => rfl
  | cons p ps ih =>
    obtain ⟨hp, hps⟩ := List.forall_mem_cons.1 solid
    have hends : ∀ c ∈ ps.getLast?, Scan.isWordPart c = false := by
      intro c hc
      refine ends c ?_
      rw [List.getLast?_cons]
      simp_all
    cases before with
    | cons c before =>
      simp only [List.cons_append, Text.dropStart?]
      split
      · exact ih hps hends before
      · rfl
    | nil =>
      simp only [List.nil_append, Text.dropStart?, Option.map_none, ite_eq_right_iff]
      rintro rfl
      have hword : Scan.isWordPart p = true := guard.inert.resolve_right hp.2
      obtain ⟨b, bs, rfl⟩ := List.exists_cons_of_ne_nil (guard.apart hword)
      cases ps with
      | nil => simp [ends p (by simp)] at hword
      | cons q qs =>
        have hne : q ≠ b := by
          rintro rfl
          have := guard.blank q (by simp)
          simp [(hps q (by simp)).1] at this
        simp [Text.dropStart?, hne]

theorem Alters.dropStart? (h : Alters mark blanks word word' l l') (guard : Guard mark blanks)
    {start : List Char} (solid : ∀ c ∈ start, Text.isBlank c = false ∧ c ∉ marks)
    (ends : ∀ c ∈ start.getLast?, Scan.isWordPart c = false) :
    Option.Rel (Alters mark blanks word word') (Text.dropStart? start l)
      (Text.dropStart? start l') := by
  cases h with
  | same =>
    cases Text.dropStart? start l with
    | none => exact .none
    | some rest => exact .some (.same rest)
  | word before after =>
    rw [dropStart?_guarded guard solid ends, dropStart?_guarded guard solid ends]
    cases Text.dropStart? start before with
    | none => exact .none
    | some rest => exact .some (.word rest after)

private theorem rel_map {α β γ δ : Type} {r : α → β → Prop} {t : γ → δ → Prop} {f : α → γ}
    {g : β → δ} {a : Option α} {b : Option β} (h : Option.Rel r a b)
    (maps : ∀ a b, r a b → t (f a) (g b)) : Option.Rel t (a.map f) (b.map g) := by
  cases h with
  | none => exact .none
  | some h => exact .some (maps _ _ h)

theorem Alters.cons (h : Alters mark blanks word word' l l') (c : Char) :
    Alters mark blanks word word' (c :: l) (c :: l') := by
  cases h with
  | same => exact .same _
  | word before after => exact .word (c :: before) after

private theorem notMem_guarded {c : Char} (guard : Guard mark blanks) (isWord : IsWord word)
    (part : Scan.isWordPart c = false) (solid : Text.isBlank c = false) :
    c ∉ blanks ++ word := by
  intro h
  rcases List.mem_append.1 h with h | h
  · simp [guard.blank c h] at solid
  · simp [isWord.2 c h] at part

theorem Alters.cutAround?_fst (h : Alters mark blanks word word' l l') (guard : Guard mark blanks)
    (isWord : IsWord word) (isWord' : IsWord word') :
    Option.Rel (fun r r' => Alters mark blanks word word' r.1 r'.1) (Text.cutAround? [')'] l)
      (Text.cutAround? [')'] l') := by
  cases h with
  | same =>
    cases Text.cutAround? [')'] l with
    | none => exact .none
    | some r => exact .some (.same r.1)
  | word before after =>
    have hmark : ')' ≠ mark := by
      rintro rfl
      exact absurd guard.inert (by decide)
    induction before with
    | nil =>
      have hnone : ∀ u, IsWord u → ')' ∉ mark :: (blanks ++ u) := by
        intro u hu h
        rcases List.mem_cons.1 h with h | h
        · exact hmark h
        · exact notMem_guarded guard hu (by decide) (by decide) h
      have hcut := Text.cutAround?_append_of_notMem (hnone word isWord) [] after
      have hcut' := Text.cutAround?_append_of_notMem (hnone word' isWord') [] after
      simp only [List.cons_append, List.append_assoc] at hcut hcut'
      rw [List.nil_append, List.nil_append, hcut, hcut']
      cases Text.cutAround? [')'] after with
      | none => exact .none
      | some r => exact .some (.word [] r.1)
    | cons d before ih =>
      simp only [List.cons_append, Text.cutAround?, Text.dropStart?]
      by_cases hd : ')' = d
      · simp only [hd, if_true]
        exact .some (.same [])
      · simp only [hd, if_false]
        exact rel_map ih fun _ _ hr => hr.cons d

private theorem cutAround?_slashes (cs : List Char) :
    Text.cutAround? ['/', '/'] ('/' :: '/' :: cs) = some ([], cs) := by
  simp [Text.cutAround?, Text.dropStart?]

private theorem cutAround?_cons {c : Char} {cs : List Char}
    (h : ¬(c = '/' ∧ cs.head? = some '/')) : Text.cutAround? ['/', '/'] (c :: cs) =
      (Text.cutAround? ['/', '/'] cs).map fun r => (c :: r.1, r.2) := by
  rw [Text.cutAround?]
  by_cases hc : c = '/'
  · cases cs with
    | nil => simp [Text.dropStart?, hc]
    | cons d cs =>
      have hd : ¬ '/' = d := fun he => h ⟨hc, congrArg some he.symm⟩
      simp [Text.dropStart?, hc, hd]
  · have hc' : ¬ '/' = c := fun he => hc he.symm
    simp [Text.dropStart?, hc']

theorem cutAround?_snd (guard : Guard mark blanks) (isWord : IsWord word) (isWord' : IsWord word')
    {before after : List Char} (apart : mark = '/' → before.getLast? ≠ some '/') :
    Option.Rel (fun r r' => Alters mark blanks word word' r.2 r'.2)
      (Text.cutAround? ['/', '/'] (before ++ mark :: (blanks ++ (word ++ after))))
      (Text.cutAround? ['/', '/'] (before ++ mark :: (blanks ++ (word' ++ after)))) := by
  induction before with
  | nil =>
    have hcut : ∀ u, IsWord u → Text.cutAround? ['/', '/'] (mark :: (blanks ++ (u ++ after))) =
        (Text.cutAround? ['/', '/'] after).map fun r => (mark :: (blanks ++ u ++ r.1), r.2) := by
      intro u hu
      have hnone : '/' ∉ blanks ++ u := notMem_guarded guard hu (by decide) (by decide)
      have htail := Text.cutAround?_append_of_notMem hnone ['/'] after
      rw [List.append_assoc] at htail
      have hhead : (blanks ++ (u ++ after)).head? ≠ some '/' := by
        obtain ⟨d, ds, hds⟩ := List.exists_cons_of_ne_nil
          (List.append_ne_nil_of_right_ne_nil blanks hu.1)
        rw [← List.append_assoc, hds]
        intro he
        rw [hds] at hnone
        simp_all
      rw [cutAround?_cons fun h => hhead h.2, htail, Option.map_map]
      rfl
    rw [List.nil_append, List.nil_append, hcut word isWord, hcut word' isWord']
    cases Text.cutAround? ['/', '/'] after with
    | none => exact .none
    | some r => exact .some (.same r.2)
  | cons d before ih =>
    have ih := ih fun hmark h => by
      refine apart hmark ?_
      rw [List.getLast?_cons]
      simp [h]
    cases before with
    | nil =>
      have hmark : ∀ cs, ¬(d = '/' ∧ (mark :: cs).head? = some '/') := by
        rintro cs ⟨rfl, he⟩
        exact apart (Option.some.inj he) rfl
      simp only [List.cons_append, List.nil_append] at ih ⊢
      rw [cutAround?_cons (hmark _), cutAround?_cons (hmark _)]
      exact rel_map ih fun _ _ hr => hr
    | cons e before =>
      by_cases hslashes : d = '/' ∧ e = '/'
      · obtain ⟨rfl, rfl⟩ := hslashes
        simp only [List.cons_append, cutAround?_slashes]
        exact .some (.word before after)
      · have hmiss : ∀ cs, ¬(d = '/' ∧ (e :: cs).head? = some '/') := by
          rintro cs ⟨hd, he⟩
          exact hslashes ⟨hd, Option.some.inj he⟩
        simp only [List.cons_append] at ih ⊢
        rw [cutAround?_cons (hmiss _), cutAround?_cons (hmiss _)]
        exact rel_map ih fun _ _ hr => hr

private theorem trim_ne (guard : Guard mark blanks) (isWord : IsWord word) {ruleId : String}
    (isId : ∀ c ∈ ruleId.toList, Scan.isWordPart c = true) (before after : List Char) :
    Text.trim (before ++ mark :: (blanks ++ (word ++ after))) ≠ [] ∧
      String.ofList (Text.trim (before ++ mark :: (blanks ++ (word ++ after)))) ≠ ruleId := by
  rw [trim_guarded guard isWord]
  refine ⟨by simp, ?_⟩
  rintro rfl
  rw [String.toList_ofList] at isId
  have hmark := isId mark (by simp)
  obtain ⟨b, bs, rfl⟩ := List.exists_cons_of_ne_nil (guard.apart hmark)
  have hblank := guard.blank b (by simp)
  have hpart := Scan.isBlank_of_isWordPart (isId b (by simp))
  simp [hblank] at hpart

theorem Alters.rulesOf (h : Alters mark blanks word word' l l') (guard : Guard mark blanks)
    (isWord : IsWord word) (isWord' : IsWord word') {ruleId : String}
    (isId : ∀ c ∈ ruleId.toList, Scan.isWordPart c = true) :
    (rulesOf l).isEmpty = (rulesOf l').isEmpty ∧
      (rulesOf l).contains ruleId = (rulesOf l').contains ruleId := by
  cases h with
  | same => exact ⟨rfl, rfl⟩
  | word before after =>
    obtain ⟨lead, last, rfl, hlast, hlead⟩ := Text.exists_last_piece ',' before
    obtain ⟨pieces, hpieces⟩ := Text.exists_splitOn_lead hlead
    obtain ⟨piece, others, hothers⟩ := List.exists_cons_of_ne_nil (Text.splitOn_ne_nil ',' after)
    have hmark : ',' ≠ mark := by
      rintro rfl
      exact absurd guard.inert (by decide)
    -- Only the entry with the word differs, and it names no rule whichever word it holds.
    have hrules : ∀ u, IsWord u → ∃ entry, entry ≠ ruleId ∧
        Directive.rulesOf (lead ++ last ++ mark :: (blanks ++ (u ++ after))) =
          ((pieces.map Text.trim).filter (!·.isEmpty)).map String.ofList ++
            entry :: ((others.map Text.trim).filter (!·.isEmpty)).map String.ofList := by
      intro u hu
      obtain ⟨hne, hentry⟩ := trim_ne guard hu isId last piece
      refine ⟨_, hentry, ?_⟩
      have hnone : ',' ∉ last ++ mark :: (blanks ++ u) := by
        intro h
        rcases List.mem_append.1 h with h | h
        · exact hlast h
        · rcases List.mem_cons.1 h with h | h
          · exact hmark h
          · exact notMem_guarded guard hu (by decide) (by decide) h
      have hsplit := Text.splitOn_append_of_notMem hnone hothers
      have hwhole : lead ++ last ++ mark :: (blanks ++ (u ++ after)) =
          lead ++ (last ++ mark :: (blanks ++ u) ++ after) := by simp
      have hpiece : last ++ mark :: (blanks ++ u) ++ piece =
          last ++ mark :: (blanks ++ (u ++ piece)) := by simp
      unfold Directive.rulesOf
      rw [hwhole, hpieces, hsplit, hpiece, List.map_append, List.map_cons, List.filter_append,
        List.filter_cons_of_pos (by simpa using hne), List.map_append, List.map_cons]
    obtain ⟨entry, hentry, hsame⟩ := hrules word isWord
    obtain ⟨entry', hentry', hsame'⟩ := hrules word' isWord'
    have hfull : ∀ (a b : List String) (e : String), (a ++ e :: b).isEmpty = false := by
      intro a b e
      cases a <;> rfl
    rw [hsame, hsame', hfull, hfull]
    refine ⟨rfl, ?_⟩
    have hne : ¬ ruleId = entry := fun he => hentry he.symm
    have hne' : ¬ ruleId = entry' := fun he => hentry' he.symm
    simp [List.contains_eq_mem, hne, hne']

private theorem rel_bind {α β γ δ : Type} {r : α → β → Prop} {t : γ → δ → Prop}
    {f : α → Option γ} {g : β → Option δ} {a : Option α} {b : Option β} (h : Option.Rel r a b)
    (maps : ∀ a b, r a b → Option.Rel t (f a) (g b)) : Option.Rel t (a >>= f) (b >>= g) := by
  cases h with
  | none => exact .none
  | some h => exact maps _ _ h

private theorem solid_of_all {start : List Char}
    (h : (start.all fun c => !Text.isBlank c && !marks.contains c) = true) :
    ∀ c ∈ start, Text.isBlank c = false ∧ c ∉ marks := by
  simpa using h

private theorem ends_of_getLast? {start : List Char} {last : Char}
    (ending : start.getLast? = some last) (part : Scan.isWordPart last = false) :
    ∀ c ∈ start.getLast?, Scan.isWordPart c = false := by
  intro c hc
  obtain rfl : last = c := Option.some.inj (ending.symm.trans hc)
  exact part

theorem Alters.ofComment? (h : Alters mark blanks word word' l l') (guard : Guard mark blanks)
    (isWord : IsWord word) (isWord' : IsWord word') {ruleId : String}
    (isId : ∀ c ∈ ruleId.toList, Scan.isWordPart c = true) :
    Option.Rel (fun d d' => d.covers ruleId = d'.covers ruleId) (ofComment? l) (ofComment? l') := by
  unfold Directive.ofComment?
  refine rel_bind ((h.trim guard isWord isWord').dropStart? guard
    (solid_of_all (by decide)) (ends_of_getLast? (show _ = some ':' by decide) (by decide)))
    fun content content' hcontent => ?_
  refine rel_bind ((hcontent.trim guard isWord isWord').dropStart? guard
    (solid_of_all (by decide)) (ends_of_getLast? (show _ = some '(' by decide) (by decide)))
    fun arguments arguments' harguments => ?_
  refine rel_bind ((harguments.trim guard isWord isWord').cutAround?_fst guard isWord isWord')
    fun r r' hr => ?_
  obtain ⟨hempty, hrule⟩ := hr.rulesOf guard isWord isWord' isId
  have hall : (Directive.rulesOf r.1).contains "all" = (Directive.rulesOf r'.1).contains "all" :=
    (hr.rulesOf guard isWord isWord' (List.all_eq_true.1 (by decide))).2
  simp only [hempty]
  split
  · exact .none
  · refine .some ?_
    unfold covers
    rw [hrule, hall]

private theorem any_eq_of_rel {a b : Option Directive} {ruleId : String}
    (h : Option.Rel (fun d d' : Directive => d.covers ruleId = d'.covers ruleId) a b) :
    a.any (·.covers ruleId) = b.any (·.covers ruleId) := by
  cases h with
  | none => rfl
  | some h => exact h

theorem lineCovers_guarded (guard : Guard mark blanks) (isWord : IsWord word)
    (isWord' : IsWord word') {ruleId : String}
    (isId : ∀ c ∈ ruleId.toList, Scan.isWordPart c = true) {before : List Char}
    (apart : mark = '/' → before.getLast? ≠ some '/') (after : List Char) :
    lineCovers ruleId (before ++ mark :: (blanks ++ (word ++ after))) =
      lineCovers ruleId (before ++ mark :: (blanks ++ (word' ++ after))) := by
  have hapart : mark = '/' → (before.dropWhile Text.isBlank).getLast? ≠ some '/' := by
    intro hmark h
    refine apart hmark ?_
    obtain ⟨lead, hlead⟩ := before.dropWhile_suffix Text.isBlank
    rw [← hlead, List.getLast?_append, h]
    rfl
  refine any_eq_of_rel ?_
  unfold ofLine?
  rw [trim_guarded guard isWord, trim_guarded guard isWord']
  exact rel_bind (cutAround?_snd guard isWord isWord' hapart)
    fun r r' hr => hr.ofComment? guard isWord isWord' isId

theorem lineCovers_first (isWord : IsWord word) (isWord' : IsWord word') (ruleId : String)
    {before : List Char} (blank : ∀ c ∈ before, Text.isBlank c = true) (after : List Char) :
    lineCovers ruleId (before ++ (word ++ after)) = lineCovers ruleId (before ++ (word' ++ after)) := by
  have hcut : ∀ u, IsWord u → Text.cutAround? ['/', '/'] (Text.trim (before ++ (u ++ after))) =
      (Text.cutAround? ['/', '/'] (Text.trimEnd after)).map fun r => (u ++ r.1, r.2) := by
    intro u hu
    obtain ⟨init, c, rfl⟩ : ∃ init c, u = init ++ [c] :=
      ⟨_, _, (List.dropLast_concat_getLast hu.1).symm⟩
    have hsolid : Text.isBlank c = false := Scan.isBlank_of_isWordPart (hu.2 c (by simp))
    have hslash : '/' ∉ init ++ [c] := by
      intro h
      exact absurd (hu.2 _ h) (by decide)
    have hstart : (before ++ (init ++ [c] ++ after)).dropWhile Text.isBlank =
        init ++ [c] ++ after := by
      rw [List.dropWhile_append_of_pos blank]
      obtain ⟨d, ds, hds⟩ := List.exists_cons_of_ne_nil hu.1
      have hd : Text.isBlank d = false :=
        Scan.isBlank_of_isWordPart (hu.2 d (by rw [hds]; simp))
      rw [hds]
      simp [hd]
    have htrim : ∀ cs, Text.trim cs = Text.trimEnd (cs.dropWhile Text.isBlank) := fun _ => rfl
    rw [htrim, hstart, trimEnd_append (by simp) hsolid, Text.cutAround?_append_of_notMem hslash]
  refine any_eq_of_rel ?_
  unfold ofLine?
  rw [hcut word isWord, hcut word' isWord']
  cases Text.cutAround? ['/', '/'] (Text.trimEnd after) with
  | none => exact .none
  | some r =>
    simp only [Option.map_some, bind, Option.bind_some]
    cases ofComment? r.2 with
    | none => exact .none
    | some d => exact .some rfl

end

end SchemaLint.Directive
