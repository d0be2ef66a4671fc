import Mathlib.Data.List.Chain
import SchemaLint.Proofs.Casing.Words

/-!
# Conversions made again

A conversion meets its own test exactly when the first letter or digit of the name is a letter, and a
second conversion in the same casing changes nothing.  Capitals with underscores are the exception: a
digit before a small letter parts no word, but a digit before a capital does.
-/

set_option autoImplicit false
set_option relaxedAutoImplicit false

namespace SchemaLint.Casing

/-! ### Names that have their casing -/

theorem exists_cons_of_isMatch {casing : Casing} {name : String} (h : casing.isMatch name = true) :
    ∃ c cs, name.toList = c :: cs ∧ c.isAlpha = true := by
  unfold isMatch at h
  cases hname : name.toList with
  | nil =>
    rw [hname] at h
    cases casing <;> cases h
  | cons c cs =>
    rw [hname] at h
    refine ⟨c, cs, rfl, ?_⟩
    rw [Scan.isAlpha_eq, Bool.or_eq_true]
    cases casing with
    | upperCamel | upperSnake => exact .inl (Bool.and_eq_true_iff.1 h).1
    | lowerCamel | lowerSnake => exact .inr (Bool.and_eq_true_iff.1 h).1

theorem exists_letter_of_isMatch_convert {casing : Casing} {name : String}
    (h : casing.isMatch (casing.convert name) = true) :
    ∃ c ∈ name.toList.find? Char.isAlphanum, c.isAlpha = true := by
  obtain ⟨c, rest, hout, hc⟩ := exists_cons_of_isMatch h
  have hletter : c ≠ '_' := by
    rintro rfl
    exact absurd hc (by decide)
  have hkept := lower_filter_convert casing name
  rw [hout, List.filter_cons_of_pos (by simpa using hletter)] at hkept
  cases hparts : name.toList.filter Char.isAlphanum with
  | nil => simp [hparts, lower] at hkept
  | cons d parts =>
    rw [hparts] at hkept
    have hcase : c.toLower = d.toLower := (List.cons.inj hkept).1
    refine ⟨d, ?_, ?_⟩
    · rw [← List.head?_filter, hparts]
      rfl
    · rw [← isLower_toLower, ← hcase, isLower_toLower, hc]

/-! ### Words of a text -/

namespace Cut

variable {cs : List Char} {words : List (List Char)}

private theorem isUpper_of_not_beginsWord {c d : Char} {following : List Char}
    (hc : c.isAlphanum = true) (h : beginsWord c d following = false) (hd : d.isUpper = true) :
    c.isUpper = true := by
  have hbegins := mt beginsWord_iff.2 (by simpa using h)
  rcases (isAlphanum_iff c).1 hc with hupper | hlower | hdigit
  · exact hupper
  · exact absurd (.inl ⟨hd, hlower⟩) hbegins
  · exact absurd (.inr (.inl ⟨hd, hdigit⟩)) hbegins

private theorem isUpper_of_stops {c : Char} {cs : List Char} (h : wordGoesOn c cs = false) :
    ∀ d ∈ cs.head?, d.isAlphanum = false ∨ d.isUpper = true := by
  cases cs with
  | nil => simp
  | cons d following =>
    rintro _ ⟨rfl⟩
    rcases Bool.and_eq_false_iff.1 h with hd | hbegins
    · exact .inl hd
    · rw [Bool.not_eq_false'] at hbegins
      exact .inr (Bool.and_eq_true_iff.1 hbegins).1

theorem isChain (h : Cut cs words) :
    ∀ word ∈ words, word.IsChain fun c d => d.isUpper = true → c.isUpper = true := by
  induction h with
  | nil => simp
  | delimiter _ _ ih => exact ih
  | @stops c _ _ _ _ _ ih => exact List.forall_mem_cons.2 ⟨List.isChain_singleton c, ih⟩
  | joins part _ joins _ ih =>
    obtain ⟨hfirst, hothers⟩ := List.forall_mem_cons.1 ih
    refine List.forall_mem_cons.2 ⟨List.isChain_cons_cons.2 ⟨?_, hfirst⟩, hothers⟩
    exact isUpper_of_not_beginsWord part joins

theorem isUpper_of_mem_tail (h : Cut cs words) (parts : ∀ c ∈ cs, c.isAlphanum = true) :
    ∀ word ∈ words.tail, ∃ c tail, word = c :: tail ∧ c.isUpper = true := by
  induction h with
  | nil => simp
  | @delimiter c _ _ not_part _ _ => simp [parts c List.mem_cons_self] at not_part
  | @stops c cs words _ stops others ih =>
    have hothers := ih fun d hd => parts d (List.mem_cons_of_mem c hd)
    have hupper : ∀ d ∈ cs.head?, d.isUpper = true := by
      intro d hd
      have hpart := parts d (List.mem_cons_of_mem c (List.mem_of_mem_head? hd))
      simpa [hpart] using isUpper_of_stops stops d hd
    cases others with
    | nil => simp
    | @delimiter d _ _ not_part _ => simp [parts d (by simp)] at not_part
    | @stops d => exact List.forall_mem_cons.2 ⟨⟨d, [], rfl, hupper d rfl⟩, hothers⟩
    | @joins d e _ word => exact List.forall_mem_cons.2 ⟨⟨d, e :: word, rfl, hupper d rfl⟩, hothers⟩
  | joins _ _ _ _ ih => exact ih fun d hd => parts d (List.mem_cons_of_mem _ hd)

theorem isChain_iff {R : Char → Char → Prop} (h : Cut cs words)
    (apart : ∀ c d, c.isAlphanum = false ∨ d.isAlphanum = false ∨ d.isUpper = true → R c d) :
    cs.IsChain R ↔ ∀ word ∈ words, word.IsChain R := by
  induction h with
  | nil => simp
  | @delimiter c cs _ not_part _ ih =>
    rw [← ih, List.isChain_cons]
    exact and_iff_right fun d _ => apart c d (.inl not_part)
  | @stops c cs _ _ stops _ ih =>
    rw [List.forall_mem_cons, ← ih, List.isChain_cons]
    refine and_congr ⟨fun _ => List.isChain_singleton c, fun _ d hd => ?_⟩ .rfl
    exact apart c d (.inr (isUpper_of_stops stops d hd))
  | joins _ _ _ _ ih =>
    rw [List.forall_mem_cons, List.isChain_cons_cons, List.isChain_cons_cons, ih,
      List.forall_mem_cons, and_assoc]

end Cut

/-! ### Words of a joined text -/

theorem splitWords_append_cons {d : Char} (as bs : List Char) (h : d.isAlphanum = false) :
    splitWords (as ++ d :: bs) = splitWords as ++ splitWords bs := by
  have hsame : ∀ a as, wordGoesOn a (as ++ d :: bs) = wordGoesOn a as := by
    intro a as
    cases as with
    | nil => exact wordGoesOn_cons_of_not bs h
    | cons e as =>
      have hlower : d.isLower = false := by
        rw [← Bool.not_eq_true] at h ⊢
        exact fun hd => h ((isAlphanum_iff d).2 (.inr (.inl hd)))
      rw [List.cons_append, wordGoesOn, wordGoesOn, beginsWord, beginsWord]
      cases as <;> simp [hlower]
  induction as with
  | nil => rw [List.nil_append, splitWords_cons_of_not bs h, splitWords, List.nil_append]
  | cons a as ih =>
    rw [List.cons_append]
    by_cases ha : a.isAlphanum = true
    · by_cases hgoes : wordGoesOn a as = true
      · obtain ⟨word, words, hsplit, hjoined⟩ := splitWords_cons_of_goesOn ha hgoes
        obtain ⟨word', words', hsplit', hjoined'⟩ :=
          splitWords_cons_of_goesOn ha ((hsame a as).trans hgoes)
        rw [hsplit, hsplit', List.cons_append] at ih
        obtain ⟨rfl, rfl⟩ := List.cons.inj ih
        rw [hjoined, hjoined', List.cons_append]
      · have hstops : wordGoesOn a as = false := by simpa using hgoes
        rw [splitWords_cons_of_stops ha hstops,
          splitWords_cons_of_stops ha ((hsame a as).trans hstops), ih, List.cons_append]
    · have hnot : a.isAlphanum = false := by simpa using ha
      rw [splitWords_cons_of_not _ hnot, splitWords_cons_of_not _ hnot, ih]

theorem splitWords_joinSnake (words : List (List Char)) :
    splitWords (joinSnake words) = words.flatMap splitWords := by
  induction words with
  | nil => rfl
  | cons word words ih =>
    cases words with
    | nil => simp [joinSnake]
    | cons next words =>
      rw [joinSnake_cons_cons, splitWords_append_cons _ _ (by decide), ih]
      exact List.flatMap_cons.symm

theorem isChain_joinSnake_iff {R : Char → Char → Prop} (words : List (List Char))
    (left : ∀ c, R c '_') (right : ∀ c, R '_' c) :
    (joinSnake words).IsChain R ↔ ∀ word ∈ words, word.IsChain R := by
  induction words with
  | nil => simp [joinSnake]
  | cons word words ih =>
    cases words with
    | nil => simp [joinSnake]
    | cons next words =>
      rw [joinSnake_cons_cons, List.forall_mem_cons, List.isChain_append, List.isChain_cons, ih]
      refine and_congr_right fun _ => ?_
      simp [left, right]

theorem splitWords_of_steady {word : List Char} (nonempty : word ≠ [])
    (parts : ∀ c ∈ word, c.isAlphanum = true)
    (steady : ∀ before c d after, word = before ++ c :: d :: after → beginsWord c d after = false) :
    splitWords word = [word] := by
  induction word with
  | nil => contradiction
  | cons c word ih =>
    have hc := parts c List.mem_cons_self
    cases word with
    | nil => exact splitWords_cons_of_stops hc rfl
    | cons d after =>
      have hrest := ih (by simp) (fun e he => parts e (List.mem_cons_of_mem c he))
        fun before a b behind hword => steady (c :: before) a b behind (by rw [hword]; rfl)
      have hgoes : wordGoesOn c (d :: after) = true := by
        rw [wordGoesOn, parts d (by simp), steady [] c d after rfl]
        rfl
      obtain ⟨first, others, hsplit, hjoined⟩ := splitWords_cons_of_goesOn hc hgoes
      obtain ⟨rfl, rfl⟩ := List.cons.inj (hrest.symm.trans hsplit)
      exact hjoined

/-! ### Camel casings -/

section Camel

variable {cs : List Char}

theorem camelWords_of_parts (parts : ∀ c ∈ cs, c.isAlphanum = true) :
    camelWords cs = splitWords cs := by
  have hline : cs.contains '_' = false := by
    rw [← Bool.not_eq_true, List.contains_iff_mem]
    exact fun hmem => absurd (parts _ hmem) (by decide)
  rw [camelWords, hline]
  rfl

theorem flatten_splitWords_of_parts (parts : ∀ c ∈ cs, c.isAlphanum = true) :
    (splitWords cs).flatten = cs := by
  rw [flatten_splitWords, List.filter_eq_self.2 parts]

theorem capitalize_of_isUpper {c : Char} {tail : List Char} (h : c.isUpper = true) :
    capitalize (c :: tail) = c :: tail := by
  rw [capitalize, (toUpper_eq_self_iff c).2 (isLower_of_isUpper h)]

theorem map_capitalize_tail (parts : ∀ c ∈ cs, c.isAlphanum = true) :
    (splitWords cs).tail.map capitalize = (splitWords cs).tail := by
  refine (List.map_congr_left fun word hword => ?_).trans (List.map_id _)
  obtain ⟨c, tail, rfl, hupper⟩ := (cut_splitWords cs).isUpper_of_mem_tail parts word hword
  exact capitalize_of_isUpper hupper

theorem convertChars_upperCamel_eq (parts : ∀ c ∈ cs, c.isAlphanum = true)
    (head : ∀ c ∈ cs.head?, c.isLower = false) : convertChars .upperCamel cs = cs := by
  rw [convertChars, camelWords_of_parts parts]
  cases cs with
  | nil => rfl
  | cons c cs =>
    obtain ⟨word, words, hsplit⟩ := @splitWords_cons_of_isAlphanum c cs (parts c List.mem_cons_self)
    have htail := map_capitalize_tail parts
    have hflatten := flatten_splitWords_of_parts parts
    rw [hsplit] at htail hflatten ⊢
    rw [List.map_cons, List.flatten_cons, capitalize, (toUpper_eq_self_iff c).2 (head c rfl)]
    rw [List.tail_cons] at htail
    rw [htail]
    exact hflatten

theorem decapitalize_eq {c : Char} {word : List Char} (head : c.isUpper = false)
    (chain : (c :: word).IsChain fun c d => d.isUpper = true → c.isUpper = true) :
    decapitalize (c :: word) = c :: word := by
  have hupper : ∀ d ∈ c :: word, d.isUpper = false := by
    refine List.forall_mem_cons.2 ⟨head, ?_⟩
    refine chain.cons_induction (fun d => d.isUpper = false) word (fun a b hab ha => ?_) head
    rw [← Bool.not_eq_true] at ha ⊢
    exact mt hab ha
  have hlower : ∀ d ∈ c :: word, d.toLower = d := fun d hd => (toLower_eq_self_iff d).2 (hupper d hd)
  rw [decapitalize]
  split
  · rw [hlower c List.mem_cons_self]
  · exact (List.map_congr_left hlower).trans (List.map_id _)

theorem convertChars_lowerCamel_eq (parts : ∀ c ∈ cs, c.isAlphanum = true)
    (head : ∀ c ∈ cs.head?, c.isUpper = false) : convertChars .lowerCamel cs = cs := by
  rw [convertChars, camelWords_of_parts parts]
  cases cs with
  | nil => rfl
  | cons c cs =>
    obtain ⟨word, words, hsplit⟩ := @splitWords_cons_of_isAlphanum c cs (parts c List.mem_cons_self)
    have hchain := (cut_splitWords (c :: cs)).isChain
    have htail := map_capitalize_tail parts
    have hflatten := flatten_splitWords_of_parts parts
    rw [hsplit] at hchain htail hflatten ⊢
    rw [List.tail_cons] at htail
    change decapitalize (c :: word) ++ (words.map capitalize).flatten = c :: cs
    rw [decapitalize_eq (head c rfl) (hchain _ List.mem_cons_self), htail]
    exact hflatten

end Camel

theorem parts_of_mem_respelled {casing : Casing} {cs word : List Char}
    (h : word ∈ respelled casing cs) : word ≠ [] ∧ ∀ c ∈ word, c.isAlphanum = true := by
  have hmem : lower word ∈ (splitWords cs).map lower :=
    map_lower_respelled casing cs ▸ List.mem_map_of_mem h
  obtain ⟨old, hold, hsame⟩ := List.mem_map.1 hmem
  constructor
  · rintro rfl
    exact ne_nil_of_mem_splitWords hold (List.map_eq_nil_iff.1 hsame)
  · intro c hc
    have hlower : c.toLower ∈ lower old := hsame ▸ List.mem_map_of_mem hc
    obtain ⟨d, hd, hcase⟩ := List.mem_map.1 hlower
    rw [← isAlphanum_toLower, ← hcase, isAlphanum_toLower]
    exact isAlphanum_of_mem_splitWords hold d hd

theorem isAlphanum_of_mem_flatten {casing : Casing} {cs : List Char} :
    ∀ c ∈ (respelled casing cs).flatten, c.isAlphanum = true := by
  intro c hc
  obtain ⟨word, hword, hc⟩ := List.mem_flatten.1 hc
  exact (parts_of_mem_respelled hword).2 c hc

theorem convertChars_upperCamel (cs : List Char) :
    convertChars .upperCamel cs = (respelled .upperCamel cs).flatten := rfl

theorem convertChars_lowerCamel (cs : List Char) :
    convertChars .lowerCamel cs = (respelled .lowerCamel cs).flatten := by
  rw [convertChars, respelled]
  cases camelWords cs <;> rfl

theorem upperCamel_idempotent (cs : List Char) :
    convertChars .upperCamel (convertChars .upperCamel cs) = convertChars .upperCamel cs := by
  rw [convertChars_upperCamel cs]
  refine convertChars_upperCamel_eq isAlphanum_of_mem_flatten ?_
  have hne := fun word => @parts_of_mem_respelled .upperCamel cs word
  rw [respelled] at hne ⊢
  cases hwords : camelWords cs with
  | nil => simp
  | cons first others =>
    cases first with
    | nil => simp [hwords, capitalize] at hne
    | cons c word => simp [capitalize]

theorem lowerCamel_idempotent (cs : List Char) :
    convertChars .lowerCamel (convertChars .lowerCamel cs) = convertChars .lowerCamel cs := by
  rw [convertChars_lowerCamel cs]
  refine convertChars_lowerCamel_eq isAlphanum_of_mem_flatten ?_
  have hne := fun word => @parts_of_mem_respelled .lowerCamel cs word
  rw [respelled] at hne ⊢
  cases hwords : camelWords cs with
  | nil => simp
  | cons first others =>
    cases first with
    | nil => simp [hwords, decapitalize] at hne
    | cons c word =>
      have hsmall : (decapitalize (c :: word)).head? = some c.toLower := by
        rw [decapitalize]
        split <;> rfl
      simp [hsmall]

/-! ### Casings with underscores -/

theorem splitWords_joinSnake_of_whole {words : List (List Char)}
    (whole : ∀ word ∈ words, splitWords word = [word]) : splitWords (joinSnake words) = words := by
  rw [splitWords_joinSnake, List.flatMap_congr whole, List.flatMap_singleton']

theorem lowerSnake_idempotent (cs : List Char) :
    convertChars .lowerSnake (convertChars .lowerSnake cs) = convertChars .lowerSnake cs := by
  have hwhole : ∀ word ∈ (splitWords cs).map lower, splitWords word = [word] := by
    intro word hword
    obtain ⟨hne, hparts⟩ := @parts_of_mem_respelled .lowerSnake cs word hword
    refine splitWords_of_steady hne hparts ?_
    rintro before c d after rfl
    obtain ⟨old, -, hsplit⟩ := List.mem_map.1 hword
    have hd : d ∈ lower old := by simp [hsplit]
    obtain ⟨e, -, rfl⟩ := List.mem_map.1 hd
    rw [beginsWord, isUpper_toLower, Bool.false_and]
  rw [convertChars, convertChars, splitWords_joinSnake_of_whole hwhole, List.map_map]
  simp [Function.comp_def]

/-- Capitals with underscores have a digit before a capital exactly where the name has a digit before
a small letter: before a capital in the name, a new word begins. -/
theorem isChain_convertChars_upperSnake (cs : List Char) :
    (convertChars .upperSnake cs).IsChain (fun c d => ¬(c.isDigit = true ∧ d.isUpper = true)) ↔
      cs.IsChain fun c d => ¬(c.isDigit = true ∧ d.isLower = true) := by
  have hcut := cut_splitWords cs
  rw [convertChars, isChain_joinSnake_iff _ (by simp) (by simp), List.forall_mem_map,
    hcut.isChain_iff ?apart]
  case apart =>
    rintro c d (h | h | h) ⟨hc, hd⟩
    · simp [Char.isAlphanum, hc] at h
    · simp [Char.isAlphanum, Scan.isAlpha_eq, hd] at h
    · simp [isLower_of_isUpper h] at hd
  refine forall₂_congr fun word hword => ?_
  rw [upper, List.isChain_map]
  simp only [isDigit_toUpper, isUpper_toUpper, Scan.isAlpha_eq, Bool.or_eq_true]
  constructor
  · intro h
    exact h.imp fun c d hcd hsmall => hcd ⟨hsmall.1, .inr hsmall.2⟩
  · intro h
    rw [List.isChain_iff_forall_rel_of_append_cons_cons] at h ⊢
    have hcapitals := hcut.isChain word hword
    rw [List.isChain_iff_forall_rel_of_append_cons_cons] at hcapitals
    rintro c d before after hsplit ⟨hdigit, hupper | hlower⟩
    · have hletter : c.isAlpha = true := by simp [Scan.isAlpha_eq, hcapitals hsplit hupper]
      simp [isDigit_of_isAlpha hletter] at hdigit
    · exact h hsplit ⟨hdigit, hlower⟩

theorem splitWords_upper {word : List Char} (nonempty : upper word ≠ [])
    (parts : ∀ c ∈ upper word, c.isAlphanum = true)
    (chain : (upper word).IsChain fun c d => ¬(c.isDigit = true ∧ d.isUpper = true)) :
    splitWords (upper word) = [upper word] := by
  refine splitWords_of_steady nonempty parts fun before c d after hsplit => ?_
  have hsmall : ∀ e ∈ upper word, e.isLower = false := by
    intro e he
    obtain ⟨f, -, rfl⟩ := List.mem_map.1 he
    exact isLower_toUpper f
  rw [List.isChain_iff_forall_rel_of_append_cons_cons] at chain
  rw [← Bool.not_eq_true, beginsWord_iff]
  rintro (⟨-, hc⟩ | ⟨hd, hc⟩ | ⟨-, -, e, he, hlower⟩)
  · simp [hsmall c (by simp [hsplit])] at hc
  · exact chain hsplit ⟨hc, hd⟩
  · have hmem := List.mem_of_mem_head? he
    simp [hsmall e (by simp [hsplit, hmem])] at hlower

theorem upperSnake_idempotent_iff (cs : List Char) :
    convertChars .upperSnake (convertChars .upperSnake cs) = convertChars .upperSnake cs ↔
      cs.IsChain fun c d => ¬(c.isDigit = true ∧ d.isLower = true) := by
  have hwords := fun word => @parts_of_mem_respelled .upperSnake cs word
  constructor
  · intro h
    have hagain := isChain_convertChars_upperSnake (convertChars .upperSnake cs)
    rw [h, isChain_convertChars_upperSnake] at hagain
    refine hagain.2 ?_
    rw [convertChars, isChain_joinSnake_iff _ (by simp) (by simp), List.forall_mem_map]
    intro word _
    rw [upper, List.isChain_map, List.isChain_iff_forall_rel_of_append_cons_cons]
    intro c d before after _
    simp
  · intro h
    have hchain := (isChain_convertChars_upperSnake cs).2 h
    have hwhole : ∀ word ∈ (splitWords cs).map upper, splitWords word = [word] := by
      intro word hword
      rw [convertChars, isChain_joinSnake_iff _ (by simp) (by simp)] at hchain
      obtain ⟨hne, hparts⟩ := hwords word hword
      have hline := hchain word hword
      obtain ⟨old, -, rfl⟩ := List.mem_map.1 hword
      exact splitWords_upper hne hparts hline
    rw [convertChars, convertChars, splitWords_joinSnake_of_whole hwhole, List.map_map]
    simp [Function.comp_def]

/-! ### The laws of conversions -/

/-- A conversion gives a name its casing exactly when the first letter or digit of the name is a letter.
A name that is in a camel casing already is left as it is. -/
theorem isMatch_convert_iff (name : String) :
    (∀ casing : Casing, casing.isMatch (casing.convert name) = true ↔
      ∃ c ∈ name.toList.find? Char.isAlphanum, c.isAlpha = true) ∧
    (upperCamel.isMatch name = true → upperCamel.convert name = name) ∧
    (lowerCamel.isMatch name = true → lowerCamel.convert name = name) := by
  refine ⟨fun casing => ⟨exists_letter_of_isMatch_convert, ?_⟩, fun h => ?_, fun h => ?_⟩
  · rintro ⟨c, hc, halpha⟩
    apply isMatch_convert
    rw [resists, Option.mem_def.1 hc, Option.all_some, isDigit_of_isAlpha halpha]
  · obtain ⟨hstart, hparts⟩ := Bool.and_eq_true_iff.1 h
    rw [convert, convertChars_upperCamel_eq (List.all_eq_true.1 hparts), String.ofList_toList]
    intro c hc
    rw [startsWith, Option.mem_def.1 hc, Option.any_some] at hstart
    exact isLower_of_isUpper hstart
  · obtain ⟨hstart, hparts⟩ := Bool.and_eq_true_iff.1 h
    rw [convert, convertChars_lowerCamel_eq (List.all_eq_true.1 hparts), String.ofList_toList]
    intro c hc
    rw [startsWith, Option.mem_def.1 hc, Option.any_some] at hstart
    exact isUpper_of_isLower hstart

/-- A name in two words, and one in upper camel case with a digit before a small letter. -/
theorem isMatch_convert_iff_camel :
    (lowerSnake.isMatch (lowerSnake.convert "-éHTTP.v2") = true ↔
      ∃ c ∈ "-éHTTP.v2".toList.find? Char.isAlphanum, c.isAlpha = true) ∧
    upperCamel.isMatch "RPCv2x" = true ∧ upperCamel.convert "RPCv2x" = "RPCv2x" ∧
    lowerCamel.isMatch "rpcV2X" = true ∧ lowerCamel.convert "rpcV2X" = "rpcV2X" := by
  have hupper : upperCamel.isMatch "RPCv2x" = true := by decide +kernel
  have hlower : lowerCamel.isMatch "rpcV2X" = true := by decide +kernel
  exact ⟨(isMatch_convert_iff "-éHTTP.v2").1 lowerSnake, hupper,
    (isMatch_convert_iff "RPCv2x").2.1 hupper, hlower, (isMatch_convert_iff "rpcV2X").2.2 hlower⟩

/-- A second conversion in the same casing changes nothing, but for capitals with underscores where the
name has a digit right before a small letter. -/
theorem convert_convert (name : String) :
    upperCamel.convert (upperCamel.convert name) = upperCamel.convert name ∧
    lowerCamel.convert (lowerCamel.convert name) = lowerCamel.convert name ∧
    lowerSnake.convert (lowerSnake.convert name) = lowerSnake.convert name ∧
    (upperSnake.convert (upperSnake.convert name) = upperSnake.convert name ↔
      name.toList.IsChain fun c d => ¬(c.isDigit = true ∧ d.isLower = true)) := by
  have hagain : ∀ casing : Casing, casing.convert (casing.convert name) = casing.convert name ↔
      convertChars casing (convertChars casing name.toList) = convertChars casing name.toList := by
    intro casing
    rw [convert, convert, String.toList_ofList, String.ofList_inj]
  rw [hagain, hagain, hagain, hagain]
  exact ⟨upperCamel_idempotent _, lowerCamel_idempotent _, lowerSnake_idempotent _,
    upperSnake_idempotent_iff _⟩

end SchemaLint.Casing
