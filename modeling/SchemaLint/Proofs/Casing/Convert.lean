import SchemaLint.Casing
import SchemaLint.Proofs.Casing.Letter

/-!
# Converted identifiers

An identifier in some casing is an identifier.  A conversion gives one, unless the name has no
letters and digits or begins with a digit.
-/

set_option autoImplicit false
set_option relaxedAutoImplicit false

namespace SchemaLint.Casing

/-- Whether no casing can be given to a name: its first letter or digit, if it has any, is a
digit. -/
def resists (name : String) : Bool :=
  (name.toList.find? Char.isAlphanum).all Char.isDigit

private theorem isWordPart_of_isUpper_or {c : Char}
    (h : (c.isUpper || c.isDigit || c = '_') = true) : Scan.isWordPart c = true := by
  simp only [Bool.or_eq_true, decide_eq_true_eq] at h
  rcases h with (h | h) | rfl <;> simp [Scan.isWordPart, Char.isAlphanum, Scan.isAlpha_eq, *]

private theorem isWordPart_of_isLower_or {c : Char}
    (h : (c.isLower || c.isDigit || c = '_') = true) : Scan.isWordPart c = true := by
  simp only [Bool.or_eq_true, decide_eq_true_eq] at h
  rcases h with (h | h) | rfl <;> simp [Scan.isWordPart, Char.isAlphanum, Scan.isAlpha_eq, *]

private theorem isIdentifier_of_startsWith {test part : Char → Bool} {cs : List Char}
    (start : ∀ c, test c = true → c.isAlpha = true)
    (parts : ∀ c, part c = true → Scan.isWordPart c = true)
    (h : (startsWith test cs && cs.all part) = true) : Scan.isIdentifier cs = true := by
  cases cs with
  | nil => simp [startsWith] at h
  | cons c cs =>
    obtain ⟨hc, -, hcs⟩ : test c = true ∧ part c = true ∧ ∀ d ∈ cs, part d = true := by
      simpa [startsWith] using h
    have hword : Scan.isWordStart c = true := by simp [Scan.isWordStart, start c hc]
    simpa [Scan.isIdentifier, hword] using fun d hd => parts d (hcs d hd)

theorem isIdentifier_of_isMatch {casing : Casing} {name : String}
    (h : casing.isMatch name = true) : Scan.isIdentifier name.toList = true := by
  have upper : ∀ c : Char, c.isUpper = true → c.isAlpha = true := by simp +contextual [Scan.isAlpha_eq]
  have lower : ∀ c : Char, c.isLower = true → c.isAlpha = true := by simp +contextual [Scan.isAlpha_eq]
  have part : ∀ c : Char, c.isAlphanum = true → Scan.isWordPart c = true := by
    simp +contextual [Scan.isWordPart]
  cases casing with
  | upperCamel => exact isIdentifier_of_startsWith upper part h
  | lowerCamel => exact isIdentifier_of_startsWith lower part h
  | lowerSnake => exact isIdentifier_of_startsWith lower (fun _ => isWordPart_of_isLower_or) h
  | upperSnake => exact isIdentifier_of_startsWith upper (fun _ => isWordPart_of_isUpper_or) h

private theorem splitWords_cons {c : Char} (cs : List Char) (h : c.isAlphanum = true) :
    (splitWords (c :: cs)).flatten = c :: (splitWords cs).flatten := by
  simp only [splitWords, h, Bool.not_true, Bool.false_eq_true, if_false]
  split
  · split
    · rename_i hnil
      simp [hnil]
    · rename_i hwords
      simp [hwords]
  · simp

theorem flatten_splitWords (cs : List Char) :
    (splitWords cs).flatten = cs.filter Char.isAlphanum := by
  induction cs with
  | nil => rfl
  | cons c cs ih =>
    by_cases hc : c.isAlphanum = true
    · rw [splitWords_cons cs hc, ih, List.filter_cons_of_pos hc]
    · rw [List.filter_cons_of_neg hc, ← ih]
      simp [splitWords, hc]

theorem isAlphanum_of_mem_splitWords {cs word : List Char} (h : word ∈ splitWords cs) :
    ∀ c ∈ word, c.isAlphanum = true := by
  intro c hc
  have hmem : c ∈ (splitWords cs).flatten := List.mem_flatten.2 ⟨word, h, hc⟩
  rw [flatten_splitWords] at hmem
  exact (List.mem_filter.1 hmem).2

structure Words (words : List (List Char)) : Prop where
  nonempty : ∀ word ∈ words, word ≠ []
  parts : ∀ word ∈ words, ∀ c ∈ word, c.isAlphanum = true
  letter : ∃ c word others, words = (c :: word) :: others ∧ c.isAlpha = true

theorem words_of_resists {name : String} (h : resists name = false) :
    Words (splitWords name.toList) := by
  refine ⟨fun _ => ne_nil_of_mem_splitWords, fun _ => isAlphanum_of_mem_splitWords, ?_⟩
  rw [resists, ← List.head?_filter, ← flatten_splitWords] at h
  cases hwords : splitWords name.toList with
  | nil => simp [hwords] at h
  | cons first others =>
    have hfirst : first ∈ splitWords name.toList := by simp [hwords]
    obtain ⟨c, word, rfl⟩ := List.exists_cons_of_ne_nil (ne_nil_of_mem_splitWords hfirst)
    refine ⟨c, word, others, rfl, ?_⟩
    rcases Bool.or_eq_true_iff.1 (isAlphanum_of_mem_splitWords hfirst c (by simp)) with hc | hc
    · exact hc
    · simp [hwords, hc] at h

namespace Words

variable {words : List (List Char)}

theorem lower (h : Words words) : Words (words.map Casing.lower) where
  nonempty := by simpa [Casing.lower] using h.nonempty
  parts := by
    intro word hword c hc
    obtain ⟨old, hold, rfl⟩ := List.mem_map.1 hword
    obtain ⟨d, hd, rfl⟩ := List.mem_map.1 hc
    exact (isAlphanum_toLower d).trans (h.parts old hold d hd)
  letter := by
    obtain ⟨c, word, others, rfl, hc⟩ := h.letter
    refine ⟨c.toLower, Casing.lower word, others.map Casing.lower, rfl, ?_⟩
    simp [Scan.isAlpha_eq c.toLower, hc]

private theorem isAlphanum_capitalize (h : ∀ word ∈ words, ∀ c ∈ word, c.isAlphanum = true) :
    ∀ c ∈ (words.map capitalize).flatten, c.isAlphanum = true := by
  intro c hc
  obtain ⟨word', hword', hc⟩ := List.mem_flatten.1 hc
  obtain ⟨word, hword, rfl⟩ := List.mem_map.1 hword'
  cases word with
  | nil => simp [capitalize] at hc
  | cons d ds =>
    rcases List.mem_cons.1 hc with rfl | hc
    · exact (isAlphanum_toUpper d).trans (h _ hword d (by simp))
    · exact h _ hword c (by simp [hc])

theorem isUpperCamel (h : Words words) : isUpperCamel (words.map capitalize).flatten = true := by
  have hparts := isAlphanum_capitalize h.parts
  obtain ⟨c, word, others, rfl, hc⟩ := h.letter
  have hstart : startsWith Char.isUpper ((((c :: word) :: others).map capitalize).flatten) = true :=
    (isUpper_toUpper c).trans hc
  unfold Casing.isUpperCamel
  rw [hstart, Bool.true_and, List.all_eq_true]
  exact hparts

theorem isLowerCamel (h : Words words) {first : List Char} {others : List (List Char)}
    (split : words = first :: others) :
    isLowerCamel (decapitalize first ++ (others.map capitalize).flatten) = true := by
  obtain ⟨c, word, others', hwords, hc⟩ := h.letter
  obtain ⟨rfl, rfl⟩ : first = c :: word ∧ others = others' := by simpa [split] using hwords
  have hfirst := h.parts (c :: word) (by simp [split])
  have hothers : ∀ d ∈ (others.map capitalize).flatten, d.isAlphanum = true :=
    isAlphanum_capitalize fun w hw => h.parts w (by simp [split, hw])
  obtain ⟨tail, hdecap, htail⟩ : ∃ tail, decapitalize (c :: word) = c.toLower :: tail ∧
      ∀ d ∈ tail, d.isAlphanum = true := by
    by_cases hsmall : (c :: word).any Char.isLower = true
    · exact ⟨word, if_pos hsmall, fun d hd => hfirst d (by simp [hd])⟩
    · refine ⟨word.map Char.toLower, if_neg hsmall, fun d hd => ?_⟩
      obtain ⟨e, he, rfl⟩ := List.mem_map.1 hd
      exact (isAlphanum_toLower e).trans (hfirst e (by simp [he]))
  have hlower := (isLower_toLower c).trans hc
  have hhead := (isAlphanum_toLower c).trans (hfirst c (by simp))
  rw [hdecap]
  simp only [Casing.isLowerCamel, startsWith, List.cons_append, List.head?_cons, Option.any_some,
    hlower, Bool.true_and, List.all_cons, hhead, List.all_append, Bool.and_eq_true,
    List.all_eq_true]
  exact ⟨htail, hothers⟩

private theorem mem_joinSnake {words : List (List Char)} {c : Char} (h : c ∈ joinSnake words) :
    c = '_' ∨ ∃ word ∈ words, c ∈ word := by
  induction words with
  | nil => simp [joinSnake] at h
  | cons word words ih =>
    cases words with
    | nil => exact .inr ⟨word, by simp, by simpa [joinSnake] using h⟩
    | cons next words =>
      rw [joinSnake, List.intercalate_cons_cons, List.mem_append, List.mem_append] at h
      rcases h with (h | h) | h
      · exact .inr ⟨word, by simp, h⟩
      · exact .inl (by simpa using h)
      · rcases ih h with he | ⟨w, hw, hc⟩
        · exact .inl he
        · exact .inr ⟨w, by simp [hw], hc⟩

private theorem joinSnake_matches {f : Char → Char} {test : Char → Bool} (h : Words words)
    (letters : ∀ c : Char, c.isAlpha = true → test (f c) = true)
    (parts : ∀ c : Char, c.isAlphanum = true → (test (f c) || (f c).isDigit) = true) :
    (startsWith test (joinSnake (words.map (List.map f))) &&
      (joinSnake (words.map (List.map f))).all fun c => test c || c.isDigit || c = '_') = true := by
  have hstart : startsWith test (joinSnake (words.map (List.map f))) = true := by
    obtain ⟨c, word, others, rfl, hc⟩ := h.letter
    cases others with
    | nil => simpa [joinSnake, startsWith] using letters c hc
    | cons o os =>
      rw [joinSnake, List.map_cons, List.map_cons, List.map_cons, List.intercalate_cons_cons]
      exact letters c hc
  rw [hstart, Bool.true_and, List.all_eq_true]
  intro d hd
  rcases mem_joinSnake hd with rfl | ⟨word', hword', hd⟩
  · simp
  · obtain ⟨word, hword, rfl⟩ := List.mem_map.1 hword'
    obtain ⟨c, hc, rfl⟩ := List.mem_map.1 hd
    rw [parts c (h.parts word hword c hc), Bool.true_or]

theorem isLowerSnake (h : Words words) :
    isLowerSnake (joinSnake (words.map Casing.lower)) = true := by
  refine joinSnake_matches h (fun c hc => (isLower_toLower c).trans hc) fun c hc => ?_
  rw [isLower_toLower, isDigit_toLower]
  exact hc

theorem isUpperSnake (h : Words words) :
    isUpperSnake (joinSnake (words.map Casing.upper)) = true := by
  refine joinSnake_matches h (fun c hc => (isUpper_toUpper c).trans hc) fun c hc => ?_
  rw [isUpper_toUpper, isDigit_toUpper]
  exact hc

end Words

theorem isMatch_convert (casing : Casing) {name : String} (h : resists name = false) :
    casing.isMatch (casing.convert name) = true := by
  have hwords := words_of_resists h
  have hcamel : Words (camelWords name.toList) := by
    unfold camelWords
    split
    · exact hwords.lower
    · exact hwords
  unfold isMatch convert
  rw [String.toList_ofList]
  cases casing with
  | upperCamel => exact hcamel.isUpperCamel
  | lowerCamel =>
    obtain ⟨c, word, others, hsplit, -⟩ := hcamel.letter
    have hmatch := hcamel.isLowerCamel hsplit
    simpa only [matchesChars, convertChars, hsplit] using hmatch
  | lowerSnake => exact hwords.isLowerSnake
  | upperSnake => exact hwords.isUpperSnake

theorem isIdentifier_lower {cs : List Char} (h : Scan.isIdentifier cs = true) :
    Scan.isIdentifier (lower cs) = true := by
  have start : ∀ c : Char, Scan.isWordStart c = true → Scan.isWordStart c.toLower = true := by
    intro c hc
    rcases (by simpa [Scan.isWordStart] using hc : c.isAlpha = true ∨ c = '_') with h | rfl
    · simp [Scan.isWordStart, Scan.isAlpha_eq c.toLower, h]
    · decide
  have part : ∀ c : Char, Scan.isWordPart c = true → Scan.isWordPart c.toLower = true := by
    intro c hc
    rcases (by simpa [Scan.isWordPart] using hc : c.isAlphanum = true ∨ c = '_') with h | rfl
    · simp [Scan.isWordPart, h]
    · decide
  cases cs with
  | nil => simp [Scan.isIdentifier] at h
  | cons c cs =>
    obtain ⟨hc, hcs⟩ : Scan.isWordStart c = true ∧ ∀ d ∈ cs, Scan.isWordPart d = true := by
      simpa [Scan.isIdentifier] using h
    simpa [lower, Scan.isIdentifier, start c hc] using fun d hd => part d (hcs d hd)

theorem ne_of_isUpperSnake {name word : String} (h : upperSnake.isMatch name = true)
    (small : word.toList.head?.any Char.isUpper = false) : name ≠ word := by
  rintro rfl
  have hstart : startsWith Char.isUpper name.toList = true := (Bool.and_eq_true_iff.1 h).1
  rw [startsWith, small] at hstart
  exact absurd hstart (by simp)

end SchemaLint.Casing
