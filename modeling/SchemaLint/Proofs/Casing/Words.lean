import SchemaLint.Proofs.Casing.Convert

/-!
# Where words end

The words of an identifier are its letters and digits, cut at every character that is neither and
wherever a capital begins a new word.  Conversions respell the letters of these words and set
underscores between them; they keep every letter and digit, in order.
-/

set_option autoImplicit false
set_option relaxedAutoImplicit false

namespace SchemaLint.Casing

/-! ### One character after the other -/

theorem splitWords_cons_of_not {c : Char} (cs : List Char) (h : c.isAlphanum = false) :
    splitWords (c :: cs) = splitWords cs := by
  rw [splitWords, h, Bool.not_false, if_pos rfl]

theorem splitWords_cons_of_stops {c : Char} {cs : List Char} (h : c.isAlphanum = true)
    (stops : wordGoesOn c cs = false) : splitWords (c :: cs) = [c] :: splitWords cs := by
  rw [splitWords, h, stops]
  rfl

theorem splitWords_cons_of_goesOn {c : Char} {cs : List Char} (h : c.isAlphanum = true)
    (goes_on : wordGoesOn c cs = true) :
    ∃ word words, splitWords cs = word :: words ∧ splitWords (c :: cs) = (c :: word) :: words := by
  cases cs with
  | nil => cases goes_on
  | cons d following =>
    have hd : d.isAlphanum = true := (Bool.and_eq_true_iff.1 goes_on).1
    obtain ⟨word, words, hwords⟩ := @splitWords_cons_of_isAlphanum d following hd
    refine ⟨d :: word, words, hwords, ?_⟩
    rw [splitWords, h, Bool.not_true, if_neg Bool.false_ne_true, if_pos goes_on, hwords]

theorem wordGoesOn_cons_of_not {c d : Char} (following : List Char) (h : d.isAlphanum = false) :
    wordGoesOn c (d :: following) = false := by
  rw [wordGoesOn, h, Bool.false_and]

/-- A text and its words, built up from the end of the text: a delimiter is left out, and a letter or
digit either is a word or goes in front of the first one. -/
inductive Cut : List Char → List (List Char) → Prop
  | nil : Cut [] []
  | delimiter {c : Char} {cs : List Char} {words : List (List Char)} (not_part : c.isAlphanum = false)
      (others : Cut cs words) : Cut (c :: cs) words
  | stops {c : Char} {cs : List Char} {words : List (List Char)} (part : c.isAlphanum = true)
      (stops : wordGoesOn c cs = false) (others : Cut cs words) : Cut (c :: cs) ([c] :: words)
  | joins {c d : Char} {following word : List Char} {words : List (List Char)}
      (part : c.isAlphanum = true) (next : d.isAlphanum = true)
      (joins : beginsWord c d following = false)
      (others : Cut (d :: following) ((d :: word) :: words)) :
      Cut (c :: d :: following) ((c :: d :: word) :: words)

theorem cut_splitWords (cs : List Char) : Cut cs (splitWords cs) := by
  induction cs with
  | nil => exact .nil
  | cons c cs ih =>
    by_cases hc : c.isAlphanum = true
    · by_cases hgoes : wordGoesOn c cs = true
      · obtain ⟨word, words, hsplit, hjoined⟩ := splitWords_cons_of_goesOn hc hgoes
        rw [hjoined]
        rw [hsplit] at ih
        cases cs with
        | nil => cases hgoes
        | cons d following =>
          obtain ⟨hd, hbegins⟩ := Bool.and_eq_true_iff.1 hgoes
          obtain ⟨tail, others, hfirst⟩ := @splitWords_cons_of_isAlphanum d following hd
          obtain ⟨rfl, rfl⟩ := List.cons.inj (hfirst.symm.trans hsplit)
          exact .joins hc hd (by simpa using hbegins) ih
      · rw [splitWords_cons_of_stops hc (by simpa using hgoes)]
        exact .stops hc (by simpa using hgoes) ih
    · rw [splitWords_cons_of_not _ (by simpa using hc)]
      exact .delimiter (by simpa using hc) ih

theorem beginsWord_iff {before c : Char} {following : List Char} :
    beginsWord before c following = true ↔ c.isUpper = true ∧ before.isLower = true ∨
      c.isUpper = true ∧ before.isDigit = true ∨
      c.isUpper = true ∧ before.isUpper = true ∧ ∃ e ∈ following.head?, e.isLower = true := by
  simp only [beginsWord, Bool.and_eq_true, Bool.or_eq_true, Option.any_eq_true, and_or_left,
    or_assoc, Option.mem_def]

/-! ### Which letters share a word -/

/-- The number of the word into which a letter falls, when the letters of all words are counted
through. -/
def wordOf : List (List Char) → Nat → Nat
  | [], _ => 0
  | word :: words, n => if n < word.length then 0 else wordOf words (n - word.length) + 1

theorem wordOf_cons_cons (c : Char) (word : List Char) (words : List (List Char)) (n : Nat) :
    wordOf ((c :: word) :: words) (n + 1) = wordOf (word :: words) n := by
  simp only [wordOf, List.length_cons, Nat.add_lt_add_iff_right, Nat.add_sub_add_right]

theorem wordOf_singleton_cons (c : Char) (words : List (List Char)) (n : Nat) :
    wordOf ([c] :: words) (n + 1) = wordOf words n + 1 := by
  simp [wordOf]

theorem wordOf_splitWords_append (before cs : List Char) (n m : Nat) :
    wordOf (splitWords (before ++ cs)) ((before.filter Char.isAlphanum).length + n) =
        wordOf (splitWords (before ++ cs)) ((before.filter Char.isAlphanum).length + m) ↔
      wordOf (splitWords cs) n = wordOf (splitWords cs) m := by
  induction before with
  | nil => simp
  | cons b before ih =>
    rw [← ih, List.cons_append]
    by_cases hb : b.isAlphanum = true
    · rw [List.filter_cons_of_pos hb, List.length_cons, Nat.add_right_comm _ 1, Nat.add_right_comm _ 1]
      by_cases hgoes : wordGoesOn b (before ++ cs) = true
      · obtain ⟨word, words, hsplit, hjoined⟩ := splitWords_cons_of_goesOn hb hgoes
        rw [hjoined, hsplit, wordOf_cons_cons, wordOf_cons_cons]
      · rw [splitWords_cons_of_stops hb (by simpa using hgoes), wordOf_singleton_cons,
          wordOf_singleton_cons, Nat.add_right_cancel_iff]
    · rw [List.filter_cons_of_neg hb, splitWords_cons_of_not _ (by simpa using hb)]

theorem wordOf_splitWords_cons {c : Char} {cs : List Char} (h : c.isAlphanum = true) :
    wordOf (splitWords (c :: cs)) 0 = wordOf (splitWords (c :: cs)) 1 ↔ wordGoesOn c cs = true := by
  by_cases hgoes : wordGoesOn c cs = true
  · obtain ⟨word, words, hsplit, hjoined⟩ := splitWords_cons_of_goesOn h hgoes
    have hword : word ≠ [] := ne_nil_of_mem_splitWords (by rw [hsplit]; exact List.mem_cons_self)
    have hlength := List.length_pos_iff.2 hword
    simp [hjoined, hgoes, wordOf, hlength]
  · rw [splitWords_cons_of_stops h (by simpa using hgoes)]
    simp [wordOf, hgoes]

theorem wordOf_splitWords_ne_iff {before gap after : List Char} {c d : Char}
    (hc : c.isAlphanum = true) (hd : d.isAlphanum = true)
    (hgap : ∀ g ∈ gap, g.isAlphanum = false) :
    wordOf (splitWords (before ++ c :: (gap ++ d :: after)))
          (before.filter Char.isAlphanum).length ≠
        wordOf (splitWords (before ++ c :: (gap ++ d :: after)))
          ((before.filter Char.isAlphanum).length + 1) ↔
      gap ≠ [] ∨ beginsWord c d after = true := by
  have hshift := wordOf_splitWords_append before (c :: (gap ++ d :: after)) 0 1
  rw [Nat.add_zero] at hshift
  rw [ne_eq, hshift, wordOf_splitWords_cons hc]
  cases gap with
  | nil => simp [wordGoesOn, hd]
  | cons g gap =>
    rw [List.cons_append, wordGoesOn_cons_of_not _ (hgap g List.mem_cons_self)]
    simp

/-! ### What conversions keep -/

def respelled : Casing → List Char → List (List Char)
  | .upperCamel, cs => (camelWords cs).map capitalize
  | .lowerCamel, cs =>
    match camelWords cs with
    | [] => []
    | first :: others => decapitalize first :: others.map capitalize
  | .lowerSnake, cs => (splitWords cs).map lower
  | .upperSnake, cs => (splitWords cs).map upper

@[simp] theorem lower_lower (word : List Char) : lower (lower word) = lower word := by
  simp [lower]

@[simp] theorem lower_upper (word : List Char) : lower (upper word) = lower word := by
  simp [lower, upper]

@[simp] theorem upper_upper (word : List Char) : upper (upper word) = upper word := by
  simp [upper]

@[simp] theorem lower_capitalize (word : List Char) : lower (capitalize word) = lower word := by
  cases word <;> simp [lower, capitalize]

@[simp] theorem lower_decapitalize (word : List Char) : lower (decapitalize word) = lower word := by
  cases word with
  | nil => rfl
  | cons c cs =>
    rw [decapitalize]
    split
    · simp [lower]
    · exact lower_lower _

theorem map_lower_camelWords (cs : List Char) :
    (camelWords cs).map lower = (splitWords cs).map lower := by
  unfold camelWords
  split
  · simp
  · rfl

theorem map_lower_respelled (casing : Casing) (cs : List Char) :
    (respelled casing cs).map lower = (splitWords cs).map lower := by
  rw [← map_lower_camelWords]
  cases casing with
  | upperCamel => simp [respelled]
  | lowerCamel =>
    rw [respelled]
    split <;> simp [*]
  | lowerSnake => simp [respelled, map_lower_camelWords]
  | upperSnake => simp [respelled, map_lower_camelWords]

theorem lower_flatten_respelled (casing : Casing) (cs : List Char) :
    lower (respelled casing cs).flatten = lower (cs.filter Char.isAlphanum) := by
  rw [← flatten_splitWords]
  simp only [lower, List.map_flatten]
  exact congrArg List.flatten (map_lower_respelled casing cs)

theorem joinSnake_cons_cons (word next : List Char) (words : List (List Char)) :
    joinSnake (word :: next :: words) = word ++ '_' :: joinSnake (next :: words) := by
  simp [joinSnake, List.intercalate_cons_cons]

theorem filter_joinSnake (words : List (List Char)) :
    (joinSnake words).filter (· ≠ '_') = words.flatten.filter (· ≠ '_') := by
  induction words with
  | nil => rfl
  | cons word words ih =>
    cases words with
    | nil => simp [joinSnake]
    | cons next words =>
      rw [joinSnake_cons_cons, List.flatten_cons, List.filter_append, List.filter_append, ← ih,
        List.filter_cons_of_neg (by simp)]

theorem filter_convertChars (casing : Casing) (cs : List Char) :
    (convertChars casing cs).filter (· ≠ '_') = (respelled casing cs).flatten.filter (· ≠ '_') := by
  cases casing with
  | upperCamel => rfl
  | lowerCamel =>
    rw [convertChars, respelled]
    cases camelWords cs <;> rfl
  | lowerSnake => exact filter_joinSnake _
  | upperSnake => exact filter_joinSnake _

theorem lower_filter (cs : List Char) :
    lower (cs.filter (· ≠ '_')) = (lower cs).filter (· ≠ '_') := by
  have hsame : ∀ c : Char, c.toLower = '_' ↔ c = '_' := by
    intro c
    constructor
    · intro h
      have hlower := isLower_toLower c
      rw [h] at hlower
      have hupper : c.isUpper = false := (Bool.or_eq_false_iff.1 hlower.symm).1
      rw [← h, (toLower_eq_self_iff c).2 hupper]
    · rintro rfl
      rfl
  simp [lower, List.filter_map, Function.comp_def, hsame]

theorem lower_filter_convert (casing : Casing) (name : String) :
    lower ((casing.convert name).toList.filter (· ≠ '_')) =
      lower (name.toList.filter Char.isAlphanum) := by
  have hletters : (name.toList.filter Char.isAlphanum).filter (· ≠ '_') =
      name.toList.filter Char.isAlphanum := by
    refine List.filter_eq_self.2 fun c hc => ?_
    have halnum := (List.mem_filter.1 hc).2
    simp only [decide_eq_true_eq]
    rintro rfl
    exact absurd halnum (by decide)
  calc lower ((casing.convert name).toList.filter (· ≠ '_'))
      = lower ((respelled casing name.toList).flatten.filter (· ≠ '_')) := by
        rw [convert, String.toList_ofList, filter_convertChars]
    _ = lower ((name.toList.filter Char.isAlphanum).filter (· ≠ '_')) := by
        rw [lower_filter, lower_filter, lower_flatten_respelled]
    _ = lower (name.toList.filter Char.isAlphanum) := by rw [hletters]

/-- The words of a name are its letters and digits.  A word ends at every other character, before a
capital behind a small letter or a digit, and before the last capital of a run when a small letter
follows; it ends nowhere else.  Every conversion keeps these letters and digits in their order. -/
theorem words_exact (name : String) :
    (∀ word ∈ splitWords name.toList, word ≠ [] ∧ ∀ c ∈ word, c.isAlphanum = true) ∧
    (splitWords name.toList).flatten = name.toList.filter Char.isAlphanum ∧
    (∀ before c gap d after, name.toList = before ++ c :: (gap ++ d :: after) →
      c.isAlphanum = true → d.isAlphanum = true → (∀ g ∈ gap, g.isAlphanum = false) →
      (wordOf (splitWords name.toList) (before.filter Char.isAlphanum).length ≠
          wordOf (splitWords name.toList) ((before.filter Char.isAlphanum).length + 1) ↔
        gap ≠ [] ∨ d.isUpper = true ∧ c.isLower = true ∨ d.isUpper = true ∧ c.isDigit = true ∨
          d.isUpper = true ∧ c.isUpper = true ∧ ∃ e ∈ after.head?, e.isLower = true)) ∧
    ∀ casing : Casing, lower ((casing.convert name).toList.filter (· ≠ '_')) =
      lower (name.toList.filter Char.isAlphanum) := by
  refine ⟨fun word hword => ⟨ne_nil_of_mem_splitWords hword, isAlphanum_of_mem_splitWords hword⟩,
    flatten_splitWords _, fun before c gap d after hname hc hd hgap => ?_,
    fun casing => lower_filter_convert casing name⟩
  rw [hname, wordOf_splitWords_ne_iff hc hd hgap, beginsWord_iff]

/-- A run of capitals gives its last one to the next word; letters with marks and points only part
words. -/
theorem words_exact_acronym :
    let name := "HTTPServer_v2.éX"
    name.toList = "HTT".toList ++ 'P' :: ([] ++ 'S' :: "erver_v2.éX".toList) ∧
      (wordOf (splitWords name.toList) 3 ≠ wordOf (splitWords name.toList) 4 ↔
        ([] : List Char) ≠ [] ∨ 'S'.isUpper = true ∧ 'P'.isLower = true ∨
          'S'.isUpper = true ∧ 'P'.isDigit = true ∨
          'S'.isUpper = true ∧ 'P'.isUpper = true ∧
            ∃ e ∈ ("erver_v2.éX".toList).head?, e.isLower = true) ∧
      splitWords name.toList = ["HTTP".toList, "Server".toList, "v2".toList, "X".toList] := by
  intro name
  have hname : name.toList = "HTT".toList ++ 'P' :: ([] ++ 'S' :: "erver_v2.éX".toList) := by
    decide +kernel
  have hcut := (words_exact name).2.2.1 _ 'P' [] 'S' _ hname (by decide) (by decide) (by simp)
  exact ⟨hname, hcut, by decide +kernel⟩

end SchemaLint.Casing
