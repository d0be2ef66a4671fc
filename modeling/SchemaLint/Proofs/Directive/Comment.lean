import SchemaLint.Proofs.Directive.Content
import SchemaLint.Proofs.Directive.Shield
import SchemaLint.Proofs.Outcome
import SchemaLint.Proofs.Token.Comment

/-!
# Directives and comments

Directives are looked for line by line, behind the first two slashes, and no token is read for that.
Where these slashes begin a comment, the directives are those of the comments; where they stand in a
string or in a block, they are not.
-/

set_option autoImplicit false
set_option relaxedAutoImplicit false

namespace SchemaLint

open Lexeme (Seam)

namespace Directive

/-- A text that is cut around the first two slashes on one of its lines. -/
structure FirstSlashes (text : List Char) (line : Nat) (front rest : List Char) : Prop where
  whole : text = front ++ '/' :: '/' :: rest
  line : line = 1 + front.count '\n'
  first : ¬['/', '/'] <:+: Text.lastPiece '\n' front ++ ['/']

/-- Whether the first two slashes on a line, if it has any, begin a comment. -/
def Clear (text : List Char) (line : Nat) : Prop :=
  ∀ front rest, FirstSlashes text line front rest → Seam front ('/' :: '/' :: rest)

theorem any_covered_eq (ruleId : String) (text : List Char) (n : Nat) :
    ((covered ruleId text)[n]?).any id = ((Text.splitOn '\n' text)[n]?).any (lineCovers ruleId) := by
  have hreturn : ∀ line, lineCovers ruleId (Text.dropReturn line) = lineCovers ruleId line := by
    intro line
    unfold lineCovers ofLine?
    rw [Text.trim_dropReturn]
  have hempty : lineCovers ruleId [] = false := rfl
  obtain ⟨init, last, hsplit⟩ : ∃ init last, Text.splitOn '\n' text = init ++ [last] :=
    ⟨_, _, (List.dropLast_concat_getLast (Text.splitOn_ne_nil '\n' text)).symm⟩
  have hcovered : covered ruleId text = init.map (lineCovers ruleId) ++
      if last = [] then [] else [lineCovers ruleId last] := by
    unfold covered
    rw [Text.lines_eq hsplit, List.map_append, List.map_map]
    congr 1
    · exact List.map_congr_left fun line _ => hreturn line
    · split <;> rfl
  rw [hcovered, hsplit]
  by_cases hn : n < init.length
  · rw [List.getElem?_append_left (by simpa using hn), List.getElem?_append_left hn,
      List.getElem?_map]
    cases init[n]? <;> rfl
  · have hle : init.length ≤ n := by omega
    rw [List.getElem?_append_right (by simpa using hle), List.getElem?_append_right hle,
      List.length_map]
    split
    · rename_i hlast
      cases n - init.length <;> simp [hlast, hempty]
    · cases n - init.length <;> simp

private theorem exists_firstSlashes {text before content : List Char} {n : Nat}
    (piece : (Text.splitOn '\n' text)[n]? = some (before ++ '/' :: '/' :: content))
    (first : ¬['/', '/'] <:+: before ++ ['/']) :
    ∃ front rest, FirstSlashes text (n + 1) front rest ∧ rest.takeWhile (· ≠ '\n') = content := by
  have hsingle := Text.not_mem_of_mem_splitOn (List.mem_of_getElem? piece)
  obtain ⟨above, below, rfl, hbegins, hcount, hends⟩ := Text.exists_of_getElem?_splitOn piece
  have hbefore : '\n' ∉ before := fun h => hsingle (List.mem_append_left _ h)
  have hcontent : '\n' ∉ content := fun h => hsingle (by simp [h])
  refine ⟨above ++ before, content ++ below, ⟨by simp, ?_, ?_⟩, (Scan.line_cut hcontent hends).1⟩
  · rw [List.count_append, hcount, List.count_eq_zero.2 hbefore]
    omega
  · rwa [Text.lastPiece_append hbefore hbegins]

private theorem getElem?_splitOn_slashes (front rest : List Char) :
    (Text.splitOn '\n' (front ++ '/' :: '/' :: rest))[front.count '\n']? =
      some (Text.lastPiece '\n' front ++ '/' :: '/' :: rest.takeWhile (· ≠ '\n')) := by
  rw [Text.getElem?_splitOn_append]
  rfl

theorem any_directiveAt_iff {text ruleId : String} {line : Nat} :
    ((Allowances.scan text).directiveAt line).any (·.covers ruleId) = true ↔
      ∃ front rest, FirstSlashes text.toList line front rest ∧
        Directs (rest.takeWhile (· ≠ '\n')) ruleId := by
  cases line with
  | zero =>
    refine iff_of_false nofun ?_
    rintro ⟨front, rest, hslashes, -⟩
    have := hslashes.line
    omega
  | succ n =>
    rw [Allowances.any_directiveAt_scan, any_covered_eq, Option.any_eq_true]
    constructor
    · rintro ⟨piece, hpiece, hcovers⟩
      obtain ⟨before, content, rfl, hfirst, hdirects⟩ := lineCovers_iff.1 hcovers
      obtain ⟨front, rest, hslashes, rfl⟩ := exists_firstSlashes hpiece hfirst
      exact ⟨front, rest, hslashes, hdirects⟩
    · rintro ⟨front, rest, ⟨hwhole, hline, hfirst⟩, hdirects⟩
      obtain rfl : n = front.count '\n' := by omega
      rw [hwhole]
      exact ⟨_, getElem?_splitOn_slashes front rest, lineCovers_iff.2 ⟨_, _, rfl, hfirst, hdirects⟩⟩

theorem Clear.firstSlashes_iff {text : List Char} {line : Nat} (clear : Clear text line)
    {content : List Char} : (∃ front rest, FirstSlashes text line front rest ∧
      rest.takeWhile (· ≠ '\n') = content) ↔ LineComment text line content := by
  constructor
  · rintro ⟨front, rest, hslashes, rfl⟩
    have hseam := clear front rest hslashes
    have hcut := List.takeWhile_append_dropWhile (p := (· ≠ '\n')) (l := rest)
    refine ⟨front, rest.dropWhile (· ≠ '\n'), ?_, ?_, ?_, hslashes.line⟩
    · rw [hcut]
      exact hslashes.whole
    · rw [hcut]
      exact hseam
    · exact .line (Scan.newline_notMem_takeWhile rest) (Scan.dropWhile_line rest)
  · rintro ⟨front, after, rfl, hseam, hcomment, hline⟩
    obtain ⟨hsingle, hends⟩ : '\n' ∉ content ∧ (after = [] ∨ ∃ below, after = '\n' :: below) := by
      cases hcomment with
      | line single ends => exact ⟨single, ends⟩
    have hpiece := getElem?_splitOn_slashes front (content ++ after)
    have hsome : Text.cutAround? ['/', '/'] (Text.lastPiece '\n' front ++
        '/' :: '/' :: (content ++ after).takeWhile (· ≠ '\n')) ≠ none := by
      rw [Ne, Text.cutAround?_eq_none_iff (by simp), not_not]
      exact ⟨Text.lastPiece '\n' front, (content ++ after).takeWhile (· ≠ '\n'), by simp⟩
    obtain ⟨⟨before, found⟩, hcut⟩ := Option.ne_none_iff_exists'.1 hsome
    obtain ⟨hwhole, hfirst⟩ := (Text.cutAround?_eq_some_iff (by simp)).1 hcut
    rw [hwhole] at hpiece
    obtain ⟨front', rest', hslashes, htake⟩ := exists_firstSlashes hpiece hfirst
    rw [Nat.add_comm, ← hline] at hslashes
    have hrest : content ++ after = rest' :=
      hseam.rest_eq (clear front' rest' hslashes) hslashes.whole (by
        have := hslashes.line
        omega)
    refine ⟨front', rest', hslashes, ?_⟩
    rw [← hrest, (Scan.line_cut hsingle hends).1]

/-- Where the first two slashes on a line and on the line before begin comments, a rule is allowed at
the line exactly when one of these comments directs so. -/
theorem check_ne_denied_iff_comment {text ruleId : String} {line : Nat}
    (above : Clear text.toList (line - 1)) (here : Clear text.toList line) :
    (Allowances.scan text).check line ruleId ≠ .denied ↔
      ∃ k content, (k + 1 = line ∨ k = line) ∧ LineComment text.toList k content ∧
        Directs content ruleId := by
  have hdirective : ∀ k, Clear text.toList k →
      (((Allowances.scan text).directiveAt k).any (·.covers ruleId) = true ↔
        ∃ content, LineComment text.toList k content ∧ Directs content ruleId) := by
    intro k hclear
    simp only [any_directiveAt_iff, ← hclear.firstSlashes_iff]
    grind
  have hpositive : ∀ k content, LineComment text.toList k content → 0 < k := by
    rintro k content ⟨front, after, -, -, -, rfl⟩
    omega
  rw [Allowances.check_ne_denied_iff, hdirective _ above, hdirective _ here]
  constructor
  · rintro (⟨content, hcomment, hdirects⟩ | ⟨content, hcomment, hdirects⟩)
    · have := hpositive _ _ hcomment
      exact ⟨line - 1, content, .inl (by omega), hcomment, hdirects⟩
    · exact ⟨line, content, .inr rfl, hcomment, hdirects⟩
  · rintro ⟨k, content, rfl | rfl, hcomment, hdirects⟩
    · exact .inl ⟨content, by simpa using hcomment, hdirects⟩
    · exact .inr ⟨content, hcomment, hdirects⟩

private theorem eq_take_drop {text front rest : List Char} {n : Nat}
    (only : ∀ i < text.length, (text.drop i).take 2 = ['/', '/'] → i = n)
    (whole : text = front ++ '/' :: '/' :: rest) :
    front = text.take n ∧ '/' :: '/' :: rest = text.drop n := by
  have hlength : front.length < text.length := by
    rw [whole]
    simp
  have hn : front.length = n := by
    refine only _ hlength ?_
    rw [whole, List.drop_left]
    rfl
  rw [← hn, whole, List.take_left, List.drop_left]
  exact ⟨rfl, rfl⟩

private theorem seam_take {text : List Char} (n place : Nat)
    (front : Lexeme.spelled ((Lexer.start "" text).read.lexemes.take n) ++ [' '] = text.take place) :
    Seam (text.take place) (text.drop place) := by
  have hread : (Lexer.start "" text).read = ⟨(Lexer.start "" text).read.lexemes.take n ++
      (Lexer.start "" text).read.lexemes.drop n, (Lexer.start "" text).read.fault⟩ := by
    rw [List.take_append_drop]
  have hwhole : text = Lexeme.spelled ((Lexer.start "" text).read.lexemes.take n) ++
      ([' '] ++ text.drop place) := by
    rw [← List.append_assoc, front, List.take_append_drop]
  rw [← front]
  exact Lexeme.seam_of_read hread hwhole (.cons (.blank (by decide)) .nil)

/-- A directive behind a declaration, seen from the next line. -/
theorem check_ne_denied_iff_comment_trailing :
    let text := "message a \x7b\x7d // proto-lint: allow(A)\nmessage b \x7b\x7d\n"
    Clear text.toList 1 ∧ Clear text.toList 2 ∧ ∃ k content, (k + 1 = 2 ∨ k = 2) ∧
      LineComment text.toList k content ∧ Directs content "A" := by
  intro text
  have honly : ∀ i < text.toList.length, (text.toList.drop i).take 2 = ['/', '/'] → i = 13 := by
    decide +kernel
  have hclear : ∀ line, Clear text.toList line := by
    intro line front rest hslashes
    obtain ⟨rfl, hrest⟩ := eq_take_drop honly hslashes.whole
    rw [hrest]
    exact seam_take 4 13 (by decide +kernel)
  exact ⟨hclear 1, hclear 2, (check_ne_denied_iff_comment (hclear 1) (hclear 2)).1 (by decide +kernel)⟩

/-- Two slashes in a string hide the comment behind it, and a string with a directive in it counts. -/
theorem check_of_slashes_in_string :
    (let text := "option a = \"http://x\"; // proto-lint: allow(A)\n"
     (∃ ts, tokenize "a.proto" text.toList = .ok ts) ∧
      (Allowances.scan text).check 1 "A" = .denied ∧
      LineComment text.toList 1 " proto-lint: allow(A)".toList ∧
      Directs " proto-lint: allow(A)".toList "A") ∧
    (let text := "\"// proto-lint: allow(B)\""
     (∃ ts, tokenize "a.proto" text.toList = .ok ts) ∧
      (Allowances.scan text).check 1 "B" ≠ .denied ∧
      ¬∃ k content, LineComment text.toList k content) := by
  have exists_tokens : ∀ text : List Char, (tokenize "a.proto" text).toOption.isSome = true →
      ∃ ts, tokenize "a.proto" text = .ok ts := by
    intro text h
    obtain ⟨ts, hts⟩ := Option.isSome_iff_exists.1 h
    exact ⟨ts, eq_ok_of_toOption hts⟩
  constructor
  · intro text
    have hcomment : '/' :: '/' :: (" proto-lint: allow(A)".toList ++ ['\n']) =
        text.toList.drop 23 := by decide +kernel
    refine ⟨exists_tokens _ (by decide +kernel), by decide +kernel, ?_,
      any_ofComment?_iff.1 (by decide +kernel)⟩
    refine ⟨text.toList.take 23, ['\n'], ?_, ?_, .line (by decide) (.inr ⟨[], rfl⟩), by decide +kernel⟩
    · rw [hcomment, List.take_append_drop]
    · rw [hcomment]
      exact seam_take 5 23 (by decide +kernel)
  · intro text
    refine ⟨exists_tokens _ (by decide +kernel), by decide +kernel, ?_⟩
    rintro ⟨k, content, front, after, hwhole, hseam, -, -⟩
    have honly : ∀ i < text.toList.length, (text.toList.drop i).take 2 = ['/', '/'] → i = 1 := by
      decide +kernel
    obtain ⟨rfl, hrest⟩ := eq_take_drop honly hwhole
    rw [hrest] at hseam
    have hquote : text.toList.take 1 = ['"'] := by decide +kernel
    have hclose : Scan.closeString '"' (text.toList.drop 1) = (text.toList.drop 1, [], true) := by
      decide +kernel
    have hstring : Scan.IsToken .string (['"'] ++ text.toList.drop 1) [] :=
      .string (.inl rfl) ((Scan.closeString_eq_iff (.inl rfl)).1 hclose).2
    have hstart : Seam [] (['"'] ++ text.toList.drop 1 ++ []) := ⟨[], [], rfl, trivial, .nil⟩
    refine hstart.not_within hstring (by decide) (by decide +kernel) ?_
    rwa [List.nil_append, List.append_nil, ← hquote]

end Directive

end SchemaLint
