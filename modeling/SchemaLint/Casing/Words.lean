/-!
# The words of an identifier

A word is a run of letters and digits of ASCII.  A capital begins a new word after a small letter or
a digit, and so does the last capital of a run when a small letter follows it.
-/

set_option autoImplicit false
set_option relaxedAutoImplicit false

namespace SchemaLint.Casing

def beginsWord (before c : Char) (following : List Char) : Bool :=
  c.isUpper &&
    (before.isLower || before.isDigit || (before.isUpper && following.head?.any Char.isLower))

def wordGoesOn (c : Char) : List Char → Bool
  | [] => false
  | d :: following => d.isAlphanum && !beginsWord c d following

def splitWords : List Char → List (List Char)
  | [] => []
  | c :: cs =>
    if !c.isAlphanum then splitWords cs
    else if wordGoesOn c cs then
      match splitWords cs with
      | [] => [[c]]
      | word :: words => (c :: word) :: words
    else [c] :: splitWords cs

theorem splitWords_cons_of_isAlphanum {c : Char} {cs : List Char} (h : c.isAlphanum = true) :
    ∃ word words, splitWords (c :: cs) = (c :: word) :: words := by
  simp only [splitWords, h]
  split
  · contradiction
  · split
    · split <;> simp
    · simp

theorem ne_nil_of_mem_splitWords {cs word : List Char} (h : word ∈ splitWords cs) : word ≠ [] := by
  induction cs generalizing word with
  | nil => simp [splitWords] at h
  | cons c cs ih => grind [splitWords]

end SchemaLint.Casing
