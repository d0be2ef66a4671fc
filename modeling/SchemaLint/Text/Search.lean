import SchemaLint.Text.Blank

/-!
# Searching and cutting text

Texts are lists of characters here, so that each operation is a recursion on its data; cutting into
pieces works on any list.
-/

set_option autoImplicit false
set_option relaxedAutoImplicit false

namespace SchemaLint.Text

def dropStart? (start cs : List Char) : Option (List Char) :=
  match start, cs with
  | [], rest => some rest
  | _ :: _, [] => none
  | p :: ps, c :: rest => if p = c then dropStart? ps rest else none

theorem dropStart?_eq_some {start cs rest : List Char} (h : dropStart? start cs = some rest) :
    cs = start ++ rest := by
  fun_induction dropStart? start cs with
  | case1 cs => simpa using h
  | case2 => simp at h
  | case3 p ps cs ih => simp [ih h]
  | case4 => simp at h

def cutAround? (mark : List Char) : List Char → Option (List Char × List Char)
  | [] => if mark.isEmpty then some ([], []) else none
  | c :: cs =>
    match dropStart? mark (c :: cs) with
    | some rest => some ([], rest)
    | none => (cutAround? mark cs).map fun (before, after) => (c :: before, after)

theorem cutAround?_eq_some {mark cs before after : List Char}
    (h : cutAround? mark cs = some (before, after)) : cs = before ++ mark ++ after := by
  fun_induction cutAround? mark cs generalizing before with
  | case1 hm =>
    obtain ⟨rfl, rfl⟩ : [] = before ∧ [] = after := by simpa using h
    simpa using hm
  | case2 => simp at h
  | case3 c cs rest hd =>
    obtain ⟨rfl, rfl⟩ : [] = before ∧ rest = after := by simpa using h
    simpa using dropStart?_eq_some hd
  | case4 c cs hd ih =>
    obtain ⟨⟨b, a⟩, hba, heq⟩ := Option.map_eq_some_iff.1 h
    obtain ⟨rfl, rfl⟩ : c :: b = before ∧ a = after := by simpa using heq
    simpa using ih hba

/-- The pieces of a list between the places of one element; an empty list is one empty piece. -/
def splitOn {α : Type} [DecidableEq α] (mark : α) : List α → List (List α)
  | [] => [[]]
  | c :: cs =>
    if c = mark then [] :: splitOn mark cs
    else
      match splitOn mark cs with
      | [] => [[c]]
      | piece :: pieces => (c :: piece) :: pieces

theorem splitOn_ne_nil {α : Type} [DecidableEq α] (mark : α) (cs : List α) :
    splitOn mark cs ≠ [] := by
  cases cs with
  | nil => simp [splitOn]
  | cons c cs =>
    unfold splitOn
    split
    · simp
    · split <;> simp

theorem not_mem_of_mem_splitOn {α : Type} [DecidableEq α] {mark : α} {cs piece : List α}
    (h : piece ∈ splitOn mark cs) : mark ∉ piece := by
  induction cs generalizing piece with
  | nil => simp_all [splitOn]
  | cons c cs ih =>
    unfold splitOn at h
    split at h
    · rcases List.mem_cons.1 h with rfl | h
      · simp
      · exact ih h
    · rename_i hc
      have hc : mark ≠ c := fun e => hc e.symm
      split at h
      · simp_all
      · rename_i first others heq
        rcases List.mem_cons.1 h with rfl | h
        · have hfirst : mark ∉ first := ih (by simp [heq])
          simp [hc, hfirst]
        · exact ih (by simp [heq, h])

theorem intercalate_splitOn {α : Type} [DecidableEq α] (mark : α) (cs : List α) :
    [mark].intercalate (splitOn mark cs) = cs := by
  induction cs with
  | nil => simp [splitOn]
  | cons c cs ih =>
    unfold splitOn
    split
    · rename_i hc
      obtain ⟨first, others, heq⟩ := List.exists_cons_of_ne_nil (splitOn_ne_nil mark cs)
      rw [heq] at ih
      rw [heq, List.intercalate_cons_cons, ih, hc]
      rfl
    · split
      · rename_i heq
        exact absurd heq (splitOn_ne_nil mark cs)
      · rename_i first others heq
        rw [heq] at ih
        rw [← ih]
        cases others with
        | nil => simp
        | cons o os => simp

def dropReturn (line : List Char) : List Char :=
  if line.getLast? = some '\r' then line.dropLast else line

/-- The lines of a text: a line feed ends each, with one carriage return before it left out, and
an empty rest after the last line feed is no line. -/
def lines (cs : List Char) : List (List Char) :=
  let pieces := splitOn '\n' cs
  let ended := pieces.dropLast.map dropReturn
  match pieces.getLast? with
  | none => ended
  | some [] => ended
  | some last => ended ++ [last]

/-- The lines of some bytes, cut in the same way; none in the place of a line that is no text. -/
def linesOfBytes (bytes : List UInt8) : List (Option (List Char)) :=
  let decode := fun (piece : List UInt8) =>
    (String.fromUTF8? ⟨piece.toArray⟩).map String.toList
  let pieces := splitOn 10 bytes
  let ended := pieces.dropLast.map fun piece => (decode piece).map dropReturn
  match pieces.getLast? with
  | none => ended
  | some [] => ended
  | some last => ended ++ [decode last]

end SchemaLint.Text
