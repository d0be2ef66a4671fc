import SchemaLint.Edit
import SchemaLint.Text.Bytes

/-!
# Applying edits

A list of edits is applied in one pass over the text.  That needs every edit to fit the text and no
two different edits to overlap; otherwise nothing is applied.
-/

set_option autoImplicit false
set_option relaxedAutoImplicit false

namespace SchemaLint

/-- Why a single edit does not fit a text. -/
inductive Misfit
  | reversed | pastEnd | splitsCharacter | emptyReplacement
  deriving DecidableEq, Repr

def Misfit.message : Misfit → String
  | .reversed => "start is after end"
  | .pastEnd => "span extends past end of text"
  | .splitsCharacter => "span splits a character"
  | .emptyReplacement => "empty replacement"

inductive EditError
  | invalid (edit : Edit) (reason : Misfit)
  | conflict (first second : Edit)
  deriving DecidableEq, Repr

def EditError.message : EditError → String
  | .invalid edit reason => s!"invalid edit {edit.render}: {reason.message}"
  | .conflict first second => s!"{first.render} conflicts with {second.render}"

namespace Edit

/-- The first reason why an edit does not fit a text, if there is one. -/
def misfit? (text : List Char) (e : Edit) : Option Misfit :=
  if e.stop < e.start then some .reversed
  else if Text.byteLength text < e.stop then some .pastEnd
  else if !Text.isPlace text e.start || !Text.isPlace text e.stop then some .splitsCharacter
  else if e.replacement.isEmpty && e.start ≠ e.stop then some .emptyReplacement
  else none

def firstMisfit? (text : List Char) : List Edit → Option (Edit × Misfit)
  | [] => none
  | e :: es =>
    match e.misfit? text with
    | some reason => some (e, reason)
    | none => firstMisfit? text es

def dropRepeats : List Edit → List Edit
  | [] => []
  | [e] => [e]
  | e :: f :: es => if e = f then dropRepeats (f :: es) else e :: dropRepeats (f :: es)

/-- The different edits of a list in the order in which they are applied. -/
def arrange (es : List Edit) : List Edit :=
  dropRepeats (es.mergeSort precedes)

def firstOverlap? : List Edit → Option (Edit × Edit)
  | e :: f :: es => if e.overlaps f then some (e, f) else firstOverlap? (f :: es)
  | _ => none

def splice (cursor : Nat) (rest : List Char) : List Edit → List Char
  | [] => rest
  | e :: es =>
    Text.takeBytes rest (e.start - cursor) ++ e.replacement.toList ++
      splice e.stop (Text.dropBytes rest (e.stop - cursor)) es

/-- Apply a list of edits to a text, in whatever order they come. -/
def applyAll (text : List Char) (es : List Edit) : Except EditError (List Char) :=
  match firstMisfit? text es with
  | some (e, reason) => .error (.invalid e reason)
  | none =>
    let arranged := arrange es
    match firstOverlap? arranged with
    | some (e, f) => .error (.conflict e f)
    | none => .ok (splice 0 text arranged)

end Edit

end SchemaLint
