import SchemaLint.Rule
import SchemaLint.Text.Search

/-!
# The rule on the first value of an enum

The first value of an enum is zero, in whatever way zero is spelled.  Which value ought to be zero
is for the author to say, so the rule proposes no edits.
-/

set_option autoImplicit false
set_option relaxedAutoImplicit false

namespace SchemaLint.FirstValueZero

def id : String :=
  "ENUM_FIRST_VALUE_ZERO"

/-- The digits of a number: without signs before it and without the mark of the base sixteen. -/
def digits (number : List Char) : List Char :=
  match number.dropWhile fun c => c = '-' || c = '+' with
  | '0' :: 'x' :: rest => rest
  | '0' :: 'X' :: rest => rest
  | unsigned => unsigned

def isZero (number : String) : Bool :=
  !(digits number.toList).isEmpty && (digits number.toList).all (· = '0')

def firstValue? : List Declaration → Option EnumValue
  | [] => none
  | .enumValue v :: _ => some v
  | _ :: ds => firstValue? ds

def failure (value : EnumValue) : Failure :=
  { position := value.span.first
    ruleId := id
    message := s!"The first enum value must be zero, but \"{value.name}\" is {value.number}"
    severity := .error }

/-- Check a node that may be an enum. -/
def check : Node → List Failure
  | .declaration (.block .enumeration _ body _) =>
    match firstValue? body with
    | some value => if isZero value.number then [] else [failure value]
    | none => []
  | _ => []

def rule (fix : Bool) : Rule where
  id := id
  description := "Verifies that the zero value enum should be the first element."
  severity := .error
  fixMode := fix
  fixable := false
  appliesTo kind := kind = .enumeration
  evaluate node := .ok (check node)
  fix _ _ _ := .ok none

end SchemaLint.FirstValueZero
