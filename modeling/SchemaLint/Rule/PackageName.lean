import SchemaLint.Locate.Dotted
import SchemaLint.Rule

/-!
# The rule on package names

A package's name has no capitals.  An edit changes its identifiers one by one and leaves the
points, blanks and comments between them alone.
-/

set_option autoImplicit false
set_option relaxedAutoImplicit false

namespace SchemaLint.PackageName

def id : String :=
  "PACKAGE_NAME_LOWER_CASE"

/-- A name with its capitals of ASCII made small. -/
def suggestion (name : String) : String :=
  name.map Char.toLower

def failure (package : Package) : Failure :=
  { position := package.span.first
    ruleId := id
    message := s!"Package name \"{package.name}\" must not contain any uppercase letter. " ++
      s!"Consider to change like \"{suggestion package.name}\"."
    severity := .error }

def check : Node → List Failure
  | .declaration (.package package) =>
    if package.name.toList.any Char.isUpper then [failure package] else []
  | _ => []

def rename (source : SourceText) : Node → Except LocateError (Option Edit)
  | .declaration (.package package) => do
    let name ← source.locateDotted package.span.first "package" package.name
    let replacement ← source.mapDotted name suggestion
    return some ⟨id, name.range.start, name.range.stop, replacement⟩
  | _ => .ok none

def rule (fix : Bool) : Rule where
  id := id
  description := "Verifies that the package name doesn't contain any uppercase letters."
  severity := .error
  fixMode := fix
  fixable := true
  appliesTo kind := kind = .package
  evaluate node := .ok (check node)
  fix source node _ := (rename source node).mapError .notLocated

end SchemaLint.PackageName
