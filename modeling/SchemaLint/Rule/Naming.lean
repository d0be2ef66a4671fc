import SchemaLint.Casing
import SchemaLint.Rule

/-!
# Rules on names

Each of these rules demands a casing for the names of some declarations.  The name that a failure
suggests is the very name that an edit writes.
-/

set_option autoImplicit false
set_option relaxedAutoImplicit false

namespace SchemaLint

/-- A demand on names: which declarations, which casing, and where the name stands in them. -/
structure NamingPolicy where
  id : String
  description : String
  kinds : List NodeKind
  label : String
  casing : Casing
  place : NamePlace
  deriving Repr

namespace NamingPolicy

/-- The name to write instead of a given one. -/
def suggestion (policy : NamingPolicy) (name : String) : String :=
  policy.casing.convert name

def failure (policy : NamingPolicy) (position : Position) (name : String) : Failure :=
  { position
    ruleId := policy.id
    message := s!"{policy.label} name \"{name}\" must be {policy.casing.describe} like " ++
      s!"\"{policy.suggestion name}\""
    severity := .error }

def check (policy : NamingPolicy) (node : Node) : List Failure :=
  match node.name? with
  | none => []
  | some name =>
    if !policy.kinds.contains node.kind || policy.casing.isMatch name then []
    else [policy.failure node.span.first name]

/-- Rename a node.  A name without a word that could begin the new one keeps its failure. -/
def rename (policy : NamingPolicy) (source : SourceText) (node : Node) :
    Except LocateError (Option Edit) :=
  match node.name? with
  | none => .ok none
  | some name =>
    let suggestion := policy.suggestion name
    if suggestion = name || !policy.casing.isMatch suggestion then .ok none
    else do
      let range ← source.locateName node.span.first name policy.place
      return some ⟨policy.id, range.start, range.stop, suggestion⟩

def rule (policy : NamingPolicy) (fix : Bool) : Rule where
  id := policy.id
  description := policy.description
  severity := .error
  fixMode := fix
  fixable := true
  appliesTo := policy.kinds.contains
  evaluate node := .ok (policy.check node)
  fix source node _ := (policy.rename source node).mapError .notLocated

def services : NamingPolicy where
  id := "SERVICE_NAMES_UPPER_CAMEL_CASE"
  description := "Verifies that all service names are CamelCase (with an initial capital)."
  kinds := [.service]
  label := "Service"
  casing := .upperCamel
  place := .afterKeyword "service"

def rpcs : NamingPolicy where
  id := "RPC_NAMES_UPPER_CAMEL_CASE"
  description := "Verifies that all rpc names are CamelCase (with an initial capital)."
  kinds := [.rpc]
  label := "RPC"
  casing := .upperCamel
  place := .afterKeyword "rpc"

def messages : NamingPolicy where
  id := "MESSAGE_NAMES_UPPER_CAMEL_CASE"
  description := "Verifies that all message names are CamelCase (with an initial capital)."
  kinds := [.message]
  label := "Message"
  casing := .upperCamel
  place := .afterKeyword "message"

def fields : NamingPolicy where
  id := "FIELD_NAMES_LOWER_SNAKE_CASE"
  description := "Verifies that all field names are underscore_separated_names."
  kinds := [.field, .mapField]
  label := "Field"
  casing := .lowerSnake
  place := .beforeAssign

def enums : NamingPolicy where
  id := "ENUM_NAMES_UPPER_CAMEL_CASE"
  description := "Verifies that all enum names are CamelCase (with an initial capital)."
  kinds := [.enumeration]
  label := "Enum"
  casing := .upperCamel
  place := .afterKeyword "enum"

def enumValues : NamingPolicy where
  id := "ENUM_FIELD_NAMES_UPPER_SNAKE_CASE"
  description := "Verifies that all enum field names are CAPITALS_WITH_UNDERSCORES."
  kinds := [.enumValue]
  label := "EnumField"
  casing := .upperSnake
  place := .leading

end NamingPolicy

end SchemaLint
