import SchemaLint.Rule.Builtin

/-!
# The catalogue of rules

A table of the built-in rules and the presets that choose among them, for a reader.
-/

set_option autoImplicit false
set_option relaxedAutoImplicit false

namespace SchemaLint

def padded (width : Nat) (s : String) : String :=
  s ++ String.ofList (List.replicate (width - s.length) ' ')

def catalogueRow (id fix description : String) : String :=
  s!"{padded 36 id} {padded 8 fix} {description}"

/-- The row of a rule.  A rule that is not on by default says so. -/
def Rule.row (r : Rule) : String :=
  catalogueRow r.id (if r.fixable then "yes" else "no")
    (r.description ++ if defaultRuleIds.contains r.id then "" else " (opt-in)")

def Preset.row (p : Preset) : String :=
  s!"  {padded 9 p.name} - " ++ ", ".intercalate p.ids

def catalogue : List String :=
  ["Available rules:", "", catalogueRow "ID" "Fix" "Description",
      String.ofList (List.replicate 100 '-')] ++
    (Preset.all.rules false).map Rule.row ++
    ["", "Presets:"] ++ [Preset.default, .all, .minimal].map Preset.row ++
    ["", "Use --rules to run specific rules, e.g.:",
      "  proto-lint lint --rules RPC_NAMES_UPPER_CAMEL_CASE,FIELD_NAMES_LOWER_SNAKE_CASE",
      "  proto-lint lint --fix api/"]

end SchemaLint
