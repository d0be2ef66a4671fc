/-!
# Settings to start from

The text of a new settings file, with a comment on each setting.
-/

set_option autoImplicit false
set_option relaxedAutoImplicit false

namespace SchemaLint

def starterLines : List String :=
  ["# proto-lint configuration",
    "",
    "# Rule set to start from: \"default\" (naming rules), \"all\", or \"minimal\"",
    "preset = \"default\"",
    "",
    "[lint]",
    "# Glob patterns to exclude from linting",
    "exclude = [",
    "    \"**/third_party/**\",",
    "    \"**/vendor/**\",",
    "]",
    "",
    "# Respect .gitignore files",
    "respect_gitignore = true",
    "",
    "# Honor `// proto-lint: allow(RULE_ID) reason=\"...\"` comments",
    "respect_allow_comments = true",
    "",
    "# Number of files linted at once (default: one per CPU)",
    "# parallelism = 4",
    "",
    "# Rule configurations, keyed by rule ID.",
    "# Each rule can be enabled/disabled and have its severity overridden.",
    "",
    "[rules.ENUM_FIRST_VALUE_ZERO]",
    "enabled = true",
    "severity = \"warning\"",
    "",
    "# [rules.PACKAGE_NAME_LOWER_CASE]",
    "# enabled = false"]

def starterConfig : String :=
  String.join (starterLines.map (· ++ "\n"))

end SchemaLint
