import SchemaLint.Failure

/-!
# Settings

What a project may set: a preset to start from, how files are found and read, and whether and how
gravely single rules count.
-/

set_option autoImplicit false
set_option relaxedAutoImplicit false

namespace SchemaLint

structure RuleSettings where
  enabled : Option Bool
  severity : Option Severity
  deriving DecidableEq, Repr, Inhabited

structure LintSettings where
  exclude : List String
  respectGitignore : Bool
  respectDirectives : Bool
  parallelism : Option Nat
  deriving DecidableEq, Repr

def LintSettings.default : LintSettings :=
  ⟨[], true, true, none⟩

/-- All settings.  Those of rules are kept by rule id. -/
structure Config where
  preset : Option String
  lint : LintSettings
  rules : List (String × RuleSettings)
  deriving DecidableEq, Repr

namespace Config

def default : Config :=
  ⟨none, .default, []⟩

def isRuleEnabled (c : Config) (ruleId : String) (otherwise : Bool) : Bool :=
  ((c.rules.lookup ruleId).bind RuleSettings.enabled).getD otherwise

def ruleSeverity (c : Config) (ruleId : String) : Option Severity :=
  (c.rules.lookup ruleId).bind RuleSettings.severity

end Config

end SchemaLint
