import SchemaLint.Rule.FirstValueZero
import SchemaLint.Rule.Naming
import SchemaLint.Rule.PackageName
import SchemaLint.Rule.Registry

/-!
# The rules that are always there

Eight rules and three presets that choose among them.
-/

set_option autoImplicit false
set_option relaxedAutoImplicit false

namespace SchemaLint

def builtinEntries : List RuleEntry :=
  [⟨NamingPolicy.services.id, NamingPolicy.services.rule⟩,
    ⟨NamingPolicy.rpcs.id, NamingPolicy.rpcs.rule⟩,
    ⟨NamingPolicy.messages.id, NamingPolicy.messages.rule⟩,
    ⟨NamingPolicy.fields.id, NamingPolicy.fields.rule⟩,
    ⟨NamingPolicy.enums.id, NamingPolicy.enums.rule⟩,
    ⟨NamingPolicy.enumValues.id, NamingPolicy.enumValues.rule⟩,
    ⟨PackageName.id, PackageName.rule⟩,
    ⟨FirstValueZero.id, FirstValueZero.rule⟩]

def Registry.builtin : Registry :=
  ⟨builtinEntries⟩

def allRuleIds : List String :=
  builtinEntries.map RuleEntry.id

def defaultRuleIds : List String :=
  allRuleIds.filter (· ≠ FirstValueZero.id)

/-- A choice among the built-in rules: those on names, all, or only the one on calls. -/
inductive Preset
  | default | all | minimal
  deriving DecidableEq, Repr, Inhabited

namespace Preset

def ofName? (name : String) : Option Preset :=
  match name.map Char.toLower with
  | "default" => some .default
  | "all" => some .all
  | "minimal" => some .minimal
  | _ => none

def name : Preset → String
  | .default => "default"
  | .all => "all"
  | .minimal => "minimal"

def ids : Preset → List String
  | .default => defaultRuleIds
  | .all => allRuleIds
  | .minimal => [NamingPolicy.rpcs.id]

def rules (p : Preset) (fix : Bool) : List Rule :=
  (builtinEntries.filter fun entry => p.ids.contains entry.id).map (·.build fix)

theorem ofName?_name (p : Preset) : ofName? p.name = some p := by
  cases p <;> decide +kernel

end Preset

end SchemaLint
