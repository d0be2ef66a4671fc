import SchemaLint.LintError

/-!
# Putting rules to nodes

Every node of a file is shown to every rule that asks for its kind: node by node in document order,
and at each node rule by rule.  The first rule that breaks down ends it.
-/

set_option autoImplicit false
set_option relaxedAutoImplicit false

namespace SchemaLint

/-- A failure with the node it was reported for, and the rule that reported it with its place in the
list of rules. -/
structure Finding where
  node : Node
  index : Nat
  rule : Rule
  failure : Failure

namespace Dispatch

def consult (node : Node) (index : Nat) (rule : Rule) : Except LintError (List Finding) :=
  if rule.appliesTo node.kind then
    match rule.evaluate node with
    | .ok failures => .ok (failures.map fun failure => ⟨node, index, rule, failure⟩)
    | .error crash => .error (.ruleFault rule.id (.crashed crash))
  else .ok []

def consultFrom (node : Node) : Nat → List Rule → Except LintError (List Finding)
  | _, [] => .ok []
  | index, rule :: rules => do
    let own ← consult node index rule
    let others ← consultFrom node (index + 1) rules
    return own ++ others

def inspect (rules : List Rule) (node : Node) : Except LintError (List Finding) :=
  consultFrom node 0 rules

def visitOptions (rules : List Rule) : List OptionStatement → Except LintError (List Finding)
  | [] => .ok []
  | o :: os => do
    let own ← inspect rules (.declaration (.option o))
    let others ← visitOptions rules os
    return own ++ others

mutual

def visit (rules : List Rule) : Declaration → Except LintError (List Finding)
  | .block kind name body span => do
    let own ← inspect rules (.declaration (.block kind name body span))
    let below ← visitAll rules body
    return own ++ below
  | .rpc r => do
    let own ← inspect rules (.declaration (.rpc r))
    let below ← visitOptions rules r.options
    return own ++ below
  | d => inspect rules (.declaration d)

def visitAll (rules : List Rule) : List Declaration → Except LintError (List Finding)
  | [] => .ok []
  | d :: ds => do
    let own ← visit rules d
    let others ← visitAll rules ds
    return own ++ others

end

end Dispatch

/-- Show all nodes of a file to all rules. -/
def dispatch (rules : List Rule) (file : SchemaFile) : Except LintError (List Finding) := do
  let own ← Dispatch.inspect rules (.file file)
  let below ← Dispatch.visitAll rules file.body
  return own ++ below

def failuresOf (rules : List Rule) (file : SchemaFile) : Except LintError (List Failure) := do
  let findings ← dispatch rules file
  return findings.map Finding.failure

end SchemaLint
