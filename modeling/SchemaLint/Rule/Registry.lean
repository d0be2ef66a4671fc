import SchemaLint.Rule

/-!
# Registered rules

A registry knows rules by id and builds them on demand.  It keeps the order of registration, and
whatever is asked of it is answered in that order.
-/

set_option autoImplicit false
set_option relaxedAutoImplicit false

namespace SchemaLint

inductive RegistryError
  | duplicateRule (id : String)
  | unknownRule (id : String)
  | idMismatch (registered reported : String)
  deriving DecidableEq, Repr

def RegistryError.message : RegistryError → String
  | .duplicateRule id => s!"rule {id} is already registered"
  | .unknownRule id => s!"unknown rule: {id}"
  | .idMismatch registered reported => s!"rule registered as {registered} reports id {reported}"

/-- A rule's id and how to build the rule, given whether it is to fix. -/
structure RuleEntry where
  id : String
  build : Bool → Rule

structure Registry where
  entries : List RuleEntry

/-- What a call to register a rule leaves: a registry with the rule, or the registry that there was and
the reason why it was kept. -/
inductive Registration
  | ok (grown : Registry)
  | error {kept : Registry} (e : RegistryError)

/-- The registry after a call. -/
def Registration.registry : Registration → Registry
  | .ok grown => grown
  | @error kept _ => kept

namespace Registry

def empty : Registry :=
  ⟨[]⟩

def ids (r : Registry) : List String :=
  r.entries.map RuleEntry.id

def contains (r : Registry) (id : String) : Bool :=
  r.ids.contains id

/-- Add a rule behind all others, unless its id is taken. -/
def register (r : Registry) (entry : RuleEntry) : Registration :=
  if r.contains entry.id then @Registration.error r (.duplicateRule entry.id)
  else .ok ⟨r.entries ++ [entry]⟩

def buildEntry (fix : Bool) (entry : RuleEntry) : Except RegistryError Rule :=
  let rule := entry.build fix
  if rule.id = entry.id then .ok rule else .error (.idMismatch entry.id rule.id)

def resolveWith (r : Registry) (test : String → Bool) (fix : Bool) :
    Except RegistryError (List Rule) :=
  (r.entries.filter fun entry => test entry.id).mapM (buildEntry fix)

/-- Build the rules of the given ids, each once. -/
def resolve (r : Registry) (enabled : List String) (fix : Bool) :
    Except RegistryError (List Rule) :=
  match enabled.find? fun id => !r.contains id with
  | some id => .error (.unknownRule id)
  | none => r.resolveWith enabled.contains fix

def render (r : Registry) : String :=
  "[" ++ ", ".intercalate (r.ids.map Text.quoteText) ++ "]"

end Registry

end SchemaLint
