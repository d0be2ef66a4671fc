import SchemaLint.Command

/-!
# Command lines

The arguments of a command line hold options, which start with a hyphen, and operands.  An option
is written with its name behind two hyphens or with its letter behind one; its value follows in the
same argument or is the next one.  Letters may share one hyphen, and two hyphens alone end the
options.
-/

set_option autoImplicit false
set_option relaxedAutoImplicit false

namespace SchemaLint

/-- Why a command line is no command: it asks about the program itself, or it is written wrongly. -/
inductive Detour
  | help | version | misuse
  deriving DecidableEq, Repr

/-- An option: its name, its letter, whether it takes a value, whether it may be given more than
once, which values it takes, and the detour that it asks for, if it does. -/
structure OptionForm where
  name : String
  letter : Option Char
  takesValue : Bool
  isRepeatable : Bool
  accepts : String → Bool
  detour : Option Detour

namespace OptionForm

def flag (name : String) (letter : Option Char) : OptionForm :=
  ⟨name, letter, false, false, fun _ => true, none⟩

def valued (name : String) (letter : Option Char) (accepts : String → Bool) : OptionForm :=
  ⟨name, letter, true, false, accepts, none⟩

def question (name : String) (letter : Char) (detour : Detour) : OptionForm :=
  ⟨name, some letter, false, false, fun _ => true, some detour⟩

def general : List OptionForm :=
  [flag "verbose" (some 'v'), valued "config" (some 'c') (!String.isEmpty ·),
    question "help" 'h' .help]

end OptionForm

/-- How a part of a command line is read: its options, and which operands it takes.  A part that has
no operands of its own ends where one stands. -/
structure ArgumentForm where
  options : List OptionForm
  operand : Option (String → Bool)

namespace ArgumentForm

def leading : ArgumentForm :=
  ⟨OptionForm.general ++ [.question "version" 'V' .version], none⟩

def linting : ArgumentForm :=
  ⟨OptionForm.general ++
    [.flag "fix" none, .valued "format" (some 'f') fun v => (OutputFormat.ofName? v).isSome,
      .valued "rules" none fun _ => true,
      { OptionForm.valued "exclude" (some 'e') fun _ => true with isRepeatable := true }],
    some (!String.isEmpty ·)⟩

def listing : ArgumentForm :=
  ⟨OptionForm.general, some fun _ => false⟩

def writing : ArgumentForm :=
  ⟨OptionForm.general ++ [.flag "force" none], some fun _ => false⟩

end ArgumentForm

/-- An option that is not settled yet: it waits for its value, or its value stands in an argument of
its own.  Such a value counts only once something else is read. -/
structure PendingOption where
  form : OptionForm
  value : Option String

/-- What some arguments say: the options given with their values, and the operands. -/
structure Arguments where
  given : List (String × String)
  operands : List String
  deriving DecidableEq, Repr

namespace Arguments

def empty : Arguments :=
  ⟨[], []⟩

def has (a : Arguments) (name : String) : Bool :=
  (a.given.lookup name).isSome

def values (a : Arguments) (name : String) : List String :=
  (a.given.filter (·.1 = name)).map Prod.snd

def take (a : Arguments) (isTaken : String → Bool) (s : String) : Except Detour Arguments :=
  if isTaken s then .ok { a with operands := a.operands ++ [s] } else .error .misuse

/-- Add an option with its value; a flag has the empty value. -/
def give (a : Arguments) (form : OptionForm) (value : String) : Except Detour Arguments :=
  match form.detour with
  | some detour => .error detour
  | none =>
    if a.has form.name && !form.isRepeatable then .error .misuse
    else if form.accepts value then .ok { a with given := a.given ++ [(form.name, value)] }
    else .error .misuse

/-- Settle what is pending.  An option whose value never came is written wrongly. -/
def settle (a : Arguments) : Option PendingOption → Except Detour Arguments
  | none => .ok a
  | some ⟨_, none⟩ => .error .misuse
  | some ⟨form, some value⟩ => a.give form value

/-- Read letters that share a hyphen, and say what is pending then.  Behind a letter whose option
takes a value, the rest is that value, with an equals sign in front or not. -/
def readLetters (forms : List OptionForm) (a : Arguments) :
    List Char → Except Detour (Arguments × Option PendingOption)
  | [] => .ok (a, none)
  | c :: rest =>
    match forms.find? (·.letter = some c) with
    | none => .error .misuse
    | some form =>
      if form.takesValue then
        match rest with
        | [] => .ok (a, some ⟨form, none⟩)
        | '=' :: value => (a.give form (String.ofList value)).map (·, none)
        | value => (a.give form (String.ofList value)).map (·, none)
      else do readLetters forms (← a.give form "") rest

def readName (forms : List OptionForm) (a : Arguments) (cs : List Char) :
    Except Detour (Arguments × Option PendingOption) :=
  let (name, value) :=
    match Text.cutAround? ['='] cs with
    | some (name, value) => (name, some (String.ofList value))
    | none => (cs, none)
  match forms.find? (·.name = String.ofList name), value with
  | none, _ => .error .misuse
  | some form, some value =>
    if form.takesValue then (a.give form value).map (·, none) else .error .misuse
  | some form, none =>
    if form.takesValue then .ok (a, some ⟨form, none⟩) else (a.give form "").map (·, none)

def read (form : ArgumentForm) :
    Option PendingOption → Arguments → List String →
      Except Detour (Arguments × Option PendingOption × List String)
  | pending, a, [] => .ok (a, pending, [])
  | pending, a, s :: rest =>
    match s.toList, pending, form.operand with
    | '-' :: _ :: _, some ⟨_, none⟩, _ => .error .misuse
    | _, some ⟨option, none⟩, _ => read form (some ⟨option, some s⟩) a rest
    | ['-', '-'], _, none => .ok (a, pending, s :: rest)
    | ['-', '-'], _, some isTaken => do
      return (← rest.foldlM (take · isTaken) (← a.settle pending), none, [])
    | '-' :: '-' :: cs, _, _ => do
      let (a, pending) ← readName form.options (← a.settle pending) cs
      read form pending a rest
    | '-' :: c :: cs, _, _ => do
      let (a, pending) ← readLetters form.options (← a.settle pending) (c :: cs)
      read form pending a rest
    | _, _, none => .ok (a, pending, s :: rest)
    | _, _, some isTaken => do read form none (← (← a.settle pending).take isTaken s) rest

def readAll (form : ArgumentForm) (args : List String) : Except Detour Arguments := do
  let (a, pending, _) ← read form none .empty args
  a.settle pending

def value? (a : Arguments) (name : String) : Option String :=
  a.given.lookup name

end Arguments

/-- What linting is asked for.  Without paths the current directory is linted. -/
def LintRequest.ofArguments (a : Arguments) : LintRequest where
  paths := if a.operands.isEmpty then ["."] else a.operands
  fix := a.has "fix"
  format := ((a.value? "format").bind OutputFormat.ofName?).getD .text
  rules := a.value? "rules"
  exclude := a.values "exclude"

def Command.names : List String :=
  ["lint", "list-rules", "init", "help"]

/-- The command of a name, and what is said behind the name.  Help may be asked for on one
command. -/
def Command.ofArguments (name : String) (args : List String) :
    Except Detour (Arguments × Command) := do
  match name with
  | "lint" =>
    let a ← Arguments.readAll .linting args
    return (a, .lint (.ofArguments a))
  | "list-rules" => return (← Arguments.readAll .listing args, .listRules)
  | "init" =>
    let a ← Arguments.readAll .writing args
    return (a, .writeSettings (a.has "force"))
  | "help" =>
    match args with
    | [] => throw .help
    | [name] => throw (if Command.names.contains name then .help else .misuse)
    | _ => throw .misuse
  | _ => throw .misuse

/-- The settings file of a command line.  What is said behind the command's name counts before what
is said in front of it, and both before the environment, whose value has to be good where it is
asked for. -/
def settingsOf (surrounding : Option String) (front behind : Arguments) :
    Except Detour (Option String) :=
  let isAsked := !(front.has "config" && behind.has "config")
  if surrounding = some "" && isAsked then .error .misuse
  else .ok ((behind.value? "config").or ((front.value? "config").or surrounding))

namespace Invocation

/-- The command that some arguments give, and the settings file that they or else the environment
name.  What is pending in front of the command is settled behind it. -/
def read (surrounding : Option String) (args : List String) : Except Detour Invocation := do
  let (front, pending, rest) ← Arguments.read .leading none .empty args
  match rest with
  | [] => throw .misuse
  | name :: args =>
    let (behind, command) ← Command.ofArguments name args
    let front ← front.settle pending
    return ⟨← settingsOf surrounding front behind, command⟩

/-- The invocation that a command line stands for, where questions about the program are commands of
their own; none for a command line that is written wrongly. -/
def ofArguments? (surrounding : Option String) (args : List String) : Option Invocation :=
  match read surrounding args with
  | .ok x => some x
  | .error .help => some ⟨none, .help⟩
  | .error .version => some ⟨none, .version⟩
  | .error .misuse => none

end Invocation

end SchemaLint
