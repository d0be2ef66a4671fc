import SchemaLint.Parse.Statement

/-!
# Declarations

Which statements may stand where, and how blocks nest.  A declaration either is a statement or opens
a block, whose body is read by the same function one level deeper.
-/

set_option autoImplicit false
set_option relaxedAutoImplicit false

namespace SchemaLint.Parser

/-- Where a declaration stands: in a file, or in the body of a block. -/
inductive Scope
  | file
  | body (kind : BlockKind)
  deriving DecidableEq, Repr

inductive Header
  | statement (d : Declaration)
  | opening (kind : BlockKind) (name : String) (first : Position)

def blockWord : BlockKind → String
  | .message => "message"
  | .oneof => "oneof"
  | .enumeration => "enum"
  | .service => "service"
  | .extend => "extend"

def opening (kind : BlockKind) : Parser Header := do
  let first ← keywordAt (blockWord kind)
  let name ← if kind = .extend then typeName else identifier
  discard <| symbol '\x7b'
  return .opening kind name first

/-- Whether a keyword stands ahead as one.  It is the type of a field when an equals sign stands two
tokens behind it. -/
def atKeyword (word : String) : Parser Bool := do
  if (← look 2).any (·.isSymbol '=') then return false else sees (·.isWord word)

def fileHeader : Parser Header := do
  let word ← sees fun t => t.isWord "syntax" || t.isWord "edition"
  if word then return .statement (.version (← languageVersion))
  else if ← sees (·.isWord "package") then return .statement (.package (← package))
  else if ← sees (·.isWord "import") then return .statement (.imported (← imported))
  else if ← sees (·.isWord "option") then return .statement (.option (← option))
  else if ← sees (·.isWord "message") then opening .message
  else if ← sees (·.isWord "enum") then opening .enumeration
  else if ← sees (·.isWord "service") then opening .service
  else if ← sees (·.isWord "extend") then opening .extend
  else refuse "top-level declaration"

def messageHeader : Parser Header := do
  if ← sees (·.isWord "option") then return .statement (.option (← option))
  else if ← atKeyword "message" then opening .message
  else if ← atKeyword "enum" then opening .enumeration
  else if ← atKeyword "oneof" then opening .oneof
  else if ← atKeyword "extend" then opening .extend
  else if ← atKeyword "reserved" then return .statement (.reserved (← reserved))
  else if ← atKeyword "extensions" then return .statement (.extensions (← extensions))
  else if (← sees (·.isWord "map")) && (← look 1).any (·.isSymbol '<') then
    return .statement (.mapField (← mapField))
  else return .statement (.field (← field))

def header : Scope → Parser Header
  | .file => fileHeader
  | .body .message => messageHeader
  | .body .oneof => do
    if ← sees (·.isWord "option") then return .statement (.option (← option))
    else return .statement (.field (← field))
  | .body .enumeration => do
    if ← sees (·.isWord "option") then return .statement (.option (← option))
    else if ← atKeyword "reserved" then return .statement (.reserved (← reserved))
    else return .statement (.enumValue (← enumValue))
  | .body .service => do
    if ← sees (·.isWord "option") then return .statement (.option (← option))
    else return .statement (.rpc (← rpc))
  | .body .extend => return .statement (.field (← field))

def declaration (scope : Scope) : Parser Declaration :=
  fun ls => go ls.length scope ls
where
  /-- At most a given number of blocks inside each other. -/
  go : Nat → Scope → Parser Declaration
    | 0, _ => fun _ => .error .endOfInput
    | depth + 1, scope => do
      match ← header scope with
      | .statement d => return d
      | .opening kind name first =>
        let (body, last) ← enclosed (go depth (.body kind))
        return .block kind name body ⟨first, last.position⟩

/-- All declarations of a file, lone semicolons skipped. -/
def declarations : Parser (List Declaration) :=
  fun ls => go ls.length ls
where
  /-- At most as many declarations and semicolons as a given number. -/
  go : Nat → Parser (List Declaration)
    | 0 => return []
    | n + 1 => fun
      | [] => .ok ([], [])
      | l :: ls =>
        if l.token.isSymbol ';' then go n ls
        else (do
          let first ← declaration .file
          let others ← go n
          return first :: others : Parser (List Declaration)) (l :: ls)

end SchemaLint.Parser
