import SchemaLint.Position

/-!
# Schema files as trees

A schema file is a list of declarations.  Five sorts of declarations hold further ones between
braces; a call holds options.
-/

set_option autoImplicit false
set_option relaxedAutoImplicit false

namespace SchemaLint

structure LanguageVersion where
  version : String
  isEdition : Bool
  span : Span
  deriving DecidableEq, Repr, Inhabited

structure Package where
  name : String
  span : Span
  deriving DecidableEq, Repr, Inhabited

inductive ImportModifier
  | weakly | publicly
  deriving DecidableEq, Repr

structure Import where
  location : String
  modifier : Option ImportModifier
  span : Span
  deriving DecidableEq, Repr, Inhabited

/-- An option that is a statement of its own.  The constant is kept as written. -/
structure OptionStatement where
  name : String
  constant : String
  span : Span
  deriving DecidableEq, Repr, Inhabited

structure FieldOption where
  name : String
  constant : String
  deriving DecidableEq, Repr, Inhabited

inductive Cardinality
  | optional | required | repeated
  deriving DecidableEq, Repr

/-- A field with a type.  The number is kept as written. -/
structure Field where
  cardinality : Option Cardinality
  typeName : String
  name : String
  number : String
  options : List FieldOption
  span : Span
  deriving DecidableEq, Repr, Inhabited

structure MapField where
  keyType : String
  typeName : String
  name : String
  number : String
  options : List FieldOption
  span : Span
  deriving DecidableEq, Repr, Inhabited

/-- One named value of an enum.  The number is kept as written, its sign included. -/
structure EnumValue where
  name : String
  number : String
  options : List FieldOption
  span : Span
  deriving DecidableEq, Repr, Inhabited

structure CallMessage where
  typeName : String
  isStream : Bool
  deriving DecidableEq, Repr, Inhabited

structure Rpc where
  name : String
  request : CallMessage
  response : CallMessage
  options : List OptionStatement
  span : Span
  deriving DecidableEq, Repr, Inhabited

structure Reserved where
  ranges : List String
  names : List String
  span : Span
  deriving DecidableEq, Repr, Inhabited

structure Extensions where
  ranges : List String
  span : Span
  deriving DecidableEq, Repr, Inhabited

inductive BlockKind
  | message | oneof | enumeration | service | extend
  deriving DecidableEq, Repr, Inhabited

/-- A declaration.  The name of an `extend` block is that of the extended type. -/
inductive Declaration
  | version (v : LanguageVersion)
  | package (p : Package)
  | imported (i : Import)
  | option (o : OptionStatement)
  | field (f : Field)
  | mapField (f : MapField)
  | enumValue (v : EnumValue)
  | rpc (r : Rpc)
  | reserved (r : Reserved)
  | extensions (e : Extensions)
  | block (kind : BlockKind) (name : String) (body : List Declaration) (span : Span)
  deriving Repr, Inhabited

structure SchemaFile where
  filename : String
  body : List Declaration
  span : Span
  deriving Repr, Inhabited

def Declaration.span : Declaration → Span
  | .version v => v.span
  | .package p => p.span
  | .imported i => i.span
  | .option o => o.span
  | .field f => f.span
  | .mapField f => f.span
  | .enumValue v => v.span
  | .rpc r => r.span
  | .reserved r => r.span
  | .extensions e => e.span
  | .block _ _ _ span => span

end SchemaLint
