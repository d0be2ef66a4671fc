import SchemaLint.Tree

/-!
# The nodes of a schema file

A node is the file itself or one of its declarations at any depth.  Nodes are listed in document
order: a node, then its parts from first to last, each with its own parts behind it.
-/

set_option autoImplicit false
set_option relaxedAutoImplicit false

namespace SchemaLint

inductive NodeKind
  | file | version | package | imported | option | message | field | mapField | oneof | enumeration
  | enumValue | service | rpc | reserved | extensions | extend
  deriving DecidableEq, Repr, Inhabited

def NodeKind.all : List NodeKind :=
  [.file, .version, .package, .imported, .option, .message, .field, .mapField, .oneof,
    .enumeration, .enumValue, .service, .rpc, .reserved, .extensions, .extend]

def NodeKind.render : NodeKind → String
  | .file => "proto"
  | .version => "syntax"
  | .package => "package"
  | .imported => "import"
  | .option => "option"
  | .message => "message"
  | .field => "field"
  | .mapField => "map field"
  | .oneof => "oneof"
  | .enumeration => "enum"
  | .enumValue => "enum value"
  | .service => "service"
  | .rpc => "rpc"
  | .reserved => "reserved"
  | .extensions => "extensions"
  | .extend => "extend"

def BlockKind.nodeKind : BlockKind → NodeKind
  | .message => .message
  | .oneof => .oneof
  | .enumeration => .enumeration
  | .service => .service
  | .extend => .extend

namespace Declaration

def kind : Declaration → NodeKind
  | .version _ => .version
  | .package _ => .package
  | .imported _ => .imported
  | .option _ => .option
  | .field _ => .field
  | .mapField _ => .mapField
  | .enumValue _ => .enumValue
  | .rpc _ => .rpc
  | .reserved _ => .reserved
  | .extensions _ => .extensions
  | .block kind _ _ _ => kind.nodeKind

def name? : Declaration → Option String
  | .package p => some p.name
  | .option o => some o.name
  | .field f => some f.name
  | .mapField f => some f.name
  | .enumValue v => some v.name
  | .rpc r => some r.name
  | .block kind name _ _ => if kind = .extend then none else some name
  | .version _ | .imported _ | .reserved _ | .extensions _ => none

def body : Declaration → List Declaration
  | .block _ _ body _ => body
  | _ => []

mutual

/-- A declaration and all below it, in document order; the options of a call count as its parts. -/
def preorder : Declaration → List Declaration
  | .block kind name body span => .block kind name body span :: preorderAll body
  | .rpc r => .rpc r :: r.options.map .option
  | d => [d]

def preorderAll : List Declaration → List Declaration
  | [] => []
  | d :: ds => preorder d ++ preorderAll ds

end

end Declaration

inductive Node
  | file (f : SchemaFile)
  | declaration (d : Declaration)
  deriving Repr, Inhabited

namespace Node

def kind : Node → NodeKind
  | .file _ => .file
  | .declaration d => d.kind

def name? : Node → Option String
  | .file _ => none
  | .declaration d => d.name?

def span : Node → Span
  | .file f => f.span
  | .declaration d => d.span

def body : Node → List Declaration
  | .file f => f.body
  | .declaration d => d.body

end Node

def SchemaFile.nodes (f : SchemaFile) : List Node :=
  .file f :: (Declaration.preorderAll f.body).map .declaration

end SchemaLint
