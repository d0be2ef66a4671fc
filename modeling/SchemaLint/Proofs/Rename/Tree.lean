import SchemaLint.Tree.Node

/-!
# Renaming the declarations of a file

A renaming gives every place of a file another one and writes every declared name anew.  Which name
a declaration gets may depend on all that it holds.
-/

set_option autoImplicit false
set_option relaxedAutoImplicit false

namespace SchemaLint

/-- Whether a declaration introduces a name of its own; the name of an option is that of another
declaration. -/
def Declaration.isNamed (d : Declaration) : Bool :=
  d.kind ≠ .option && d.name?.isSome

theorem Declaration.named_rpc (c : Rpc) :
    (Declaration.rpc c).preorder.filter Declaration.isNamed = [.rpc c] := by
  have options : (c.options.map Declaration.option).filter Declaration.isNamed = [] := by
    simp [Declaration.isNamed, Declaration.kind]
  rw [Declaration.preorder, List.filter_cons_of_pos rfl, options]

/-- New places, and how each declaration's name is written anew.  The name of an extended type
stays, a package is renamed part by part, and an enum value keeps clear of the words that begin
other statements in its place. -/
structure Renaming where
  place : Position → Position
  rewrite : Declaration → String → String
  extended : ∀ name body span, rewrite (.block .extend name body span) name = name
  dotted : ∀ package parts, rewrite (.package package) (".".intercalate parts) =
    ".".intercalate (parts.map (rewrite (.package package)))
  valued : ∀ (value : EnumValue) (word : String), word = "option" ∨ word = "reserved" →
    value.name ≠ word → rewrite (.enumValue value) value.name ≠ word

namespace Renaming

variable (r : Renaming)

def span (s : Span) : Span :=
  ⟨r.place s.first, r.place s.last⟩

def option (o : OptionStatement) : OptionStatement :=
  { o with span := r.span o.span }

mutual

def declaration : Declaration → Declaration
  | .version v => .version { v with span := r.span v.span }
  | .package p => .package
      { p with name := r.rewrite (.package p) p.name, span := r.span p.span }
  | .imported i => .imported { i with span := r.span i.span }
  | .option o => .option (r.option o)
  | .field f => .field { f with name := r.rewrite (.field f) f.name, span := r.span f.span }
  | .mapField f => .mapField
      { f with name := r.rewrite (.mapField f) f.name, span := r.span f.span }
  | .enumValue v => .enumValue
      { v with name := r.rewrite (.enumValue v) v.name, span := r.span v.span }
  | .rpc c => .rpc
      { c with name := r.rewrite (.rpc c) c.name, options := c.options.map r.option,
               span := r.span c.span }
  | .reserved c => .reserved { c with span := r.span c.span }
  | .extensions e => .extensions { e with span := r.span e.span }
  | .block kind name body span =>
      .block kind (r.rewrite (.block kind name body span) name) (declarations body) (r.span span)

def declarations : List Declaration → List Declaration
  | [] => []
  | d :: ds => declaration d :: declarations ds

end

def file (f : SchemaFile) : SchemaFile :=
  ⟨f.filename, r.declarations f.body, r.span f.span⟩

@[simp] theorem kind_declaration (d : Declaration) : (r.declaration d).kind = d.kind := by
  cases d <;> rfl

@[simp] theorem span_declaration (d : Declaration) : (r.declaration d).span = r.span d.span := by
  cases d <;> rfl

theorem name?_declaration (d : Declaration) :
    (r.declaration d).name? = if d.isNamed then d.name?.map (r.rewrite d) else d.name? := by
  cases d with
  | block kind name body span => cases kind <;> rfl
  | _ => rfl

private theorem preorder_rpc (c : Rpc) :
    (r.declaration (.rpc c)).preorder = (Declaration.rpc c).preorder.map r.declaration := by
  simp only [declaration, Declaration.preorder, List.map_cons, List.map_map]
  rfl

mutual

theorem preorder_declaration (d : Declaration) :
    (r.declaration d).preorder = d.preorder.map r.declaration := by
  cases d with
  | block kind name body span =>
    have hbody := preorderAll_declarations body
    simp only [declaration, Declaration.preorder, List.map_cons, hbody]
  | rpc c => exact preorder_rpc r c
  | _ => rfl

theorem preorderAll_declarations (ds : List Declaration) :
    Declaration.preorderAll (r.declarations ds) = (Declaration.preorderAll ds).map r.declaration := by
  cases ds with
  | nil => rfl
  | cons d ds =>
    simp only [declarations, Declaration.preorderAll, List.map_append,
      preorder_declaration d, preorderAll_declarations ds]

end

def node : Node → Node
  | .file f => .file (r.file f)
  | .declaration d => .declaration (r.declaration d)

theorem nodes_file (f : SchemaFile) : (r.file f).nodes = f.nodes.map r.node := by
  unfold SchemaFile.nodes
  rw [file, preorderAll_declarations, List.map_cons, List.map_map, List.map_map]
  rfl

end Renaming

end SchemaLint
