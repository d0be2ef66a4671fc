import SchemaLint.Parse.Declaration
import SchemaLint.Proofs.Parse.Dotted

/-!
# The grammar of schema files

Which rows of lexemes are a schema file, and which tree each of them denotes.  Every rule is a
relation between the lexemes and what they mean; nothing here says how a row of lexemes is read.

Words are not set apart: `message` may be a type and `stream` a name.  Where two rules of a body would
take the same lexemes, one of them asks that the other does not, by the first lexemes alone.
-/

set_option autoImplicit false
set_option relaxedAutoImplicit false

namespace SchemaLint.Grammar

open SchemaLint.Parser (Dotted Scope blockWord spell)

variable {α : Type}

/-- One or more phrases with a punctuation character between each two. -/
inductive Separated (mark : Char) (phrase : List Lexeme → α → Prop) : List Lexeme → List α → Prop
  | last {ls : List Lexeme} {a : α} (only : phrase ls a) : Separated mark phrase ls [a]
  | more {ls ms : List Lexeme} {l : Lexeme} {a : α} {as : List α} (first : phrase ls a)
      (joins : l.token.isSymbol mark) (others : Separated mark phrase ms as) :
      Separated mark phrase (ls ++ l :: ms) (a :: as)

/-- Any number of phrases with any number of lone semicolons around them. -/
inductive Phrases (phrase : List Lexeme → α → Prop) : List Lexeme → List α → Prop
  | nil : Phrases phrase [] []
  | skip {l : Lexeme} {ls : List Lexeme} {as : List α} (semicolon : l.token.isSymbol ';')
      (others : Phrases phrase ls as) : Phrases phrase (l :: ls) as
  | cons {ls ms : List Lexeme} {a : α} {as : List α} (first : phrase ls a)
      (others : Phrases phrase ms as) : Phrases phrase (ls ++ ms) (a :: as)

/-! ### Names -/

/-- The name of a type, meant from where it stands or from the root. -/
inductive TypeName : List Lexeme → String → Prop
  | relative {ls : List Lexeme} {names : List String} (spells : Dotted ls names) :
      TypeName ls (".".intercalate names)
  | absolute {point : Lexeme} {ls : List Lexeme} {names : List String}
      (leads : point.token.isSymbol '.') (spells : Dotted ls names) :
      TypeName (point :: ls) ("." ++ ".".intercalate names)

inductive OptionPart : List Lexeme → String → Prop
  | word {l : Lexeme} (word : l.token.kind = .identifier) : OptionPart [l] l.token.text
  | extension {opening closing : Lexeme} {ls : List Lexeme} {name : String}
      (opens : opening.token.isSymbol '(') (named : TypeName ls name)
      (closes : closing.token.isSymbol ')') :
      OptionPart (opening :: (ls ++ [closing])) ("(" ++ name ++ ")")

inductive OptionName : List Lexeme → String → Prop
  | parts {ls : List Lexeme} {parts : List String} (joined : Separated '.' OptionPart ls parts) :
      OptionName ls (".".intercalate parts)

/-! ### Constants and options -/

inductive Balanced : List Lexeme → Prop
  | nil : Balanced []
  | other {l : Lexeme} {ls : List Lexeme} (not_opening : l.token.isSymbol '\x7b' = false)
      (not_closing : l.token.isSymbol '\x7d' = false) (others : Balanced ls) : Balanced (l :: ls)
  | nested {opening closing : Lexeme} {ls ms : List Lexeme} (opens : opening.token.isSymbol '\x7b')
      (inside : Balanced ls) (closes : closing.token.isSymbol '\x7d') (others : Balanced ms) :
      Balanced (opening :: (ls ++ closing :: ms))

inductive Value : List Lexeme → Prop
  | number {l : Lexeme} (number : l.token.kind = .number) : Value [l]
  | strings {l : Lexeme} {ls : List Lexeme} (first : l.token.kind = .string)
      (others : ∀ m ∈ ls, m.token.kind = .string) : Value (l :: ls)
  | words {ls : List Lexeme} {names : List String} (spells : Dotted ls names) : Value ls

inductive Constant : List Lexeme → Prop
  | block {opening closing : Lexeme} {ls : List Lexeme} (opens : opening.token.isSymbol '\x7b')
      (inside : Balanced ls) (closes : closing.token.isSymbol '\x7d') :
      Constant (opening :: (ls ++ [closing]))
  | plain {ls : List Lexeme} (value : Value ls) : Constant ls
  | signed {sign : Lexeme} {ls : List Lexeme}
      (signs : sign.token.isSymbol '-' ∨ sign.token.isSymbol '+') (value : Value ls) :
      Constant (sign :: ls)

inductive BracketOption : List Lexeme → FieldOption → Prop
  | assignment {equals : Lexeme} {ls ms : List Lexeme} {name : String} (named : OptionName ls name)
      (assigns : equals.token.isSymbol '=') (constant : Constant ms) :
      BracketOption (ls ++ equals :: ms) ⟨name, spell ms⟩

inductive BracketOptions : List Lexeme → List FieldOption → Prop
  | absent : BracketOptions [] []
  | brackets {opening closing : Lexeme} {ls : List Lexeme} {options : List FieldOption}
      (opens : opening.token.isSymbol '[') (listed : Separated ',' BracketOption ls options)
      (closes : closing.token.isSymbol ']') : BracketOptions (opening :: (ls ++ [closing])) options

/-! ### Ranges -/

inductive SignedNumber : List Lexeme → Prop
  | plain {l : Lexeme} (number : l.token.kind = .number) : SignedNumber [l]
  | negative {sign l : Lexeme} (signs : sign.token.isSymbol '-') (number : l.token.kind = .number) :
      SignedNumber [sign, l]

/-- One number, or all numbers from one on to another or to the highest. -/
inductive Range : List Lexeme → String → Prop
  | single {ls : List Lexeme} (low : SignedNumber ls) : Range ls (spell ls)
  | bounded {middle : Lexeme} {ls ms : List Lexeme} (low : SignedNumber ls)
      (word : middle.token.isWord "to") (high : SignedNumber ms) :
      Range (ls ++ middle :: ms) (spell ls ++ " to " ++ spell ms)
  | unbounded {middle highest : Lexeme} {ls : List Lexeme} (low : SignedNumber ls)
      (word : middle.token.isWord "to") (last : highest.token.isWord "max") :
      Range (ls ++ [middle, highest]) (spell ls ++ " to " ++ "max")

/-! ### Statements -/

inductive VersionClause : List Lexeme → LanguageVersion → Prop
  | mk {first equals version last : Lexeme}
      (word : first.token.isWord "syntax" ∨ first.token.isWord "edition")
      (assigns : equals.token.isSymbol '=') (quoted : version.token.kind = .string)
      (ends : last.token.isSymbol ';') :
      VersionClause [first, equals, version, last]
        ⟨version.token.unquoted, first.token.isWord "edition",
          ⟨first.token.position, last.token.position⟩⟩

inductive PackageClause : List Lexeme → Package → Prop
  | mk {first last : Lexeme} {ls : List Lexeme} {names : List String}
      (word : first.token.isWord "package") (spells : Dotted ls names)
      (ends : last.token.isSymbol ';') :
      PackageClause (first :: (ls ++ [last]))
        ⟨".".intercalate names, ⟨first.token.position, last.token.position⟩⟩

inductive Modifier : List Lexeme → Option ImportModifier → Prop
  | absent : Modifier [] none
  | weakly {l : Lexeme} (word : l.token.isWord "weak") : Modifier [l] (some .weakly)
  | publicly {l : Lexeme} (word : l.token.isWord "public") : Modifier [l] (some .publicly)

inductive ImportClause : List Lexeme → Import → Prop
  | mk {first location last : Lexeme} {ls : List Lexeme} {modifier : Option ImportModifier}
      (word : first.token.isWord "import") (modifies : Modifier ls modifier)
      (quoted : location.token.kind = .string) (ends : last.token.isSymbol ';') :
      ImportClause (first :: (ls ++ [location, last]))
        ⟨location.token.unquoted, modifier, ⟨first.token.position, last.token.position⟩⟩

inductive OptionClause : List Lexeme → OptionStatement → Prop
  | mk {first equals last : Lexeme} {ls ms : List Lexeme} {name : String}
      (word : first.token.isWord "option") (named : OptionName ls name)
      (assigns : equals.token.isSymbol '=') (constant : Constant ms)
      (ends : last.token.isSymbol ';') :
      OptionClause (first :: (ls ++ equals :: (ms ++ [last])))
        ⟨name, spell ms, ⟨first.token.position, last.token.position⟩⟩

/-- What follows the type of a field: its name, its number, its options and the semicolon. -/
inductive FieldEnd : List Lexeme → String → String → List FieldOption → Position → Prop
  | mk {name equals number last : Lexeme} {ls : List Lexeme} {options : List FieldOption}
      (word : name.token.kind = .identifier) (assigns : equals.token.isSymbol '=')
      (digits : number.token.kind = .number) (listed : BracketOptions ls options)
      (ends : last.token.isSymbol ';') :
      FieldEnd (name :: equals :: number :: (ls ++ [last])) name.token.text number.token.text options
        last.token.position

def labelWord : Cardinality → String
  | .optional => "optional"
  | .required => "required"
  | .repeated => "repeated"

/-- A field.  The word of a label is one, unless it is the whole of the field's type. -/
inductive FieldClause : List Lexeme → Field → Prop
  | labelled {label : Lexeme} {ls ms : List Lexeme} {c : Cardinality} {type name number : String}
      {options : List FieldOption} {last : Position} (word : label.token.isWord (labelWord c))
      (typed : TypeName ls type) (ends : FieldEnd ms name number options last) :
      FieldClause (label :: (ls ++ ms))
        ⟨some c, type, name, number, options, ⟨label.token.position, last⟩⟩
  | plain {first : Lexeme} {ls ms : List Lexeme} {type name number : String}
      {options : List FieldOption} {last : Position}
      (no_label : ls = [] ∨ ∀ c, first.token.isWord (labelWord c) = false)
      (typed : TypeName (first :: ls) type) (ends : FieldEnd ms name number options last) :
      FieldClause (first :: (ls ++ ms))
        ⟨none, type, name, number, options, ⟨first.token.position, last⟩⟩

inductive MapClause : List Lexeme → MapField → Prop
  | mk {first opening key comma closing : Lexeme} {ls ms : List Lexeme} {type name number : String}
      {options : List FieldOption} {last : Position} (word : first.token.isWord "map")
      (opens : opening.token.isSymbol '<') (keyed : key.token.kind = .identifier)
      (parts : comma.token.isSymbol ',') (typed : TypeName ls type)
      (closes : closing.token.isSymbol '>') (ends : FieldEnd ms name number options last) :
      MapClause (first :: opening :: key :: comma :: (ls ++ closing :: ms))
        ⟨key.token.text, type, name, number, options, ⟨first.token.position, last⟩⟩

inductive ValueClause : List Lexeme → EnumValue → Prop
  | mk {name equals last : Lexeme} {ls ms : List Lexeme} {options : List FieldOption}
      (word : name.token.kind = .identifier) (assigns : equals.token.isSymbol '=')
      (digits : SignedNumber ls) (listed : BracketOptions ms options)
      (ends : last.token.isSymbol ';') :
      ValueClause (name :: equals :: (ls ++ (ms ++ [last])))
        ⟨name.token.text, spell ls, options, ⟨name.token.position, last.token.position⟩⟩

/-- Whether lexemes begin with a point that has no room before it. -/
def touches (ls : List Lexeme) : Bool :=
  ls.head?.any fun l => l.token.isSymbol '.' && l.gap.isEmpty

/-- What a call takes or gives.  `(stream)` and `(stream.Reply)` name a type; `(stream Reply)` and
`(stream .Reply)` have one that is streamed. -/
inductive CallSide : List Lexeme → CallMessage → Prop
  | single {opening first closing : Lexeme} {ls : List Lexeme} {type : String}
      (opens : opening.token.isSymbol '(')
      (no_stream : first.token.isWord "stream" → ls = [] ∨ touches ls)
      (typed : TypeName (first :: ls) type) (closes : closing.token.isSymbol ')') :
      CallSide (opening :: first :: (ls ++ [closing])) ⟨type, false⟩
  | streamed {opening word closing : Lexeme} {ls : List Lexeme} {type : String}
      (opens : opening.token.isSymbol '(') (stream : word.token.isWord "stream")
      (apart : touches ls = false) (typed : TypeName ls type)
      (closes : closing.token.isSymbol ')') :
      CallSide (opening :: word :: (ls ++ [closing])) ⟨type, true⟩

/-- What follows the two sides of a call: a semicolon, or options between braces. -/
inductive CallEnd : List Lexeme → List OptionStatement → Position → Prop
  | semicolon {last : Lexeme} (ends : last.token.isSymbol ';') : CallEnd [last] [] last.token.position
  | block {opening closing : Lexeme} {ls : List Lexeme} {options : List OptionStatement}
      (opens : opening.token.isSymbol '\x7b') (inside : Phrases OptionClause ls options)
      (closes : closing.token.isSymbol '\x7d') :
      CallEnd (opening :: (ls ++ [closing])) options closing.token.position

inductive CallClause : List Lexeme → Rpc → Prop
  | mk {first name returns : Lexeme} {ls ms ns : List Lexeme} {request response : CallMessage}
      {options : List OptionStatement} {last : Position} (word : first.token.isWord "rpc")
      (named : name.token.kind = .identifier) (takes : CallSide ls request)
      (between : returns.token.isWord "returns") (gives : CallSide ms response)
      (ends : CallEnd ns options last) :
      CallClause (first :: name :: (ls ++ returns :: (ms ++ ns)))
        ⟨name.token.text, request, response, options, ⟨first.token.position, last⟩⟩

inductive ReservedName : List Lexeme → String → Prop
  | mk {l : Lexeme} (sort : l.token.kind = .string ∨ l.token.kind = .identifier) :
      ReservedName [l] l.token.unquoted

inductive ReservedClause : List Lexeme → Reserved → Prop
  | numbers {first last : Lexeme} {ls : List Lexeme} {ranges : List String}
      (word : first.token.isWord "reserved") (listed : Separated ',' Range ls ranges)
      (ends : last.token.isSymbol ';') :
      ReservedClause (first :: (ls ++ [last]))
        ⟨ranges, [], ⟨first.token.position, last.token.position⟩⟩
  | names {first last : Lexeme} {ls : List Lexeme} {names : List String}
      (word : first.token.isWord "reserved") (listed : Separated ',' ReservedName ls names)
      (ends : last.token.isSymbol ';') :
      ReservedClause (first :: (ls ++ [last]))
        ⟨[], names, ⟨first.token.position, last.token.position⟩⟩

/-- Numbers for extensions.  The tree does not keep the options. -/
inductive ExtensionsClause : List Lexeme → Extensions → Prop
  | mk {first last : Lexeme} {ls ms : List Lexeme} {ranges : List String}
      {options : List FieldOption} (word : first.token.isWord "extensions")
      (listed : Separated ',' Range ls ranges) (dropped : BracketOptions ms options)
      (ends : last.token.isSymbol ';') :
      ExtensionsClause (first :: (ls ++ (ms ++ [last])))
        ⟨ranges, ⟨first.token.position, last.token.position⟩⟩

/-! ### Bodies -/

/-- Whether the third lexeme is an equals sign, as it is in a field whose type is one word. -/
def assignsThird (ls : List Lexeme) : Bool :=
  (ls[2]?).any (·.token.isSymbol '=')

def bodyWords : List String :=
  ["message", "enum", "oneof", "extend", "reserved", "extensions"]

/-- The statements that may stand in a file or in the body of a block.  What begins with `option` is an
option where there are any.  In a message the words of other declarations begin a field only as its
type, when the third lexeme assigns its number. -/
inductive Statement : Scope → List Lexeme → Declaration → Prop
  | version {ls : List Lexeme} {v : LanguageVersion} (clause : VersionClause ls v) :
      Statement .file ls (.version v)
  | package {ls : List Lexeme} {p : Package} (clause : PackageClause ls p) :
      Statement .file ls (.package p)
  | imported {ls : List Lexeme} {i : Import} (clause : ImportClause ls i) :
      Statement .file ls (.imported i)
  | option {scope : Scope} {ls : List Lexeme} {o : OptionStatement}
      (listed : scope ≠ .body .extend) (clause : OptionClause ls o) :
      Statement scope ls (.option o)
  | reserved {kind : BlockKind} {ls : List Lexeme} {c : Reserved}
      (listed : kind = .message ∨ kind = .enumeration) (clause : ReservedClause ls c) :
      Statement (.body kind) ls (.reserved c)
  | extensions {ls : List Lexeme} {e : Extensions} (clause : ExtensionsClause ls e) :
      Statement (.body .message) ls (.extensions e)
  | mapField {ls : List Lexeme} {f : MapField} (clause : MapClause ls f) :
      Statement (.body .message) ls (.mapField f)
  | messageField {first : Lexeme} {ls : List Lexeme} {f : Field}
      (no_option : first.token.isWord "option" = false)
      (as_type : assignsThird (first :: ls) ∨ ∀ word ∈ bodyWords, first.token.isWord word = false)
      (clause : FieldClause (first :: ls) f) : Statement (.body .message) (first :: ls) (.field f)
  | oneofField {first : Lexeme} {ls : List Lexeme} {f : Field}
      (no_option : first.token.isWord "option" = false) (clause : FieldClause (first :: ls) f) :
      Statement (.body .oneof) (first :: ls) (.field f)
  | extendField {ls : List Lexeme} {f : Field} (clause : FieldClause ls f) :
      Statement (.body .extend) ls (.field f)
  | enumValue {ls : List Lexeme} {v : EnumValue} (no_option : v.name ≠ "option")
      (no_reserved : v.name ≠ "reserved") (clause : ValueClause ls v) :
      Statement (.body .enumeration) ls (.enumValue v)
  | rpc {ls : List Lexeme} {c : Rpc} (clause : CallClause ls c) :
      Statement (.body .service) ls (.rpc c)

/-- The blocks that may stand in a file or in the body of a block. -/
def blocks : Scope → List BlockKind
  | .file => [.message, .enumeration, .service, .extend]
  | .body .message => [.message, .enumeration, .oneof, .extend]
  | .body _ => []

/-- What a block is called: a word, or the type that it extends. -/
inductive BlockName : BlockKind → List Lexeme → String → Prop
  | word {kind : BlockKind} {l : Lexeme} (names : kind ≠ .extend)
      (word : l.token.kind = .identifier) : BlockName kind [l] l.token.text
  | extended {ls : List Lexeme} {name : String} (typed : TypeName ls name) :
      BlockName .extend ls name

inductive BlockHead : BlockKind → List Lexeme → String → Position → Prop
  | mk {kind : BlockKind} {first opening : Lexeme} {ls : List Lexeme} {name : String}
      (word : first.token.isWord (blockWord kind)) (named : BlockName kind ls name)
      (opens : opening.token.isSymbol '\x7b') :
      BlockHead kind (first :: (ls ++ [opening])) name first.token.position

/-- A file, or the body of a block: statements, blocks and lone semicolons. -/
inductive Body : Scope → List Lexeme → List Declaration → Prop
  | nil {scope : Scope} : Body scope [] []
  | skip {scope : Scope} {l : Lexeme} {ls : List Lexeme} {ds : List Declaration}
      (semicolon : l.token.isSymbol ';') (others : Body scope ls ds) : Body scope (l :: ls) ds
  | statement {scope : Scope} {ls ms : List Lexeme} {d : Declaration} {ds : List Declaration}
      (first : Statement scope ls d) (others : Body scope ms ds) : Body scope (ls ++ ms) (d :: ds)
  | block {scope : Scope} {kind : BlockKind} {ls ms ns : List Lexeme} {closing : Lexeme}
      {name : String} {first : Position} {body ds : List Declaration} (listed : kind ∈ blocks scope)
      (head : BlockHead kind ls name first) (inside : Body (.body kind) ms body)
      (closes : closing.token.isSymbol '\x7d') (others : Body scope ns ds) :
      Body scope (ls ++ (ms ++ closing :: ns))
        (.block kind name body ⟨first, closing.token.position⟩ :: ds)

end SchemaLint.Grammar
