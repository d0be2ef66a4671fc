import SchemaLint.Parse.File
import SchemaLint.Proofs.Layout.Content

/-!
# What a tree says apart from its layout

An outline is a tree without places, in which the tokens stand for whatever the tree keeps as written:
the constants of options, the numbers of enums, and ranges.
-/

set_option autoImplicit false
set_option relaxedAutoImplicit false

namespace SchemaLint

open Text (contents?)

/-- An option by its name and the tokens of its constant. -/
structure Assignment where
  name : String
  constant : List Content
  deriving DecidableEq, Repr

inductive Outline
  | version (version : String) (isEdition : Bool)
  | package (name : String)
  | imported (location : String) (modifier : Option ImportModifier)
  | option (assignment : Assignment)
  | field (cardinality : Option Cardinality) (typeName name number : String)
      (options : List Assignment)
  | mapField (keyType typeName name number : String) (options : List Assignment)
  | enumValue (name : String) (number : List Content) (options : List Assignment)
  | rpc (name : String) (request response : CallMessage) (options : List Assignment)
  | reserved (ranges : List (List Content)) (names : List String)
  | extensions (ranges : List (List Content))
  | block (kind : BlockKind) (name : String) (body : List Outline)
  deriving Repr

/-- An option in brackets apart from its layout. -/
def FieldOption.outline? (o : FieldOption) : Option Assignment := do
  return ⟨o.name, ← contents? o.constant⟩

/-- An option that is a statement apart from its layout. -/
def OptionStatement.outline? (o : OptionStatement) : Option Assignment := do
  return ⟨o.name, ← contents? o.constant⟩

namespace Declaration

mutual

/-- A declaration apart from its layout, where all that it keeps as written has tokens. -/
def outline? : Declaration → Option Outline
  | .version v => some (.version v.version v.isEdition)
  | .package p => some (.package p.name)
  | .imported i => some (.imported i.location i.modifier)
  | .option o => return .option (← o.outline?)
  | .field f => do
    let options ← f.options.mapM FieldOption.outline?
    return .field f.cardinality f.typeName f.name f.number options
  | .mapField f => do
    let options ← f.options.mapM FieldOption.outline?
    return .mapField f.keyType f.typeName f.name f.number options
  | .enumValue v => do
    let number ← contents? v.number
    let options ← v.options.mapM FieldOption.outline?
    return .enumValue v.name number options
  | .rpc r => do
    let options ← r.options.mapM OptionStatement.outline?
    return .rpc r.name r.request r.response options
  | .reserved r => return .reserved (← r.ranges.mapM contents?) r.names
  | .extensions e => return .extensions (← e.ranges.mapM contents?)
  | .block kind name body _ => return .block kind name (← outlineAll? body)

def outlineAll? : List Declaration → Option (List Outline)
  | [] => some []
  | d :: ds => do
    let first ← outline? d
    let others ← outlineAll? ds
    return first :: others

end

end Declaration

def SchemaFile.outline? (file : SchemaFile) : Option (String × List Outline) := do
  return (file.filename, ← Declaration.outlineAll? file.body)

/-- Whether a function gives something, and the same, for both of two values. -/
def Shows {α β : Type} (f : α → Option β) (a a' : α) : Prop :=
  ∃ b, f a = some b ∧ f a' = some b

variable {α β : Type} {f : α → Option β}

theorem Shows.mapM {as as' : List α} (h : List.Forall₂ (Shows f) as as') :
    Shows (List.mapM f) as as' := by
  induction h with
  | nil => exact ⟨[], rfl, rfl⟩
  | cons first others ih =>
    obtain ⟨b, hb, hb'⟩ := first
    obtain ⟨bs, hbs, hbs'⟩ := ih
    exact ⟨b :: bs, by simp [hb, hbs], by simp [hb', hbs']⟩

theorem Shows.outlineAll {ds ds' : List Declaration}
    (h : List.Forall₂ (Shows Declaration.outline?) ds ds') :
    Shows Declaration.outlineAll? ds ds' := by
  induction h with
  | nil => exact ⟨[], rfl, rfl⟩
  | cons first others ih =>
    obtain ⟨o, ho, ho'⟩ := first
    obtain ⟨os, hos, hos'⟩ := ih
    exact ⟨o :: os, by simp [Declaration.outlineAll?, ho, hos],
      by simp [Declaration.outlineAll?, ho', hos']⟩

end SchemaLint
