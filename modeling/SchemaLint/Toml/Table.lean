/-!
# TOML tables

The values of a TOML document and the rules by which its lines add up to one table.  A table
remembers how it came about, since that decides what may still be added to it.
-/

set_option autoImplicit false
set_option relaxedAutoImplicit false

namespace SchemaLint.Toml

/-- How a table came about: by a header of its own, as a part of another table's header, as a part
of a dotted key, or between braces. -/
inductive Origin
  | header | implied | dotted | inline
  deriving DecidableEq, Repr

/-- A value.  Floats and points in time are told apart from other values but not kept. -/
inductive Value
  | text (s : String)
  | integer (n : Int)
  | float
  | boolean (b : Bool)
  | moment
  | array (elements : List Value)
  | table (origin : Origin) (entries : List (String × Value))
  | tables (elements : List (List (String × Value)))
  deriving Repr, Inhabited

abbrev Entries := List (String × Value)

namespace Entries

def get? (entries : Entries) (key : String) : Option Value :=
  entries.lookup key

def put (entries : Entries) (key : String) (value : Value) : Entries :=
  entries.map fun (k, v) => if k = key then (k, value) else (k, v)

/-- Change the table at the end of a path of keys, making the tables on the way that are missing.
A path that is part of a dotted key may not lead through a table that has a header of its own; the
last element stands for an array of tables. -/
def descend (isDotted : Bool) (change : Origin → Entries → Option Entries) :
    List String → Origin → Entries → Option Entries
  | [], origin, entries => change origin entries
  | key :: path, _, entries =>
    match entries.get? key with
    | none => do
      let origin := if isDotted then Origin.dotted else .implied
      let inner ← descend isDotted change path origin []
      return entries ++ [(key, .table origin inner)]
    | some (.table origin inner) =>
      if origin = .inline || (isDotted && origin = .header) then none
      else do
        let changed ← descend isDotted change path origin inner
        return entries.put key (.table origin changed)
    | some (.tables elements) => do
      let inner ← elements.getLast?
      let changed ← descend isDotted change path .header inner
      return entries.put key (.tables (elements.dropLast ++ [changed]))
    | some _ => none

/-- Add a value under a dotted key.  The key must be new, and the table it goes to must have come
about by dotted keys alone when the key has more than one part. -/
def assign (entries : Entries) (path : List String) (key : String) (value : Value) :
    Option Entries :=
  descend true (fun origin inner =>
    if (path.isEmpty || origin = .dotted) && (inner.get? key).isNone then
      some (inner ++ [(key, value)])
    else none) path .header entries

/-- Open the table of a header.  It must be new, or known only as a part of other headers. -/
def openTable (entries : Entries) (path : List String) (key : String) : Option Entries :=
  descend false (fun _ inner =>
    match inner.get? key with
    | none => some (inner ++ [(key, .table .header [])])
    | some (.table .implied below) => some (inner.put key (.table .header below))
    | some _ => none) path .header entries

def openElement (entries : Entries) (path : List String) (key : String) : Option Entries :=
  descend false (fun _ inner =>
    match inner.get? key with
    | none => some (inner ++ [(key, .tables [[]])])
    | some (.tables elements) => some (inner.put key (.tables (elements ++ [[]])))
    | some _ => none) path .header entries

def assignBelow (entries : Entries) (header path : List String) (key : String) (value : Value) :
    Option Entries :=
  descend false (fun _ inner => inner.assign path key value) header .header entries

end Entries

end SchemaLint.Toml
