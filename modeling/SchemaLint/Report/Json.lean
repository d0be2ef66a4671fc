import SchemaLint.Report
import SchemaLint.Text.Quoted

/-!
# Reports in JSON

A report as one JSON document over several lines, each level of it two blanks further in.  A value
is given by its lines, so that a value inside another is its lines moved in.
-/

set_option autoImplicit false
set_option relaxedAutoImplicit false

namespace SchemaLint

namespace Json

/-- One character of a quoted text.  Only quotes, backslashes and control characters are escaped,
those with a letter of their own by that letter. -/
def escapeChar (c : Char) : List Char :=
  if c = '"' || c = '\\' then ['\\', c]
  else if c = '\n' then ['\\', 'n']
  else if c = '\r' then ['\\', 'r']
  else if c = '\t' then ['\\', 't']
  else if c = '\x08' then ['\\', 'b']
  else if c = '\x0c' then ['\\', 'f']
  else if c.toNat < 0x20 then
    ['\\', 'u', '0', '0'] ++ (if c.toNat < 0x10 then ['0'] else []) ++ Text.hexadecimal c.toNat
  else [c]

def text (s : String) : List String :=
  [String.ofList ('"' :: s.toList.flatMap escapeChar ++ ['"'])]

def number (n : Nat) : List String :=
  [toString n]

def withComma : List String → List String
  | [] => []
  | [line] => [line ++ ","]
  | line :: lines => line :: withComma lines

def separated : List (List String) → List String
  | [] => []
  | [value] => value
  | value :: values => withComma value ++ separated values

/-- Values between two brackets, moved in.  Without values the brackets stand together. -/
def enclosed (opening closing : String) (values : List (List String)) : List String :=
  if values.isEmpty then [opening ++ closing]
  else opening :: (separated values).map ("  " ++ ·) ++ [closing]

def list (values : List (List String)) : List String :=
  enclosed "[" "]" values

def field (key : String) (value : List String) : List String :=
  match value with
  | [] => []
  | line :: lines => s!"\"{key}\": {line}" :: lines

def record (fields : List (String × List String)) : List String :=
  enclosed "\x7b" "\x7d" (fields.map fun (key, value) => field key value)

end Json

def Failure.json (f : Failure) : List String :=
  Json.record
    [("filename", Json.text f.position.filename), ("offset", Json.number f.position.offset),
      ("line", Json.number f.position.line), ("column", Json.number f.position.column),
      ("ruleID", Json.text f.ruleId), ("message", Json.text f.message),
      ("severity", Json.text f.severity.render)]

def FileError.json (e : FileError) : List String :=
  Json.record [("path", Json.text e.path), ("message", Json.text e.message)]

def RunReport.json (r : RunReport) : List String :=
  Json.record
    [("failures", Json.list (r.failures.map Failure.json)),
      ("errors", Json.list (r.errors.map FileError.json)),
      ("summary", Json.record
        [("files_checked", Json.number r.filesChecked), ("files_fixed", Json.number r.filesFixed),
          ("errors", Json.number (r.count .error)), ("warnings", Json.number (r.count .warning)),
          ("infos", Json.number (r.count .info))])]

end SchemaLint
