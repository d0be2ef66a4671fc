import SchemaLint.Text.Search
import SchemaLint.Toml.Table

/-!
# TOML numbers and points in time

A word that begins with a digit or a sign is an integer, a float, or a point in time.
-/

set_option autoImplicit false
set_option relaxedAutoImplicit false

namespace SchemaLint.Toml

def digit? (base : Nat) (c : Char) : Option Nat :=
  let value :=
    if '0' ≤ c && c ≤ '9' then some (c.toNat - '0'.toNat)
    else if 'a' ≤ c && c ≤ 'f' then some (c.toNat - 'a'.toNat + 10)
    else if 'A' ≤ c && c ≤ 'F' then some (c.toNat - 'A'.toNat + 10)
    else none
  value.filter (· < base)

def digits? (base : Nat) : List Char → Option (List Nat)
  | [] => none
  | [c] => (digit? base c).map fun d => [d]
  | c :: '_' :: rest => do
    let d ← digit? base c
    let ds ← digits? base rest
    return d :: ds
  | c :: rest => do
    let d ← digit? base c
    let ds ← digits? base rest
    return d :: ds

def ofDigits (base : Nat) (ds : List Nat) : Nat :=
  ds.foldl (fun n d => n * base + d) 0

def decimal? (cs : List Char) : Option (List Nat) := do
  let ds ← digits? 10 cs
  if 1 < ds.length && ds.head? = some 0 then none else some ds

def splitSign : List Char → Bool × List Char
  | '-' :: cs => (true, cs)
  | '+' :: cs => (false, cs)
  | cs => (false, cs)

def fitting? (n : Int) : Option Int :=
  if -9223372036854775808 ≤ n ∧ n ≤ 9223372036854775807 then some n else none

def integer? : List Char → Option Int
  | '0' :: 'x' :: cs => do fitting? (ofDigits 16 (← digits? 16 cs))
  | '0' :: 'o' :: cs => do fitting? (ofDigits 8 (← digits? 8 cs))
  | '0' :: 'b' :: cs => do fitting? (ofDigits 2 (← digits? 2 cs))
  | cs => do
    let (negative, unsigned) := splitSign cs
    let n ← ofDigits 10 <$> decimal? unsigned
    fitting? (if negative then -(n : Int) else n)

def isInRange (ds : List Nat) (exponent : Int) : Bool :=
  let n := ofDigits 10 ds
  let size := (Nat.toDigits 10 n).length + exponent
  if n = 0 || size < 300 then true
  else if 320 < size then false
  else if 0 ≤ exponent then n * Nat.pow 10 exponent.toNat < Nat.pow 2 1024 - Nat.pow 2 970
  else n < (Nat.pow 2 1024 - Nat.pow 2 970) * Nat.pow 10 (-exponent).toNat

def exponent? (cs : List Char) : Option Int := do
  let (negative, unsigned) := splitSign cs
  let n ← ofDigits 10 <$> digits? 10 unsigned
  return if negative then -(n : Int) else n

/-- Whether a word is a float: a decimal number with a fraction or an exponent, or one of the two
words for what is no number.  Only a negative one may be too large. -/
def isFloat (cs : List Char) : Bool :=
  let (negative, unsigned) := splitSign cs
  if unsigned = "inf".toList || unsigned = "nan".toList then true
  else
    let mantissa := unsigned.takeWhile fun c => c ≠ 'e' && c ≠ 'E'
    let power := unsigned.dropWhile fun c => c ≠ 'e' && c ≠ 'E'
    let whole := mantissa.takeWhile (· ≠ '.')
    let fraction := mantissa.dropWhile (· ≠ '.')
    let parts : Option (List Nat × Int) := do
      let ws ← decimal? whole
      let fs ← if fraction.isEmpty then some [] else digits? 10 fraction.tail
      let e ← if power.isEmpty then some 0 else exponent? power.tail
      if fraction.isEmpty && power.isEmpty then none else some (ws ++ fs, e - fs.length)
    match parts with
    | some (ds, e) => negative || isInRange ds e
    | none => false

def twoDigits? (low high : Nat) : List Char → Option Nat
  | [a, b] => do
    let n := 10 * (← digit? 10 a) + (← digit? 10 b)
    if low ≤ n && n ≤ high then some n else none
  | _ => none

def daysIn (year month : Nat) : Nat :=
  if month = 2 then
    if year % 4 = 0 && (year % 100 ≠ 0 || year % 400 = 0) then 29 else 28
  else if [4, 6, 9, 11].contains month then 30 else 31

def isDate (cs : List Char) : Bool :=
  let parsed : Option Nat :=
    match Text.splitOn '-' cs with
    | [year, month, day] => do
      let ys ← year.mapM (digit? 10)
      if ys.length = 4 then
        let m ← twoDigits? 1 12 month
        twoDigits? 1 (daysIn (ofDigits 10 ys) m) day
      else none
    | _ => none
  parsed.isSome

def isTime (cs : List Char) : Bool :=
  match Text.splitOn ':' cs with
  | [hour, minute, second] =>
    let fraction := second.dropWhile (· ≠ '.')
    (twoDigits? 0 23 hour).isSome && (twoDigits? 0 59 minute).isSome &&
      (twoDigits? 0 60 (second.takeWhile (· ≠ '.'))).isSome &&
      (fraction.isEmpty || (1 < fraction.length && fraction.tail.all Char.isDigit))
  | _ => false

/-- Whether a word is a distance from the prime meridian's time: hours and minutes. -/
def isOffset (cs : List Char) : Bool :=
  match Text.splitOn ':' cs with
  | [hour, minute] => (twoDigits? 0 23 hour).isSome && (twoDigits? 0 59 minute).isSome
  | _ => false

def isOffsetTime (cs : List Char) : Bool :=
  let time := cs.takeWhile fun c => c ≠ 'Z' && c ≠ 'z' && c ≠ '+' && c ≠ '-'
  match cs.dropWhile fun c => c ≠ 'Z' && c ≠ 'z' && c ≠ '+' && c ≠ '-' with
  | [] => isTime time
  | [c] => isTime time && (c = 'Z' || c = 'z')
  | c :: offset => isTime time && (c = '+' || c = '-') && isOffset offset

/-- Whether a word is a point in time: a date, a time of day, or both. -/
def isMoment (cs : List Char) : Bool :=
  isDate cs || isTime cs ||
    (isDate (cs.take 10) &&
      match cs.drop 10 with
      | c :: time => (c = 'T' || c = 't' || c = ' ') && isOffsetTime time
      | [] => false)

def scalar? (cs : List Char) : Option Value :=
  if cs = "true".toList then some (.boolean true)
  else if cs = "false".toList then some (.boolean false)
  else
    match integer? cs with
    | some n => some (.integer n)
    | none =>
      if isFloat cs then some .float
      else if isMoment cs then some .moment
      else none

end SchemaLint.Toml
