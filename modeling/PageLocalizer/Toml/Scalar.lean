import PageLocalizer.Number.Double
import PageLocalizer.Toml.Quoted
-- Reads numbers, dates and times, and the other values without quotes.
namespace PageLocalizer.Toml.Parser

-- Digits with single underscores between them, given as digits alone.
def digitRun (isDigit : Char → Bool) : List Char → Option (List Char)
  | [] => none
  | [c] => if isDigit c then some [c] else none
  | c :: '_' :: rest => if isDigit c then (digitRun isDigit rest).map (c :: ·) else none
  | c :: rest => if isDigit c then (digitRun isDigit rest).map (c :: ·) else none

def valueIn (base : Nat) (digits : List Char) : Nat :=
  digits.foldl (fun n d => base * n + (hexValue? d).getD 0) 0

def isBinaryDigit (c : Char) : Bool := c == '0' || c == '1'
def isOctalDigit (c : Char) : Bool := '0' ≤ c && c ≤ '7'
def isHexDigit (c : Char) : Bool := (hexValue? c).isSome

-- Whether a minus stands in front, and what follows the sign.
def signed (s : List Char) : Bool × List Char :=
  match s with
  | '-' :: rest => (true, rest)
  | '+' :: rest => (false, rest)
  | _ => (false, s)

-- Whether underscores stand between digits only. `fits` tells whether one may come next.
def underscoresFit (isDigit : Char → Bool) (fits : Bool) : List Char → Bool
  | [] => true
  | '_' :: rest => fits && rest.head?.any isDigit && underscoresFit isDigit false rest
  | c :: rest => underscoresFit isDigit (isDigit c) rest

-- The marks by which a float is told from an integer.
def isFloatMark (c : Char) : Bool := c == '.' || c == 'e' || c == 'E'

-- A decimal integer without superfluous zeros in front. An underscore may also follow its sign.
-- From the first underscore on anything but a float passes for an integer that has hexadecimal
-- digits beside its underscores, but a value it has only when all of it is digits.
def decimal? (literal : List Char) : Option (Option Int) :=
  let (negative, s) := signed literal
  let more := s.dropWhile Char.isDigit
  let fits := more = [] ∨ (more.head? = some '_' ∧ ¬more.any isFloatMark)
  if s = [] ∨ (s.head? = some '0' ∧ s ≠ ['0']) ∨ ¬fits ∨
      ¬underscoresFit isHexDigit (s.length < literal.length) s then none
  else
    let digits := s.filter (· != '_')
    if digits.all Char.isDigit then
      some (some (if negative then -(valueIn 10 digits : Int) else valueIn 10 digits))
    else some none

-- The digits after the mark of a base, which may be missing.
def based? (base : Nat) (isDigit : Char → Bool) : List Char → Option (Option Int)
  | [] => some none
  | s => (digitRun isDigit s).map fun digits => some (valueIn base digits : Int)

def integer? (s : List Char) : Option (Option Int) :=
  match s with
  | '0' :: 'x' :: rest => based? 16 isHexDigit rest
  | '0' :: 'o' :: rest => based? 8 isOctalDigit rest
  | '0' :: 'b' :: rest => based? 2 isBinaryDigit rest
  | _ => decimal? s

-- Whether a double holds `digits * 10 ^ exponent`. Powers of ten are formed only within its range.
def representable (digits : List Char) (exponent : Int) : Bool :=
  let significant := digits.dropWhile (· == '0')
  let magnitude := significant.length + exponent
  if significant = [] ∨ magnitude < 300 then true
  else if 320 < magnitude then false
  else
    (Number.Double.ofRatio? (valueIn 10 significant * Number.tenTo exponent.toNat)
      (Number.tenTo (-exponent).toNat)).isSome

-- The whole digits of a float, without superfluous zeros in front. After a sign an underscore may
-- come first.
def wholeDigits (hasSign : Bool) : List Char → Option (List Char)
  | '_' :: rest => if hasSign then digitRun Char.isDigit rest else none
  | s => do
    let digits ← digitRun Char.isDigit s
    if digits.length ≠ 1 ∧ digits.head? = some '0' then none else some digits

-- A fraction, an exponent or both after the whole digits. The answer is whether a double holds it.
def float? (literal : List Char) : Option Bool :=
  let s := (signed literal).2
  if s = "inf".toList ∨ s = "nan".toList then some true
  else do
    let isMark := fun c : Char => c == 'e' || c == 'E'
    let mantissa := s.takeWhile (!isMark ·)
    let power := s.dropWhile (!isMark ·)
    let whole ← wholeDigits (s.length < literal.length) (mantissa.takeWhile (· != '.'))
    let places ← match mantissa.dropWhile (· != '.') with
      | [] => some []
      | _ :: rest => digitRun Char.isDigit rest
    let exponent ← match power with
      | [] => some 0
      | _ :: rest =>
        let (negative, digits) := signed rest
        (digitRun Char.isDigit digits).map fun ds : List Char =>
          if negative then -(valueIn 10 ds : Int) else valueIn 10 ds
    if mantissa.length = s.length ∧ places = [] then none
    else some (representable (whole ++ places) (exponent - places.length))

def twoDigits (s : List Char) : Option (Nat × List Char) :=
  match s with
  | a :: b :: rest =>
    if a.isDigit ∧ b.isDigit then some (valueIn 10 [a, b], rest) else none
  | _ => none

def daysIn (year month : Nat) : Nat :=
  if month = 2 then
    if year % 4 = 0 ∧ (year % 100 ≠ 0 ∨ year % 400 = 0) then 29 else 28
  else if month = 4 ∨ month = 6 ∨ month = 9 ∨ month = 11 then 30
  else 31

def date (s : List Char) : Option (List Char) := do
  let (century, s) ← twoDigits s
  let (year, s) ← twoDigits s
  match s with
  | '-' :: s =>
    let (month, s) ← twoDigits s
    match s with
    | '-' :: s =>
      let (day, s) ← twoDigits s
      if 1 ≤ month ∧ month ≤ 12 ∧ 1 ≤ day ∧ day ≤ daysIn (100 * century + year) month then some s
      else none
    | _ => none
  | _ => none

def fraction (s : List Char) : Option (List Char) :=
  match s with
  | '.' :: rest =>
    if (rest.takeWhile Char.isDigit) = [] then none else some (rest.dropWhile Char.isDigit)
  | _ => some s

-- A time of day. The seconds may be left out.
def time (s : List Char) : Option (List Char) := do
  let (hour, s) ← twoDigits s
  match s with
  | ':' :: s =>
    let (minute, s) ← twoDigits s
    if 23 < hour ∨ 59 < minute then none
    else match s with
      | ':' :: s =>
        let (second, s) ← twoDigits s
        if 60 < second then none else fraction s
      | s => some s
  | _ => none

def offset (s : List Char) : Option (List Char) :=
  match s with
  | 'Z' :: rest | 'z' :: rest => some rest
  | '+' :: rest | '-' :: rest => do
    let (hour, s) ← twoDigits rest
    match s with
    | ':' :: s =>
      let (minute, s) ← twoDigits s
      if 23 < hour ∨ 59 < minute then none else some s
    | _ => none
  | _ => some s

def isDatetime (s : List Char) : Bool :=
  match date s with
  | some [] => true
  | some (c :: rest) =>
    (c == 'T' || c == 't' || c == ' ') && ((time rest).bind offset) == some []
  | none => time s == some []

-- The characters that end an unquoted value.
def endsScalar (c : Char) : Bool :=
  isSpace c || c == '\n' || c == '\r' || c == ',' || c == '=' || c == '#' || c == '[' || c == ']' ||
    c == '\x7b' || c == '\x7d'

-- An unquoted value. A date and a time may be held together by a space.
def scalar (s : List Char) : Option (Value × List Char) :=
  let run := s.takeWhile (!endsScalar ·)
  let rest := s.dropWhile (!endsScalar ·)
  let joined := match date run, rest with
    | some [], ' ' :: after =>
      if (after.head?).any Char.isDigit then
        some (run ++ ' ' :: after.takeWhile (!endsScalar ·), after.dropWhile (!endsScalar ·))
      else none
    | _, _ => none
  let (run, rest) := joined.getD (run, rest)
  if run = "true".toList then some (.boolean true, rest)
  else if run = "false".toList then some (.boolean false, rest)
  else match integer? run with
    | some n => some (.integer n, rest)
    | none =>
      match float? run with
      | some held => some (.float held, rest)
      | none => if isDatetime run then some (.datetime, rest) else none

end PageLocalizer.Toml.Parser
