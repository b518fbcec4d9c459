-- Writes strings and keys in the TOML notation that reads best.
namespace PageLocalizer.Toml

-- Control characters, the tab and the line feed aside. They are written as escapes.
def isEscaped (c : Char) : Bool :=
  (c.toNat ≤ 0x1F && c != '\t' && c != '\n') || c.toNat == 0x7F

-- The length of the longest run of `c`; `run` is the length of the run just before.
def longestRunFrom (c : Char) (run : Nat) : List Char → Nat
  | [] => run
  | d :: rest =>
    if d = c then longestRunFrom c (run + 1) rest else max run (longestRunFrom c 0 rest)

def longestRun (c : Char) (s : List Char) : Nat := longestRunFrom c 0 s

inductive Quoting where
  | basic
  | literal
  | multilineBasic
  | multilineLiteral
  deriving Repr, DecidableEq

-- The first way that needs no escape but for tabs, in the order basic, literal and their multi-line
-- forms. Where none will do, a basic string with escapes.
def quoting (s : List Char) : Quoting :=
  let escapes := s.any isEscaped
  let lines := s.contains '\n'
  let backslash := s.contains '\\'
  let double := longestRun '"' s
  let single := longestRun '\'' s
  if !escapes && !backslash && double == 0 && !lines then .basic
  else if !escapes && single == 0 && !lines then .literal
  else if !escapes && !backslash && double ≤ 2 then .multilineBasic
  else if !escapes && single ≤ 2 then .multilineLiteral
  else if lines then .multilineBasic
  else .basic

def hexDigit (n : Nat) : Char :=
  if n < 10 then Char.ofNat (n + '0'.toNat) else Char.ofNat (n - 10 + 'A'.toNat)

-- A character in a basic string. Quotes are dealt with before.
def escapeChar (multiline : Bool) (c : Char) : List Char :=
  if c.toNat = 0x08 then ['\\', 'b']
  else if c = '\t' then ['\\', 't']
  else if c = '\n' then if multiline then ['\n'] else ['\\', 'n']
  else if c.toNat = 0x0C then ['\\', 'f']
  else if c = '\r' then ['\\', 'r']
  else if c = '\\' then ['\\', '\\']
  else if isEscaped c then ['\\', 'u', '0', '0', hexDigit (c.toNat / 16), hexDigit (c.toNat % 16)]
  else [c]

-- The inside of a basic string. In the multi-line form two quotes may follow each other, `run`
-- being the number just written, and the next one is escaped.
def escape (multiline : Bool) (run : Nat) : List Char → List Char
  | [] => []
  | '"' :: rest =>
    if run < (if multiline then 2 else 0) then '"' :: escape multiline (run + 1) rest
    else '\\' :: '"' :: escape multiline 0 rest
  | c :: rest => escapeChar multiline c ++ escape multiline 0 rest

-- A multi-line string with line feeds starts on a line of its own.
def opening (s : List Char) : List Char := if s.contains '\n' then ['\n'] else []

def quoted (s : List Char) : List Char :=
  match quoting s with
  | .basic => '"' :: escape false 0 s ++ ['"']
  | .literal => '\'' :: s ++ ['\'']
  | .multilineBasic => "\"\"\"".toList ++ opening s ++ escape true 0 s ++ "\"\"\"".toList
  | .multilineLiteral => "'''".toList ++ opening s ++ s ++ "'''".toList

def isBareChar (c : Char) : Bool := c.isAlphanum || c == '_' || c == '-'

-- A key is written bare if possible, else on one line.
def quotedKey (s : List Char) : List Char :=
  if s ≠ [] ∧ s.all isBareChar then s
  else
    let plain := !s.any isEscaped && !s.contains '\n'
    if plain && !s.contains '\\' && !s.contains '"' then '"' :: escape false 0 s ++ ['"']
    else if plain && !s.contains '\'' then '\'' :: s ++ ['\'']
    else '"' :: escape false 0 s ++ ['"']

def assignment (key : String) (value : List Char) : List Char :=
  quotedKey key.toList ++ " = ".toList ++ value ++ ['\n']

def stringAssignment (key value : String) : List Char := assignment key (quoted value.toList)

-- A table of strings, its entries in the order given.
def stringTable (entries : List (String × String)) : String :=
  String.ofList (entries.flatMap fun (key, value) => stringAssignment key value)

end PageLocalizer.Toml
