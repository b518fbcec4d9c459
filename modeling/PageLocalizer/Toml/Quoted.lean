import PageLocalizer.Toml.Value
-- Reads what stands between the values of a TOML document, and its strings.
--
-- A reader takes the characters that are left and gives what it read with the characters left after
-- it, or nothing when the text is malformed. Loops carry the number of rounds they may make, for
-- which the length of the text is enough.
namespace PageLocalizer.Toml.Parser

def isSpace (c : Char) : Bool := c == ' ' || c == '\t'

def skipSpaces (s : List Char) : List Char := s.dropWhile isSpace

def lineEnd? : List Char → Option (List Char)
  | '\n' :: rest => some rest
  | '\r' :: '\n' :: rest => some rest
  | _ => none

-- Control characters other than the tab stand nowhere.
def isControl (c : Char) : Bool := (c.toNat ≤ 0x1F && c != '\t') || c.toNat == 0x7F

-- A comment up to the end of its line.
def skipComment : List Char → Option (List Char)
  | [] => some []
  | '\n' :: rest => some ('\n' :: rest)
  | '\r' :: '\n' :: rest => some ('\r' :: '\n' :: rest)
  | c :: rest => if isControl c then none else skipComment rest

-- Spaces and a comment, up to the end of the line.
def skipToLineEnd (s : List Char) : Option (List Char) :=
  match skipSpaces s with
  | '#' :: rest => skipComment rest
  | s => some s

-- Spaces, comments and line ends, as they may stand inside arrays and inline tables.
def skipFiller : Nat → List Char → Option (List Char)
  | 0, s => some s
  | rounds + 1, s => do
    let s ← skipToLineEnd s
    match lineEnd? s with
    | some rest => skipFiller rounds rest
    | none => some s

def hexValue? (c : Char) : Option Nat :=
  if c.isDigit then some (c.toNat - '0'.toNat)
  else if 'a' ≤ c ∧ c ≤ 'f' then some (c.toNat - 'a'.toNat + 10)
  else if 'A' ≤ c ∧ c ≤ 'F' then some (c.toNat - 'A'.toNat + 10)
  else none

def charOfHex? (digits : List Char) : Option Char := do
  let values ← digits.mapM hexValue?
  let n := values.foldl (fun n d => 16 * n + d) 0
  if n.isValidChar then some (Char.ofNat n) else none

-- The character that an escape stands for, the backslash already read.
def escaped : List Char → Option (Char × List Char)
  | 'b' :: rest => some (Char.ofNat 0x08, rest)
  | 't' :: rest => some ('\t', rest)
  | 'n' :: rest => some ('\n', rest)
  | 'f' :: rest => some (Char.ofNat 0x0C, rest)
  | 'r' :: rest => some ('\r', rest)
  | 'e' :: rest => some (Char.ofNat 0x1B, rest)
  | '"' :: rest => some ('"', rest)
  | '\\' :: rest => some ('\\', rest)
  | 'x' :: a :: b :: rest => (charOfHex? [a, b]).map (·, rest)
  | 'u' :: a :: b :: c :: d :: rest => (charOfHex? [a, b, c, d]).map (·, rest)
  | 'U' :: a :: b :: c :: d :: e :: f :: g :: h :: rest =>
    (charOfHex? [a, b, c, d, e, f, g, h]).map (·, rest)
  | _ => none

def basic : Nat → List Char → Option (List Char × List Char)
  | 0, _ => none
  | _ + 1, [] => none
  | _ + 1, '"' :: rest => some ([], rest)
  | rounds + 1, '\\' :: rest => do
    let (c, s) ← escaped rest
    let (cs, s) ← basic rounds s
    some (c :: cs, s)
  | rounds + 1, c :: rest =>
    if isControl c then none
    else do
      let (cs, s) ← basic rounds rest
      some (c :: cs, s)

def literal : List Char → Option (List Char × List Char)
  | [] => none
  | '\'' :: rest => some ([], rest)
  | c :: rest =>
    if isControl c then none else (literal rest).map fun (cs, s) => (c :: cs, s)

-- The line feed right after the opening of a multi-line string is no part of it.
def skipFirstLineEnd (s : List Char) : List Char := (lineEnd? s).getD s

-- Spaces and line ends. A carriage return alone is not a line end.
def skipBlank : List Char → List Char
  | ' ' :: rest => skipBlank rest
  | '\t' :: rest => skipBlank rest
  | '\n' :: rest => skipBlank rest
  | '\r' :: '\n' :: rest => skipBlank rest
  | s => s

-- A backslash at the end of a line swallows blank space up to the next other character.
def skipContinuation (s : List Char) : Option (List Char) :=
  (lineEnd? (skipSpaces s)).map skipBlank

-- The quotes at the end of a multi-line string: up to two of them belong to the string.
def closingQuotes (quote : Char) (s : List Char) : Option (List Char × List Char) :=
  let run := s.takeWhile (· == quote)
  if run.length < 3 ∨ 5 < run.length then none
  else some (run.drop 3, s.dropWhile (· == quote))

-- A multi-line basic string up to its closing quotes.
def multilineBasic : Nat → List Char → Option (List Char × List Char)
  | 0, _ => none
  | _ + 1, [] => none
  | rounds + 1, '"' :: rest =>
    if rest.take 2 = ['"', '"'] then closingQuotes '"' ('"' :: rest)
    else do
      let (cs, s) ← multilineBasic rounds rest
      some ('"' :: cs, s)
  | rounds + 1, '\\' :: rest =>
    match skipContinuation rest with
    | some s => multilineBasic rounds s
    | none => do
      let (c, s) ← escaped rest
      let (cs, s) ← multilineBasic rounds s
      some (c :: cs, s)
  | rounds + 1, '\r' :: rest =>
    match rest with
    | '\n' :: rest => do
      let (cs, s) ← multilineBasic rounds rest
      some ('\r' :: '\n' :: cs, s)
    | _ => none
  | rounds + 1, c :: rest =>
    if isControl c && c != '\n' then none
    else do
      let (cs, s) ← multilineBasic rounds rest
      some (c :: cs, s)

def multilineLiteral : Nat → List Char → Option (List Char × List Char)
  | 0, _ => none
  | _ + 1, [] => none
  | rounds + 1, '\'' :: rest =>
    if rest.take 2 = ['\'', '\''] then closingQuotes '\'' ('\'' :: rest)
    else do
      let (cs, s) ← multilineLiteral rounds rest
      some ('\'' :: cs, s)
  | rounds + 1, '\r' :: rest =>
    match rest with
    | '\n' :: rest => do
      let (cs, s) ← multilineLiteral rounds rest
      some ('\r' :: '\n' :: cs, s)
    | _ => none
  | rounds + 1, c :: rest =>
    if isControl c && c != '\n' then none
    else do
      let (cs, s) ← multilineLiteral rounds rest
      some (c :: cs, s)

def string (s : List Char) : Option (String × List Char) :=
  (match s with
  | '"' :: '"' :: '"' :: rest => multilineBasic (rest.length + 1) (skipFirstLineEnd rest)
  | '"' :: rest => basic (rest.length + 1) rest
  | '\'' :: '\'' :: '\'' :: rest => multilineLiteral (rest.length + 1) (skipFirstLineEnd rest)
  | '\'' :: rest => literal rest
  | _ => none).map fun (cs, s) => (String.ofList cs, s)

end PageLocalizer.Toml.Parser
