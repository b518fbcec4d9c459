import PageLocalizer.Fluent.Pattern
-- Reads catalog sources.
--
-- Every reader takes the characters that are left and gives what it read with the characters left
-- after it, or nothing when the source is malformed. The readers that call each other carry a
-- number of calls they may make; each character allows for a few, so a source never runs out.
namespace PageLocalizer.Fluent.Parser

def isLetter (c : Char) : Bool := c.isAlpha

def isNameChar (c : Char) : Bool := c.isAlphanum || c == '-' || c == '_'

def isHexDigit (c : Char) : Bool :=
  c.isDigit || ('a' ≤ c && c ≤ 'f') || ('A' ≤ c && c ≤ 'F')

def skipSpaces (s : List Char) : List Char := s.dropWhile (· == ' ')

-- What follows a line end, when the text starts with one.
def lineEnd? : List Char → Option (List Char)
  | '\n' :: rest => some rest
  | '\r' :: '\n' :: rest => some rest
  | _ => none

-- Spaces and line ends. A carriage return alone is not a line end.
def skipBlank : List Char → List Char
  | ' ' :: rest => skipBlank rest
  | '\n' :: rest => skipBlank rest
  | '\r' :: '\n' :: rest => skipBlank rest
  | s => s

-- Skips lines of spaces. `line` is where the present line starts: when it turns out to hold
-- something, all of it is left.
def skipLines (line : List Char) : List Char → List Char
  | ' ' :: rest => skipLines line rest
  | '\n' :: rest => skipLines rest rest
  | '\r' :: '\n' :: rest => skipLines rest rest
  | _ => line

def skipBlankLines (s : List Char) : List Char := skipLines s s

def expect (c : Char) : List Char → Option (List Char)
  | d :: rest => if d = c then some rest else none
  | [] => none

def name : List Char → Option (String × List Char)
  | c :: rest =>
    if isLetter c then
      some (String.ofList (c :: rest.takeWhile isNameChar), rest.dropWhile isNameChar)
    else none
  | [] => none

def digits (s : List Char) : Option (List Char × List Char) :=
  let run := s.takeWhile Char.isDigit
  if run = [] then none else some (run, s.dropWhile Char.isDigit)

def number (s : List Char) : Option (String × List Char) := do
  let (sign, s) := match s with
    | '-' :: rest => (['-'], rest)
    | _ => ([], s)
  let (whole, s) ← digits s
  match s with
  | '.' :: rest =>
    let (decimals, s) ← digits rest
    some (String.ofList (sign ++ whole ++ '.' :: decimals), s)
  | _ => some (String.ofList (sign ++ whole), s)

-- The text of a quoted literal up to its closing quote, escapes kept as written. An escape is a
-- backslash with a backslash, a brace, a quote, four hexadecimal digits after `u` or six after `U`.
def literalText : List Char → Option (List Char × List Char)
  | '"' :: rest => some ([], rest)
  | '\\' :: 'u' :: a :: b :: c :: d :: rest =>
    if [a, b, c, d].all isHexDigit then
      (literalText rest).map fun (text, s) => ('\\' :: 'u' :: a :: b :: c :: d :: text, s)
    else none
  | '\\' :: 'U' :: a :: b :: c :: d :: e :: f :: rest =>
    if [a, b, c, d, e, f].all isHexDigit then
      (literalText rest).map fun (text, s) => ('\\' :: 'U' :: a :: b :: c :: d :: e :: f :: text, s)
    else none
  | '\\' :: c :: rest =>
    if c = '\\' ∨ c = '\x7b' ∨ c = '"' then
      (literalText rest).map fun (text, s) => ('\\' :: c :: text, s)
    else none
  | '\n' :: _ => none
  | c :: rest => (literalText rest).map fun (text, s) => (c :: text, s)
  | [] => none

inductive Ending where
  | lineFeed
  | carriageReturn
  | placeable
  | sourceEnd
  deriving DecidableEq

def Ending.startsLine : Ending → Bool
  | .lineFeed | .carriageReturn => true
  | .placeable | .sourceEnd => false

-- Text up to and with the line feed, or up to a placeable. A carriage return before the line feed
-- is dropped, and the line feed is then a run of its own. A closing brace is malformed.
def textRun : List Char → Option (List Char × Ending × List Char)
  | [] => some ([], .sourceEnd, [])
  | '\n' :: rest => some (['\n'], .lineFeed, rest)
  | '\r' :: '\n' :: rest => some ([], .carriageReturn, '\n' :: rest)
  | '\x7b' :: rest => some ([], .placeable, '\x7b' :: rest)
  | '\x7d' :: _ => none
  | c :: rest => (textRun rest).map fun (run, ending, s) => (c :: run, ending, s)

-- A part of a pattern before its margin is known. Text at the start of a line stands with the
-- number of spaces before it.
inductive Piece where
  | placeable (placeable : Placeable) (startsLine : Bool)
  | text (indent : Nat) (run : List Char) (startsLine : Bool)

namespace Piece

def isVisible : Piece → Bool
  | .placeable _ _ => true
  | .text _ run _ => run.any fun c => c != ' ' && c != '\n'

-- What a piece says about the margin. A placeable says something only in the first column.
def margin? : Piece → Option Nat
  | .placeable _ startsLine => if startsLine then some 0 else none
  | .text indent run startsLine =>
    if startsLine ∧ (Piece.text indent run startsLine).isVisible then some indent else none

-- The piece without the margin. Where no line says what the margin is, all spaces belong to it.
def segment (margin : Option Nat) : Piece → Segment
  | .placeable p _ => .placeable p
  | .text indent run _ =>
    .text (String.ofList (List.replicate (indent - margin.getD indent) ' ' ++ run))

end Piece

def trimLineEnd (s : String) : String :=
  String.ofList (s.toList.reverse.dropWhile fun c => c == ' ' || c == '\r' || c == '\n').reverse

def trimSegment : Segment → Segment
  | .text s => .text (trimLineEnd s)
  | segment => segment

-- Blank lines at the end are no part of a pattern, nor is blank space after its last text.
def assemble (pieces : List Piece) : Option Pattern :=
  match pieces.reverse.dropWhile (!·.isVisible) with
  | [] => none
  | last :: before =>
    let margin := (pieces.filterMap Piece.margin?).min?
    some (before.reverse.map (Piece.segment margin) ++ [trimSegment (last.segment margin)])

-- Whether a line that starts with `indent` spaces and then `rest` ends the pattern above it.
def endsPattern (indent : Nat) (rest : List Char) : Bool :=
  match rest with
  | [] => true
  | c :: _ =>
    if indent = 0 then c != '\r' && c != '\n'
    else c == '.' || c == '\x7d' || c == '[' || c == '*'

def isFunctionName (s : String) : Bool :=
  s.toList.all fun c => c.isUpper || c.isDigit || c == '_' || c == '-'

-- What may stand before the arrow of a selection.
def isSelector : Expression → Bool
  | .literal _ | .number _ | .parameter _ | .function _ _ | .term _ (some _) _ => true
  | .message _ _ | .term _ none _ | .nested _ => false

-- The attribute of a private message is for selections only.
def isShown : Expression → Bool
  | .term _ (some _) _ => false
  | _ => true

def variantKey (s : List Char) : Option (VariantKey × List Char) := do
  let s := skipBlank s
  let (key, s) ← match s with
    | c :: _ =>
      if c.isDigit || c == '-' then (number s).map fun (n, s) => (VariantKey.number n, s)
      else (name s).map fun (n, s) => (VariantKey.name n, s)
    | [] => none
  let s ← expect ']' (skipBlank s)
  some (key, s)

def accessor (s : List Char) : Option (Option String × List Char) :=
  match s with
  | '.' :: rest => (name rest).map fun (n, s) => (some n, s)
  | _ => some (none, s)

mutual

-- The pieces of a pattern. `lineStart` tells whether the text left starts a line.
def pieces : Nat → Bool → List Char → Option (List Piece × List Char)
  | 0, _, _ => none
  | _ + 1, _, [] => some ([], [])
  | calls + 1, lineStart, '\x7b' :: rest => do
    let (placeable, s) ← placeable calls rest
    let (more, s) ← pieces calls false s
    some (.placeable placeable lineStart :: more, s)
  | calls + 1, lineStart, s =>
    let text := if lineStart then skipSpaces s else s
    let indent := s.length - text.length
    if lineStart && endsPattern indent text then some ([], if text = [] then [] else s)
    else do
      let (run, ending, s) ← textRun text
      let (more, s) ← pieces calls ending.startsLine s
      some (if run = [] then more else .text indent run lineStart :: more, s)

-- A pattern, or nothing where there is no text at all.
def pattern : Nat → List Char → Option (Option Pattern × List Char)
  | 0, _ => none
  | calls + 1, s => do
    let s := skipSpaces s
    let (found, s) ← match lineEnd? s with
      | some rest => pieces calls true (skipBlankLines rest)
      | none => pieces calls false s
    some (assemble found, s)

-- What stands in braces, the opening one already read.
def placeable : Nat → List Char → Option (Placeable × List Char)
  | 0, _ => none
  | calls + 1, s => do
    let (e, s) ← expression calls false (skipBlank s)
    match skipBlank s with
    | '-' :: '>' :: rest =>
      if isSelector e then
        let s ← lineEnd? (skipSpaces rest)
        let (variants, s) ← variants calls false (skipBlank s)
        let s ← expect '\x7d' (skipSpaces s)
        some (.select e variants, s)
      else none
    | s =>
      if isShown e then
        let s ← expect '\x7d' (skipSpaces s)
        some (.inline e, s)
      else none

-- The variants of a selection, of which exactly one is starred. `starred` tells whether the star
-- was seen. The last star may stand before no variant at all.
def variants : Nat → Bool → List Char → Option (List Variant × List Char)
  | 0, _, _ => none
  | calls + 1, starred, s => do
    let (isDefault, s) := match s with
      | '*' :: rest => (true, rest)
      | _ => (false, s)
    if isDefault && starred then none
    else match s with
      | '[' :: rest =>
        let (key, s) ← variantKey rest
        let (value, s) ← pattern calls s
        let value ← value
        let (more, s) ← variants calls (starred || isDefault) (skipBlank s)
        some (.mk key value isDefault :: more, s)
      | _ => if starred || isDefault then some ([], s) else none

-- An expression. The value of a named argument is a literal or an unsigned number.
def expression : Nat → Bool → List Char → Option (Expression × List Char)
  | 0, _, _ => none
  | _ + 1, _, '"' :: rest =>
    (literalText rest).map fun (text, s) => (.literal (String.ofList text), s)
  | calls + 1, plain, c :: rest =>
    if c.isDigit then (number (c :: rest)).map fun (n, s) => (.number n, s)
    else if isLetter c then do
      let (n, s) ← name (c :: rest)
      let (given, s) ← arguments calls s
      match given with
      | .given _ _ => if isFunctionName n then some (.function n given, s) else none
      | .absent =>
        let (attr, s) ← accessor s
        some (.message n attr, s)
    else if plain then none
    else if c = '-' then
      match name rest with
      | some (n, s) => do
        let (attr, s) ← accessor s
        let (given, s) ← arguments calls s
        some (.term n attr given, s)
      | none => (number (c :: rest)).map fun (n, s) => (.number n, s)
    else if c = '$' then (name rest).map fun (n, s) => (.parameter n, s)
    else if c = '\x7b' then (placeable calls rest).map fun (p, s) => (.nested p, s)
    else none
  | _ + 1, _, [] => none

-- The arguments of a call, when there is a call.
def arguments : Nat → List Char → Option (Arguments × List Char)
  | 0, _ => none
  | calls + 1, s =>
    match skipBlank s with
    | '(' :: rest => (argumentList calls [] (skipBlank rest)).map fun ((xs, ns), s) =>
        (.given xs ns, s)
    | s => some (.absent, s)

-- Arguments up to the closing parenthesis, named ones last and each name once. The commas between
-- them may be left out. `named` holds the names seen.
def argumentList : Nat → List String → List Char →
    Option ((List Expression × List NamedArgument) × List Char)
  | 0, _, _ => none
  | _ + 1, _, ')' :: rest => some (([], []), rest)
  | calls + 1, named, s => do
    let afterComma := fun s => match skipBlank s with
      | ',' :: rest => skipBlank rest
      | s => s
    let (e, s) ← expression calls false s
    let colon := match e, skipBlank s with
      | .message n none, ':' :: rest => some (n, rest)
      | _, _ => none
    match colon with
    | some (n, rest) =>
      if n ∈ named then none
      else
        let (value, s) ← expression calls true (skipBlank rest)
        let ((xs, ns), s) ← argumentList calls (n :: named) (afterComma s)
        some ((xs, .mk n value :: ns), s)
    | none =>
      if named ≠ [] then none
      else
        let ((xs, ns), s) ← argumentList calls named (afterComma s)
        some ((e :: xs, ns), s)

end

-- Calls enough for any text of that length.
def callsFor (s : List Char) : Nat := 4 * s.length + 16

def attributes (calls : Nat) : Nat → List Char → List Attribute × List Char
  | 0, s => ([], s)
  | lines + 1, s =>
    let read := match skipSpaces s with
      | '.' :: rest => do
        let (n, s) ← name rest
        let s ← expect '=' (skipSpaces s)
        let (value, s) ← pattern calls s
        let value ← value
        some (Attribute.mk n value, s)
      | _ => none
    match read with
    | some (a, rest) =>
      let (more, s) := attributes calls lines rest
      (a :: more, s)
    | none => ([], s)

def entryParts (calls : Nat) (s : List Char) :
    Option ((String × Option Pattern × List Attribute) × List Char) := do
  let (n, s) ← name s
  let s ← expect '=' (skipSpaces s)
  let (value, s) ← pattern calls s
  let (attrs, s) := attributes calls calls (skipBlankLines s)
  some ((n, value, attrs), s)

def entry (calls : Nat) (s : List Char) : Option (Entry × List Char) :=
  match s with
  | '-' :: rest => do
    let ((n, value, attrs), s) ← entryParts calls rest
    let value ← value
    some (.term { name := n, value, attributes := attrs }, s)
  | _ => do
    let ((n, value, attrs), s) ← entryParts calls s
    if value.isNone && attrs.isEmpty then none
    else some (.message { name := n, value, attributes := attrs }, s)

-- Entries start in the first column. A line that starts with a hash is a comment.
def entries (calls : Nat) : Nat → List Char → Option (List Entry)
  | 0, _ => none
  | count + 1, s =>
    match skipBlankLines s with
    | [] => some []
    | '#' :: rest => entries calls count (rest.dropWhile (· != '\n'))
    | s => do
      let (e, s) ← entry calls s
      let more ← entries calls count s
      some (e :: more)

end Parser

-- The entries of a source, or nothing when any part of it is malformed.
def parse (source : String) : Option (List Entry) :=
  let s := source.toList
  Parser.entries (Parser.callsFor s) (Parser.callsFor s) s

end PageLocalizer.Fluent
