import PageLocalizer.Toml.Scalar
-- Reads TOML 1.1 documents.
namespace PageLocalizer.Toml.Parser

-- Arrays and inline tables nest at most so deep.
def nestingLimit : Nat := 80

def isBareChar (c : Char) : Bool := c.isAlphanum || c == '_' || c == '-'

-- One part of a key. Multi-line strings are no keys.
def simpleKey (s : List Char) : Option (String × List Char) :=
  match s with
  | '"' :: '"' :: '"' :: _ => none
  | '\'' :: '\'' :: '\'' :: _ => none
  | '"' :: rest => (basic (rest.length + 1) rest).map fun (cs, s) => (String.ofList cs, s)
  | '\'' :: rest => (literal rest).map fun (cs, s) => (String.ofList cs, s)
  | _ =>
    let run := s.takeWhile isBareChar
    if run = [] then none else some (String.ofList run, s.dropWhile isBareChar)

-- A key has at most so many parts.
def keyLimit : Nat := 80

-- A key of at most `parts` parts and the blank space after it: the parts before the last one, and
-- the last one.
def keyUpTo : Nat → List Char → Option ((List String × String) × List Char)
  | 0, _ => none
  | parts + 1, s => do
    let (part, s) ← simpleKey (skipSpaces s)
    match skipSpaces s with
    | '.' :: rest =>
      let ((path, last), s) ← keyUpTo parts rest
      some ((part :: path, last), s)
    | s => some (([], part), s)

def key (s : List Char) : Option ((List String × String) × List Char) := keyUpTo keyLimit s

-- Goes to the table at the end of a path and lets `f` change its fields. Tables that are not there
-- yet are made. A path of dotted keys leads only through tables without a header, and no path leads
-- through inline tables. Through an open array it leads to the last table.
def modifyAt (viaDots : Bool) (f : Origin → Fields → Option Fields) :
    List String → Origin → Fields → Option Fields
  | [], origin, fields => f origin fields
  | part :: path, _, fields =>
    match fields.lookup part with
    | none =>
      let made := if viaDots then Origin.dotted else Origin.implied
      (modifyAt viaDots f path made []).map fun inner => fields.set part (.table made inner)
    | some (.table origin inner) =>
      if origin = .inline ∨ (viaDots ∧ origin = .header) then none
      else (modifyAt viaDots f path origin inner).map fun inner =>
        fields.set part (.table origin inner)
    | some (.array true items) =>
      match items.getLast? with
      | some (.table origin inner) =>
        (modifyAt viaDots f path origin inner).map fun inner =>
          fields.set part (.array true (items.dropLast ++ [.table origin inner]))
      | _ => none
    | some _ => none

-- Gives a key a value. Each key is given one once, and a table is either filled through dotted keys
-- or directly.
def assign (path : List String) (last : String) (value : Value) (origin : Origin)
    (fields : Fields) : Option Fields :=
  modifyAt true (fun origin fields =>
    if (origin == .dotted) == path.isEmpty then none
    else if (fields.lookup last).isSome then none
    else some (fields.set last value)) path origin fields

-- The items of an array up to its closing bracket.
def items (value : List Char → Option (Value × List Char)) : Nat → List Char →
    Option (List Value × List Char)
  | 0, _ => none
  | rounds + 1, s => do
    let s ← skipFiller s.length s
    match s with
    | ']' :: rest => some ([], rest)
    | _ =>
      let (v, s) ← value s
      let s ← skipFiller s.length s
      match s with
      | ',' :: rest =>
        let (vs, s) ← items value rounds rest
        some (v :: vs, s)
      | ']' :: rest => some ([v], rest)
      | _ => none

-- The assignments of an inline table up to its closing brace, added to those made so far. Lines may
-- end anywhere but inside keys.
def inlineFields (value : List Char → Option (Value × List Char)) : Nat → Fields → List Char →
    Option (Fields × List Char)
  | 0, _, _ => none
  | rounds + 1, fields, s => do
    let s ← skipFiller s.length s
    match s with
    | '\x7d' :: rest => some (fields, rest)
    | _ =>
      let ((path, last), s) ← key s
      let s ← skipFiller s.length s
      match s with
      | '=' :: rest =>
        let s ← skipFiller rest.length rest
        let (v, s) ← value s
        let fields ← assign path last v .inline fields
        let s ← skipFiller s.length s
        match s with
        | ',' :: rest => inlineFields value rounds fields rest
        | '\x7d' :: rest => some (fields, rest)
        | _ => none
      | _ => none

-- A value, with at most `depth` arrays and inline tables one within another.
def value : Nat → List Char → Option (Value × List Char)
  | _, '"' :: rest => (string ('"' :: rest)).map fun (t, s) => (.string t, s)
  | _, '\'' :: rest => (string ('\'' :: rest)).map fun (t, s) => (.string t, s)
  | 0, '[' :: _ => none
  | depth + 1, '[' :: rest =>
    (items (value depth) (rest.length + 1) rest).map fun (vs, s) => (.array false vs, s)
  | 0, '\x7b' :: _ => none
  | depth + 1, '\x7b' :: rest =>
    (inlineFields (value depth) (rest.length + 1) [] rest).map fun (fs, s) => (.table .inline fs, s)
  | _, s => scalar s

inductive Line where
  | blank
  | assignment (path : List String) (last : String) (value : Value)
  | header (path : List String) (last : String)
  | arrayHeader (path : List String) (last : String)

def line (s : List Char) : Option (Line × List Char) :=
  match skipSpaces s with
  | '[' :: '[' :: rest => do
    let ((path, last), s) ← key rest
    match s with
    | ']' :: ']' :: rest => some (.arrayHeader path last, rest)
    | _ => none
  | '[' :: rest => do
    let ((path, last), s) ← key rest
    match s with
    | ']' :: rest => some (.header path last, rest)
    | _ => none
  | [] => some (.blank, [])
  | c :: rest =>
    if c == '#' || c == '\n' || c == '\r' then some (.blank, c :: rest)
    else do
      let ((path, last), s) ← key (c :: rest)
      match s with
      | '=' :: rest =>
        let (v, s) ← value nestingLimit (skipSpaces rest)
        some (.assignment path last v, s)
      | _ => none

-- What is known after some lines: the document, and the path of the table that assignments fill.
structure Progress where
  document : Fields
  current : List String

-- A header starts a table, or gives a table its header that was only implied so far.
def startTable (last : String) (_ : Origin) (fields : Fields) : Option Fields :=
  match fields.lookup last with
  | none => some (fields.set last (.table .header []))
  | some (.table .implied inner) => some (fields.set last (.table .header inner))
  | some _ => none

-- A header in double brackets adds a table to an open array.
def startItem (last : String) (_ : Origin) (fields : Fields) : Option Fields :=
  match fields.lookup last with
  | none => some (fields.set last (.array true [.table .header []]))
  | some (.array true items) => some (fields.set last (.array true (items ++ [.table .header []])))
  | some _ => none

def Progress.add (p : Progress) : Line → Option Progress
  | .blank => some p
  | .assignment path last v =>
    (modifyAt false (assign path last v) p.current .header p.document).map
      ({ p with document := · })
  | .header path last =>
    (modifyAt false (startTable last) path .header p.document).map
      ({ document := ·, current := path ++ [last] })
  | .arrayHeader path last =>
    (modifyAt false (startItem last) path .header p.document).map
      ({ document := ·, current := path ++ [last] })

def lines : Nat → Progress → List Char → Option Fields
  | 0, _, _ => none
  | rounds + 1, p, s => do
    let (l, s) ← line s
    let p ← p.add l
    let s ← skipToLineEnd s
    match s with
    | [] => some p.document
    | _ =>
      let rest ← lineEnd? s
      lines rounds p rest

end Parser

-- A mark of the byte order at the start is no part of the document.
def withoutMark : List Char → List Char
  | c :: rest => if c.toNat = 0xFEFF then rest else c :: rest
  | [] => []

-- The fields of a document, or nothing when it is malformed.
def parse (text : String) : Option Fields :=
  let s := withoutMark text.toList
  Parser.lines (s.length + 1) { document := [], current := [] } s

end PageLocalizer.Toml
