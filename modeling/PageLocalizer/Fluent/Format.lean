import PageLocalizer.Directive
import PageLocalizer.Fluent.Numeral
import PageLocalizer.Fluent.Pattern
-- Formats a pattern: text is copied, placeables are replaced by what they stand for.
--
-- Formatting always yields a text. Whatever cannot be resolved shows as its name in braces, and
-- the format counts as failed.
namespace PageLocalizer.Fluent

inductive Value where
  | text (text : String)
  | number (n : Numeral)
  | missing

def Value.shown : Value → String
  | .text s => s
  | .number n => n.text
  | .missing => ""

-- What may be referred to, and the arguments that the caller gives.
structure Bundle where
  locale : Locale
  entries : List Entry

namespace Bundle

def message? (b : Bundle) (name : String) : Option Message :=
  b.entries.findSome? fun
    | .message m => if m.name = name then some m else none
    | .term _ => none

def term? (b : Bundle) (name : String) : Option Term :=
  b.entries.findSome? fun
    | .term t => if t.name = name then some t else none
    | .message _ => none

-- How many patterns a chain of references can pass without coming to one twice.
def patternCount (b : Bundle) : Nat :=
  b.entries.foldl (fun count e => count + match e with
    | .message m => m.attributes.length + 1
    | .term t => t.attributes.length + 1) 0

end Bundle

namespace Format

-- At most so many placeables are resolved in one format.
def placeableLimit : Nat := 100

structure State where
  placeables : Nat
  -- The limit was passed, and nothing more is written but the names of what is under way.
  stopped : Bool
  failed : Bool
  -- Inside a private message: the arguments of its call, and no others.
  localArguments : Option (List (String × Value))

def State.initial : State :=
  { placeables := 0, stopped := false, failed := false, localArguments := none }

abbrev Writer (α : Type) := StateM State α

def fail : Writer Unit := modify ({ · with failed := true })

def nameOf : Expression → String
  | .message n none => n
  | .message n (some a) => n ++ "." ++ a
  | .term n none _ => "-" ++ n
  | .term n (some a) _ => "-" ++ n ++ "." ++ a
  | .function n _ => n ++ "()"
  | .parameter n => "$" ++ n
  | .literal _ | .number _ | .nested _ => ""

def nameOfPlaceable : Placeable → String
  | .inline e => nameOf e
  | .select e _ => nameOf e

def braced (name : String) : String := "\x7b" ++ name ++ "\x7d"

def unresolved (name : String) : Writer String := do
  fail
  pure (braced name)

def hexValue (c : Char) : Nat :=
  if c.isDigit then c.toNat - '0'.toNat
  else if c.isLower then c.toNat - 'a'.toNat + 10
  else c.toNat - 'A'.toNat + 10

-- The replacement character stands for numbers that name no character.
def charOfHex (digits : List Char) : Char :=
  let n := digits.foldl (fun n d => 16 * n + hexValue d) 0
  if n.isValidChar then Char.ofNat n else Char.ofNat 0xFFFD

-- The text of a literal. An escaped brace is not among the escapes that are understood here.
def unescape : List Char → List Char
  | '\\' :: '\\' :: rest => '\\' :: unescape rest
  | '\\' :: '"' :: rest => '"' :: unescape rest
  | '\\' :: 'u' :: a :: b :: c :: d :: rest => charOfHex [a, b, c, d] :: unescape rest
  | '\\' :: 'U' :: a :: b :: c :: d :: e :: f :: rest =>
    charOfHex [a, b, c, d, e, f] :: unescape rest
  | '\\' :: _ :: rest => Char.ofNat 0xFFFD :: unescape rest
  | c :: rest => c :: unescape rest
  | [] => []

def literal (raw : String) : String := String.ofList (unescape raw.toList)

structure Context where
  bundle : Bundle
  arguments : Params
  -- The patterns under way, the innermost first.
  path : List Pattern
  -- Formats a pattern that is referred to, with that pattern added to the path.
  follow : Pattern → Writer String

-- A reference to a pattern that is under way cannot be resolved.
def Context.refer (c : Context) (e : Expression) (p : Pattern) : Writer String :=
  if c.path.any (samePattern p) then unresolved (nameOf e) else c.follow p

-- The value of a parameter, in a private message only from its call. There an unknown parameter is
-- no failure.
def Context.parameter (c : Context) (name : String) : Writer (Option Value) := do
  match (← get).localArguments with
  | some arguments => pure (arguments.lookup name)
  | none =>
    match c.arguments.lookup name with
    | some value => pure (some (.text value))
    | none =>
      fail
      pure none

-- A reference to a message or to one of its attributes.
def Context.message (c : Context) (n : String) (attr : Option String) : Writer String :=
  let e := Expression.message n attr
  let target := (c.bundle.message? n).bind fun m =>
    match attr with
    | none => m.value
    | some a => attribute? m.attributes a
  match target with
  | none => unresolved (nameOf e)
  | some p => c.refer e p

-- A private message, called with the given arguments. Afterwards no call is under way any more,
-- not even one that this call stands in.
def Context.term (c : Context) (n : String) (attr : Option String)
    (given : List (String × Value)) : Writer String := do
  let e := Expression.term n attr .absent
  let target := (c.bundle.term? n).bind fun t =>
    match attr with
    | none => some t.value
    | some a => attribute? t.attributes a
  modify ({ · with localArguments := some given })
  let shown ← match target with
    | none => unresolved (nameOf e)
    | some p => c.refer e p
  modify ({ · with localArguments := none })
  pure shown

-- Numbers equal numbers and texts equal texts; a name also fits the numbers of its category.
def isChosen (locale : Locale) (selector : Value) : VariantKey → Bool
  | .name key =>
    match selector with
    | .text s => s == key
    | .number n => n.isInCategory locale key
    | .missing => false
  | .number key =>
    match selector with
    | .number n => n.equals (Numeral.ofLiteral key)
    | _ => false

mutual

def segments (c : Context) : List Segment → Writer String
  | [] => pure ""
  | s :: rest => do
    if (← get).stopped then pure ""
    else
      let shown ← segment c s
      let more ← segments c rest
      pure (shown ++ more)
termination_by structural x => x

def segment (c : Context) : Segment → Writer String
  | .text s => pure s
  | .placeable p => do
    modify fun s => { s with placeables := s.placeables + 1 }
    if placeableLimit < (← get).placeables then
      modify ({ · with stopped := true, failed := true })
      pure ""
    else
      let shown ← placeable c p
      if (← get).stopped then pure (shown ++ braced (nameOfPlaceable p)) else pure shown
termination_by structural x => x

def placeable (c : Context) : Placeable → Writer String
  | .inline e => expression c e
  | .select e variants => do
    let selector ← value c e
    match ← chosen c selector variants with
    | some shown => pure shown
    | none =>
      match ← starred c variants with
      | some shown => pure shown
      | none =>
        fail
        pure ""
termination_by structural x => x

-- The first variant whose key fits. A selector without a value fits none.
def chosen (c : Context) (selector : Value) : List Variant → Writer (Option String)
  | [] => pure none
  | .mk key value _ :: rest =>
    if isChosen c.bundle.locale selector key then some <$> segments c value
    else chosen c selector rest
termination_by structural x => x

def starred (c : Context) : List Variant → Writer (Option String)
  | [] => pure none
  | .mk _ value isDefault :: rest =>
    if isDefault then some <$> segments c value else starred c rest
termination_by structural x => x

def expression (c : Context) : Expression → Writer String
  | .literal raw => pure (literal raw)
  | .number n => pure (Numeral.ofLiteral n).text
  | .parameter n => do
    match ← c.parameter n with
    | some v => pure v.shown
    | none => pure (braced ("$" ++ n))
  | .message n attr => c.message n attr
  | .term n attr arguments => do c.term n attr (← callArguments c arguments)
  | .function n arguments => do
    let _ ← callArguments c arguments
    unresolved (n ++ "()")
  | .nested p => placeable c p
termination_by structural x => x

-- The value that a selection or a call is given. No function is known, so a call has no value.
def value (c : Context) : Expression → Writer Value
  | .literal raw => pure (.text (literal raw))
  | .number n => pure (.number (Numeral.ofLiteral n))
  | .parameter n => do pure ((← c.parameter n).getD .missing)
  | .function _ arguments => do
    let _ ← callArguments c arguments
    pure .missing
  | .message n attr => .text <$> c.message n attr
  | .term n attr arguments => do .text <$> c.term n attr (← callArguments c arguments)
  | .nested p => .text <$> placeable c p
termination_by structural x => x

-- The named arguments of a call. The positional ones are resolved too, for nobody takes them.
def callArguments (c : Context) : Arguments → Writer (List (String × Value))
  | .absent => pure []
  | .given positional named => do
    positionalValues c positional
    namedValues c named
termination_by structural x => x

def positionalValues (c : Context) : List Expression → Writer Unit
  | [] => pure ()
  | e :: rest => do
    let _ ← value c e
    positionalValues c rest
termination_by structural x => x

def namedValues (c : Context) : List NamedArgument → Writer (List (String × Value))
  | [] => pure []
  | .mk n e :: rest => do
    let v ← value c e
    let more ← namedValues c rest
    pure ((n, v) :: more)
termination_by structural x => x

end

-- Follows at most `references` references one within another.
def pattern (b : Bundle) (arguments : Params) : Nat → List Pattern → Pattern → Writer String
  | 0, _, _ => pure ""
  | references + 1, path, p =>
    segments
      { bundle := b, arguments, path := p :: path,
        follow := pattern b arguments references (p :: path) } p

end Format

-- What a format yields: the text, and whether everything in it was resolved.
structure Formatted where
  text : String
  complete : Bool
  deriving Repr, DecidableEq

-- A chain of references leaves no pattern twice, so the bundle bounds its length. The pattern to be
-- formatted may be none of the bundle's.
def Bundle.format (b : Bundle) (arguments : Params) (p : Pattern) : Formatted :=
  let (text, state) := (Format.pattern b arguments (b.patternCount + 2) [] p).run .initial
  { text, complete := !state.failed }

end PageLocalizer.Fluent
