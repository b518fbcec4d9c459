-- Messages as they are written in a catalog: patterns, which mix text with placeables.
namespace PageLocalizer.Fluent

-- What a variant of a selection is chosen by.
inductive VariantKey where
  | name (name : String)
  | number (literal : String)
  deriving Repr, DecidableEq

mutual

inductive Expression where
  -- The text between the quotes, with its escapes as written.
  | literal (raw : String)
  -- A number with its digits as written.
  | number (literal : String)
  | parameter (name : String)
  | message (name : String) (attr : Option String)
  | term (name : String) (attr : Option String) (arguments : Arguments)
  | function (name : String) (arguments : Arguments)
  | nested (placeable : Placeable)

inductive Arguments where
  -- No call at all, which is not a call without arguments.
  | absent
  | given (positional : List Expression) (named : List NamedArgument)

inductive NamedArgument where
  | mk (name : String) (value : Expression)

inductive Placeable where
  | inline (expression : Expression)
  | select (selector : Expression) (variants : List Variant)

inductive Variant where
  | mk (key : VariantKey) (value : List Segment) (isDefault : Bool)

inductive Segment where
  | text (text : String)
  | placeable (placeable : Placeable)

end

deriving instance Inhabited for Expression

-- A pattern is what a message, an attribute or a variant says.
abbrev Pattern := List Segment

structure Attribute where
  name : String
  value : Pattern

-- A message has a value or at least one attribute. Names may repeat among the attributes.
structure Message where
  name : String
  value : Option Pattern
  attributes : List Attribute

structure Term where
  name : String
  value : Pattern
  attributes : List Attribute

inductive Entry where
  | message (message : Message)
  | term (term : Term)

def Entry.name : Entry → String
  | .message m => m.name
  | .term t => t.name

-- The attribute of that name, the first if there are several.
def attribute? (attributes : List Attribute) (name : String) : Option Pattern :=
  (attributes.find? (·.name = name)).map (·.value)

-- Two patterns are the same when they are written with the same parts. Literals count as written.
mutual

def Expression.same : Expression → Expression → Bool
  | .literal a, .literal b => a == b
  | .number a, .number b => a == b
  | .parameter a, .parameter b => a == b
  | .message a p, .message b q => a == b && p == q
  | .term a p x, .term b q y => a == b && p == q && x.same y
  | .function a x, .function b y => a == b && x.same y
  | .nested x, .nested y => x.same y
  | _, _ => false
termination_by structural x => x

def Arguments.same : Arguments → Arguments → Bool
  | .absent, .absent => true
  | .given xs ns, .given ys ms => sameExpressions xs ys && sameNamed ns ms
  | _, _ => false
termination_by structural x => x

def NamedArgument.same : NamedArgument → NamedArgument → Bool
  | .mk a x, .mk b y => a == b && x.same y
termination_by structural x => x

def Placeable.same : Placeable → Placeable → Bool
  | .inline x, .inline y => x.same y
  | .select x vs, .select y ws => x.same y && sameVariants vs ws
  | _, _ => false
termination_by structural x => x

def Variant.same : Variant → Variant → Bool
  | .mk k p isDefault, .mk l q isDefault' => k == l && samePattern p q && isDefault == isDefault'
termination_by structural x => x

def Segment.same : Segment → Segment → Bool
  | .text a, .text b => a == b
  | .placeable x, .placeable y => x.same y
  | _, _ => false
termination_by structural x => x

def sameExpressions : List Expression → List Expression → Bool
  | [], [] => true
  | x :: xs, y :: ys => x.same y && sameExpressions xs ys
  | _, _ => false
termination_by structural x => x

def sameNamed : List NamedArgument → List NamedArgument → Bool
  | [], [] => true
  | x :: xs, y :: ys => x.same y && sameNamed xs ys
  | _, _ => false
termination_by structural x => x

def sameVariants : List Variant → List Variant → Bool
  | [], [] => true
  | x :: xs, y :: ys => x.same y && sameVariants xs ys
  | _, _ => false
termination_by structural x => x

def samePattern : List Segment → List Segment → Bool
  | [], [] => true
  | x :: xs, y :: ys => x.same y && samePattern xs ys
  | _, _ => false
termination_by structural x => x

end

end PageLocalizer.Fluent
