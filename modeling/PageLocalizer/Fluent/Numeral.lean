import PageLocalizer.Locale
import PageLocalizer.Number.Double
-- Numbers in messages: how they are shown, when two are equal, and their plural category.
namespace PageLocalizer.Fluent

open PageLocalizer.Number

-- A number literal. Its size is absent where it exceeds every double. The number of decimals it is
-- written with belongs to it.
structure Numeral where
  negative : Bool
  size : Option Double
  decimals : Option Nat
  deriving Repr, DecidableEq

namespace Numeral

def digitsValue (digits : List Char) : Nat :=
  digits.foldl (fun n d => 10 * n + (d.toNat - '0'.toNat)) 0

-- Reads a literal of the form that the source grammar admits: digits, perhaps with a minus before
-- and a point and digits after.
def ofLiteral (literal : String) : Numeral :=
  let (negative, unsigned) := match literal.toList with
    | '-' :: rest => (true, rest)
    | s => (false, s)
  let whole := unsigned.takeWhile (· != '.')
  match unsigned.dropWhile (· != '.') with
  | [] => ⟨negative, Double.ofRatio? (digitsValue whole) 1, none⟩
  | _ :: places =>
    ⟨negative, Double.ofRatio? (digitsValue (whole ++ places)) (tenTo places.length),
      some places.length⟩

-- The shortest decimal of the number, filled up with zeros to the decimals of the literal.
def text (n : Numeral) : String :=
  let shown := match n.size with
    | some size => size.text
    | none => "inf"
  let filled := match n.decimals with
    | none => shown
    | some count =>
      match shown.toList.dropWhile (· != '.') with
      | [] => shown ++ "." ++ String.ofList (List.replicate count '0')
      | _ :: places => shown ++ String.ofList (List.replicate (count - places.length) '0')
  if n.negative then "-" ++ filled else filled

-- Equal numbers have the same value and are written with the same decimals.
def equals (a b : Numeral) : Bool :=
  a.decimals == b.decimals && a.size == b.size &&
    (a.negative == b.negative || a.size == some Double.zero)

-- The plural categories. English tells one from all else, Chinese tells nothing apart.
inductive PluralCategory where
  | one
  | other
  deriving Repr, DecidableEq

-- One is a one without decimals, whatever its sign.
def category (locale : Locale) (n : Numeral) : PluralCategory :=
  match locale with
  | .en => if n.decimals = none ∧ n.size = Double.ofRatio? 1 1 then .one else .other
  | .zh => .other

-- Names that are no category of the language name nothing.
def isInCategory (locale : Locale) (name : String) (n : Numeral) : Bool :=
  match n.category locale with
  | .one => name == "one"
  | .other => name == "other"

end Numeral
end PageLocalizer.Fluent
