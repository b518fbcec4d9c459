import PageLocalizer.Number.HalfEven
-- Double-precision numbers without sign: how a decimal is rounded to one, and the shortest decimal
-- that reads back as it.
namespace PageLocalizer.Number

-- `significand * 2 ^ exponent`. The significand has 53 binary digits, fewer only at the least
-- exponent, so that each value is written in one way.
structure Double where
  significand : Nat
  exponent : Int
  deriving Repr, DecidableEq

namespace Double

def leastExponent : Int := -1074
def greatestExponent : Int := 971

def zero : Double := ⟨0, leastExponent⟩

-- `num / den` in units of `2 ^ exponent`, rounded.
def inUnits (num den : Nat) (exponent : Int) : Nat :=
  roundHalfEven (num * twoTo (-exponent).toNat) (den * twoTo exponent.toNat)

-- The double nearest to `num / den`, a tie going to the even significand. Too large a quotient has
-- none.
def ofRatio? (num den : Nat) : Option Double :=
  if num = 0 then some zero
  else
    let guess : Int := (num.log2 : Int) - (den.log2 : Int) - 52
    let floor := num * twoTo (-guess).toNat / (den * twoTo guess.toNat)
    let exponent := max leastExponent (if floor < twoTo 52 then guess - 1 else guess)
    let significand := inUnits num den exponent
    let d : Double :=
      if significand = twoTo 53 then ⟨twoTo 52, exponent + 1⟩ else ⟨significand, exponent⟩
    if greatestExponent < d.exponent then none else some d

-- A decimal number: `digits * 10 ^ exponent`.
structure Decimal where
  digits : Nat
  exponent : Int
  deriving Repr, DecidableEq

-- The order of `a * 10 ^ k` and `b * 2 ^ e`.
def compareScaled (a : Nat) (k : Int) (b : Nat) (e : Int) : Ordering :=
  compare (a * tenTo k.toNat * twoTo (-e).toNat) (b * twoTo e.toNat * tenTo (-k).toNat)

-- Whether a decimal rounds to the double: it lies between the midpoints to the neighbours. The
-- midpoints belong to the double when its significand is even. Below a power of two the neighbour
-- is half as far.
def reads (d : Double) (digits : Nat) (exponent : Int) : Bool :=
  let under := if d.significand = twoTo 52 ∧ leastExponent < d.exponent then 1 else 2
  let low := compareScaled digits exponent (4 * d.significand - under) (d.exponent - 2)
  let high := compareScaled digits exponent (4 * d.significand + 2) (d.exponent - 2)
  if d.significand % 2 = 0 then low != .lt && high != .gt else low == .gt && high == .lt

-- The multiples of `10 ^ exponent` on both sides of the double.
def neighbours (d : Double) (exponent : Int) : Nat × Nat :=
  let below := d.significand * twoTo d.exponent.toNat * tenTo (-exponent).toNat /
    (twoTo (-d.exponent).toNat * tenTo exponent.toNat)
  (below, below + 1)

-- The nearer of the two neighbours among those that read back. A tie goes to the even one.
def nearest? (d : Double) (exponent : Int) : Option Nat :=
  let (below, above) := d.neighbours exponent
  match d.reads below exponent && below != 0, d.reads above exponent with
  | true, false => some below
  | false, true => some above
  | false, false => none
  | true, true =>
    match compareScaled (below + above) exponent (2 * d.significand) d.exponent with
    | .gt => some below
    | .lt => some above
    | .eq => some (if below % 2 = 0 then below else above)

-- The power of ten of the first digit.
def leadingExponent (d : Double) : Int :=
  let bits : Int := d.significand.log2 + d.exponent
  -- log10 2 lies between 30102 / 100000 and 30103 / 100000, so one of two powers is the one.
  let guess := (bits * 30103) / 100000
  if compareScaled 1 (guess + 1) d.significand d.exponent == .gt then guess else guess + 1

-- Tries the grids from `10 ^ exponent` downwards, `left` of them.
def shortestFrom (d : Double) : Nat → Int → Decimal
  | 0, exponent => ⟨(d.neighbours exponent).1, exponent⟩
  | left + 1, exponent =>
    match d.nearest? exponent with
    | some digits => ⟨digits, exponent⟩
    | none => d.shortestFrom left (exponent - 1)

-- The decimal with the fewest digits that reads back as the double. The coarsest grid is that of
-- the next power of ten, to which the double may be rounded up. On the finer ones seventeen digits
-- always suffice.
def shortest (d : Double) : Decimal :=
  if d.significand = 0 then ⟨0, 0⟩ else d.shortestFrom 18 (d.leadingExponent + 1)

-- A decimal without an exponent, however many zeros that takes.
def Decimal.text (d : Decimal) : String :=
  let digits := Nat.toDigits 10 d.digits
  if 0 ≤ d.exponent then
    String.ofList (digits ++ List.replicate (if d.digits = 0 then 0 else d.exponent.toNat) '0')
  else
    let places := (-d.exponent).toNat
    let padded := List.replicate (places + 1 - digits.length) '0' ++ digits
    let whole := padded.length - places
    String.ofList (padded.take whole ++ '.' :: padded.drop whole)

def text (d : Double) : String := d.shortest.text

end Double
end PageLocalizer.Number
