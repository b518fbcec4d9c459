import PageLocalizer.Number.HalfEven
-- Single-precision numbers, and their text with one decimal.
namespace PageLocalizer.Number

inductive Single where
  | nan
  | infinite (negative : Bool)
  -- `significand * 2 ^ exponent`. Zero has a sign too.
  | finite (negative : Bool) (significand : Nat) (exponent : Int)
  deriving Repr, DecidableEq

namespace Single

-- Reads the 32 bits of the interchange format: sign, 8 bits of exponent, 23 bits of significand.
def ofBits (bits : UInt32) : Single :=
  let n := bits.toNat
  let negative := twoTo 31 ≤ n
  let exponent : Nat := n / twoTo 23 % 256
  let fraction := n % twoTo 23
  if exponent = 255 then if fraction = 0 then .infinite negative else .nan
  else if exponent = 0 then .finite negative fraction (-149)
  else .finite negative (twoTo 23 + fraction) ((exponent : Int) - 150)

def signText (negative : Bool) : String := if negative then "-" else ""

-- The tenths nearest to a number without sign, a tie going to the even one.
def tenths (significand : Nat) (exponent : Int) : Nat :=
  roundHalfEven (10 * significand * twoTo exponent.toNat) (twoTo (-exponent).toNat)

-- The exact value with one decimal. A negative number that rounds to zero keeps its sign.
def oneDecimal : Single → String
  | .nan => "NaN"
  | .infinite negative => signText negative ++ "inf"
  | .finite negative significand exponent =>
    let n := tenths significand exponent
    signText negative ++ toString (n / 10) ++ "." ++ toString (n % 10)

end Single
end PageLocalizer.Number
