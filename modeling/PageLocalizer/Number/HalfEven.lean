import PageLocalizer.Number.Power
-- Rounding of exact quotients to the nearest integer, a tie going to the even neighbour.
namespace PageLocalizer.Number

-- The integer nearest to `num / den`. With a zero denominator it is zero.
def roundHalfEven (num den : Nat) : Nat :=
  let q := num / den
  let r := num % den
  if 2 * r < den then q
  else if den < 2 * r then q + 1
  else if q % 2 = 0 then q
  else q + 1

-- The value nearest to `n` that has at most `bits` significant binary digits.
def toSignificant (bits n : Nat) : Nat :=
  let dropped := n.log2 + 1 - bits
  roundHalfEven n (twoTo dropped) * twoTo dropped

end PageLocalizer.Number
