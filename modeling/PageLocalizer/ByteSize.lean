import PageLocalizer.Number.HalfEven
-- Byte counts as a reader sees them: a whole number of binary units.
namespace PageLocalizer.ByteSize

open PageLocalizer.Number

def units : List String := ["B", "KiB", "MiB", "GiB", "TiB", "PiB"]

-- A count is held with 53 significant bits, as a double-precision number is.
def held (bytes : Nat) : Nat := toSignificant 53 bytes

-- The largest unit that the count reaches. PiB is the last one, however large the count is.
def unitIndex (bytes : Nat) : Nat := min ((held bytes).log2 / 10) 5

-- How many of that unit there are, rounded, a tie going to the even neighbour.
-- The unit is chosen before rounding, so a count just below a unit shows as 1024 of the unit below.
def amount (bytes : Nat) : Nat := roundHalfEven (held bytes) (twoTo (10 * unitIndex bytes))

def unitName (bytes : Nat) : String := units.getD (unitIndex bytes) "PiB"

-- 1600 bytes show as "2 KiB".
def format (bytes : Nat) : String := toString (amount bytes) ++ " " ++ unitName bytes

end PageLocalizer.ByteSize
