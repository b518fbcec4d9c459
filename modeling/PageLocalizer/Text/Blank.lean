-- White space in the sense of Unicode's White_Space property, and trimming by it.
namespace PageLocalizer.Text

-- The 25 characters that carry the White_Space property.
def isBlank (c : Char) : Bool :=
  let n := c.toNat
  (0x09 ≤ n && n ≤ 0x0D) || n == 0x20 || n == 0x85 || n == 0xA0 || n == 0x1680 ||
    (0x2000 ≤ n && n ≤ 0x200A) || n == 0x2028 || n == 0x2029 || n == 0x202F ||
    n == 0x205F || n == 0x3000

def trimStart (cs : List Char) : List Char := cs.dropWhile isBlank

def trimEnd (cs : List Char) : List Char := (cs.reverse.dropWhile isBlank).reverse

-- Blanks at both ends are dropped, blanks inside stay.
def trim (s : String) : String := String.ofList (trimEnd (trimStart s.toList))

end PageLocalizer.Text
