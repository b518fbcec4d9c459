-- Version strings and their order: runs of digits compare by value, all else as text.
namespace PageLocalizer.Version

-- A maximal run of ASCII digits, or a maximal run of other characters.
inductive Chunk where
  | number (digits : List Char)
  | text (chars : List Char)
  deriving Repr, DecidableEq

def Chunk.chars : Chunk → List Char
  | .number digits => digits
  | .text chars => chars

def chunks : List Char → List Chunk
  | [] => []
  | c :: cs =>
    let same := fun d : Char => d.isDigit == c.isDigit
    let run := c :: cs.takeWhile same
    (if c.isDigit then .number run else .text run) :: chunks (cs.dropWhile same)
termination_by cs => cs.length
decreasing_by
  have := (List.dropWhile_suffix (l := cs) fun d : Char => d.isDigit == c.isDigit).length_le
  simp only [List.length_cons]
  omega

-- Text compares by code point, which is also the order of its UTF-8 bytes.
def compareText : List Char → List Char → Ordering
  | [], [] => .eq
  | [], _ :: _ => .lt
  | _ :: _, [] => .gt
  | a :: as, b :: bs => (compare a.toNat b.toNat).then (compareText as bs)

def significant (digits : List Char) : List Char := digits.dropWhile (· == '0')

-- Numbers may have any size. Without its leading zeros the longer one is greater, and two of one
-- length compare as texts. A number and a text compare as the texts they are written as.
def Chunk.compare : Chunk → Chunk → Ordering
  | .number a, .number b =>
    (Ord.compare (significant a).length (significant b).length).then
      (compareText (significant a) (significant b))
  | a, b => compareText a.chars b.chars

-- Chunk by chunk; a list that ends first is the smaller one.
def compareChunks : List Chunk → List Chunk → Ordering
  | [], [] => .eq
  | [], _ :: _ => .lt
  | _ :: _, [] => .gt
  | a :: as, b :: bs => (a.compare b).then (compareChunks as bs)

end PageLocalizer.Version

namespace PageLocalizer

-- The order of version strings: "0.10.0" is newer than "0.9.3".
def compareVersions (left right : String) : Ordering :=
  Version.compareChunks (Version.chunks left.toList) (Version.chunks right.toList)

end PageLocalizer
