-- Reads bytes as UTF-8.
--
-- What is no character is cut into the longest beginnings of characters, and each counts as one
-- error.
namespace PageLocalizer.Text

-- A character under way: its bits so far, the number of bytes to come, and the bounds of the next.
structure Unfinished where
  bits : Nat
  owed : Nat
  low : Nat
  high : Nat
  deriving Repr, DecidableEq

-- A first byte of more than one. The bounds of the second byte keep out surrogates, code points
-- beyond the last one, and forms that are longer than needed.
def leadByte (b : Nat) : Option Unfinished :=
  if 0xC2 ≤ b ∧ b ≤ 0xDF then some ⟨b - 0xC0, 1, 0x80, 0xBF⟩
  else if b = 0xE0 then some ⟨0, 2, 0xA0, 0xBF⟩
  else if b = 0xED then some ⟨13, 2, 0x80, 0x9F⟩
  else if 0xE1 ≤ b ∧ b ≤ 0xEF then some ⟨b - 0xE0, 2, 0x80, 0xBF⟩
  else if b = 0xF0 then some ⟨0, 3, 0x90, 0xBF⟩
  else if 0xF1 ≤ b ∧ b ≤ 0xF3 then some ⟨b - 0xF0, 3, 0x80, 0xBF⟩
  else if b = 0xF4 then some ⟨4, 3, 0x80, 0x8F⟩
  else none

-- A byte where a character may begin.
def firstByte (b : Nat) : List (Option Char) × Option Unfinished :=
  if b < 0x80 then ([some (Char.ofNat b)], none)
  else match leadByte b with
    | some u => ([], some u)
    | none => ([none], none)

-- A byte, with the character under way before it.
def nextByte (under : Option Unfinished) (b : Nat) : List (Option Char) × Option Unfinished :=
  match under with
  | none => firstByte b
  | some u =>
    if u.low ≤ b ∧ b ≤ u.high then
      let bits := u.bits * 64 + (b - 0x80)
      if u.owed = 1 then ([some (Char.ofNat bits)], none)
      else ([], some ⟨bits, u.owed - 1, 0x80, 0xBF⟩)
    else
      let next := firstByte b
      (none :: next.1, next.2)

-- The characters of a byte sequence, nothing in the place of an error.
def scanUtf8 (under : Option Unfinished) : List UInt8 → List (Option Char)
  | [] => if under.isSome then [none] else []
  | b :: rest =>
    let next := nextByte under b.toNat
    next.1 ++ scanUtf8 next.2 rest

def ofUtf8? (bytes : List UInt8) : Option String :=
  ((scanUtf8 none bytes).mapM id).map String.ofList

-- Every error is shown as U+FFFD.
def ofUtf8Lossy (bytes : List UInt8) : String :=
  String.ofList ((scanUtf8 none bytes).map (·.getD '\uFFFD'))

end PageLocalizer.Text
