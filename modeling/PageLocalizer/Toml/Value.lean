import PageLocalizer.Number.Power
-- The values of a TOML document.
namespace PageLocalizer.Toml

-- How a table came to be, which says how it may grow.
inductive Origin where
  -- Has a header of its own, or is the document.
  | header
  -- Stands in the header of a table below it.
  | implied
  -- Stands before a dot in a key.
  | dotted
  -- Written in braces.
  | inline
  deriving Repr, DecidableEq

inductive Value where
  | string (s : String)
  -- Nothing where the digits are no number, which matters only to those who look at it.
  | integer (n : Option Int)
  -- A float is never looked at but for whether a double can hold it.
  | float (representable : Bool)
  | boolean (b : Bool)
  | datetime
  -- The tables under headers in double brackets form an open array, to which more can be added.
  | array (isOpen : Bool) (items : List Value)
  | table (origin : Origin) (fields : List (String × Value))

-- The entries of a table, each name once.
abbrev Fields := List (String × Value)

namespace Fields

-- Puts a value in the place of the name's present one, or last.
def set (name : String) (value : Value) : Fields → Fields
  | [] => [(name, value)]
  | (n, v) :: rest => if n = name then (n, value) :: rest else (n, v) :: set name value rest

end Fields

-- Whether a value can be passed over: its numbers are within the range of 128-bit integers and of
-- doubles.
mutual

def Value.isReadable : Value → Bool
  | .integer n =>
    n.any fun n => decide (-(Number.twoTo 127 : Int) ≤ n) && decide (n < (Number.twoTo 128 : Int))
  | .float representable => representable
  | .array _ items => allReadable items
  | .table _ fields => allFieldsReadable fields
  | .string _ | .boolean _ | .datetime => true
termination_by structural v => v

def allReadable : List Value → Bool
  | [] => true
  | v :: rest => v.isReadable && allReadable rest
termination_by structural vs => vs

def fieldReadable : String × Value → Bool
  | (_, v) => v.isReadable
termination_by structural f => f

def allFieldsReadable : List (String × Value) → Bool
  | [] => true
  | f :: rest => fieldReadable f && allFieldsReadable rest
termination_by structural fs => fs

end

end PageLocalizer.Toml
