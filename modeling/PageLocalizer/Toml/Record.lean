import PageLocalizer.Toml.Parser
-- Takes the parts of a record from TOML values.
--
-- A record is written as a table or as an array that holds its parts in order. Parts that are left
-- out keep their defaults, and entries that are no part of it are passed over.
namespace PageLocalizer.Toml

def Value.string? : Value → Option String
  | .string s => some s
  | _ => none

def Value.boolean? : Value → Option Bool
  | .boolean b => some b
  | _ => none

def Value.integer? : Value → Option Int
  | .integer n => n.filter fun n => -(Number.twoTo 63 : Int) ≤ n ∧ n < (Number.twoTo 63 : Int)
  | _ => none

-- A part that may be left out, by its name and its place. Nothing comes back when the part is there
-- but of another kind.
def part (read : Value → Option α) (default : α) : Option Value → Option α
  | none => some default
  | some v => read v

-- The parts of a record of the given names, in order.
def parts? (names : List String) : Value → Option (List (Option Value))
  | .table _ fields =>
    if allReadable ((fields.filter (·.1 ∉ names)).map (·.2)) then
      some (names.map fun name => fields.lookup name)
    else none
  | .array _ items => some ((List.range names.length).map (items[·]?))
  -- A date is a table of one entry that is no part of any record.
  | .datetime => some (names.map fun _ => none)
  | _ => none

end PageLocalizer.Toml
