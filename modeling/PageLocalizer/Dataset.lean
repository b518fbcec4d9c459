-- Names of `data-*` attributes as a dataset spells them: `total-pages` is `totalPages`.
namespace PageLocalizer.Dataset

def isAsciiLower (c : Char) : Bool := 'a' ≤ c && c ≤ 'z'

-- A dash before an ASCII lower-case letter is dropped and the letter raised. Any other dash stays.
def keyChars : List Char → List Char
  | '-' :: c :: rest =>
    if isAsciiLower c then c.toUpper :: keyChars rest else '-' :: keyChars (c :: rest)
  | c :: rest => c :: keyChars rest
  | [] => []

-- The dataset name of the attribute `data-` followed by `suffix`.
def key (suffix : String) : String := String.ofList (keyChars suffix.toList)

-- The part of an attribute name after `data-`, when it starts so.
def suffix? (name : String) : Option String :=
  match name.toList with
  | 'd' :: 'a' :: 't' :: 'a' :: '-' :: rest => some (String.ofList rest)
  | _ => none

-- The `data-*` attributes under their dataset names, in attribute order.
def ofAttributes (attributes : List (String × String)) : List (String × String) :=
  attributes.filterMap fun (name, value) => (suffix? name).map fun s => (key s, value)

end PageLocalizer.Dataset
