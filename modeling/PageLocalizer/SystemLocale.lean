import PageLocalizer.Directories
-- The locale that the environment asks for.
namespace PageLocalizer.SystemLocale

-- In the order in which they count. The first one may hold several locales between colons.
def listVariable : String := "LANGUAGE"
def variableNames : List String := [listVariable, "LC_ALL", "LC_MESSAGES", "LANG"]

-- A language tag from a locale name, which may go on with an encoding and a variant.
def tagOf (value : List Char) : String :=
  String.ofList ((value.takeWhile fun c => c ≠ '.' ∧ c ≠ '@').map fun c =>
    if c = '_' then '-' else c)

-- What a variable asks for. An empty one asks for nothing.
def of? (env : Environment) (name : String) : Option String :=
  ((env name).filter (· ≠ "")).map fun value =>
    if name = listVariable then tagOf (value.toList.takeWhile (· ≠ ':'))
    else tagOf value.toList

def detect? (env : Environment) : Option String := variableNames.findSome? (of? env)

end PageLocalizer.SystemLocale
