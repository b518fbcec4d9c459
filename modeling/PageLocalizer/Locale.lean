-- The languages the dashboard speaks. Resolution is total: any input names one of them.
namespace PageLocalizer

inductive Locale where
  | en
  | zh
  deriving Repr, DecidableEq, Inhabited

namespace Locale

-- Every locale, the default first.
def all : List Locale := [.en, .zh]

-- The locale when nothing else resolves, and the one that lookups fall back to.
def default : Locale := .en

-- The short tag kept in preferences and on the document element.
def tag : Locale → String
  | .en => "en"
  | .zh => "zh"

-- The full language tag of the document's `lang` attribute.
def languageTag : Locale → String
  | .en => "en"
  | .zh => "zh-CN"

-- The glyph that language indicators show.
def indicator : Locale → String
  | .en => "EN"
  | .zh => "中"

def toggled : Locale → Locale
  | .en => .zh
  | .zh => .en

-- Text that starts with `zh`, in any ASCII case, is Chinese. Everything else is English.
def ofTag (text : String) : Locale :=
  match text.toList with
  | z :: h :: _ => if z.toLower = 'z' ∧ h.toLower = 'h' then .zh else default
  | _ => default

-- An absent tag is English too.
def ofTag? (text : Option String) : Locale := (text.map ofTag).getD default

end Locale
end PageLocalizer
