import PageLocalizer.Document.Tree
import PageLocalizer.Table
import PageLocalizer.Text.Blank
-- The attributes by which elements ask for translation.
--
-- The value of a directive attribute is a catalog key. The parameters of a template are the other
-- `data-*` attributes of its element.
namespace PageLocalizer

abbrev Params := Table String String

inductive Directive where
  | text
  | title
  | ariaLabel
  | placeholder
  | template
  | languageIndicator
  deriving Repr, DecidableEq

inductive Target where
  | textContent
  | attribute (name : String)
  deriving Repr, DecidableEq

namespace Directive

-- Every directive, in the order in which a pass applies them.
def all : List Directive := [.text, .title, .ariaLabel, .placeholder, .template, .languageIndicator]

def marker : Directive → String
  | .text => "data-i18n"
  | .title => "data-i18n-title"
  | .ariaLabel => "data-i18n-aria-label"
  | .placeholder => "data-i18n-placeholder"
  | .template => "data-i18n-template"
  | .languageIndicator => "data-i18n-lang"

def datasetName : Directive → String
  | .text => "i18n"
  | .title => "i18nTitle"
  | .ariaLabel => "i18nAriaLabel"
  | .placeholder => "i18nPlaceholder"
  | .template => "i18nTemplate"
  | .languageIndicator => "i18nLang"

def target : Directive → Target
  | .title => .attribute "title"
  | .ariaLabel => .attribute "aria-label"
  | .placeholder => .attribute "placeholder"
  | .text | .template | .languageIndicator => .textContent

def isMarker (name : String) : Bool := all.any fun d => d.datasetName == name

-- The key that an element gives for a directive, blanks around it dropped. An empty key is none.
def key? (directive : Directive) (d : Document) (element : NodeId) : Option String :=
  ((d.attribute? element directive.marker).map Text.trim).filter (· ≠ "")

-- The elements at and below `root` that carry the directive, in document order.
def collect (directive : Directive) (d : Document) (root : NodeId) : List NodeId :=
  if d.isContainer root then
    (d.subtree root).filter fun id => d.hasAttribute id directive.marker
  else []

end Directive

-- The `data-*` attributes of an element without the directive markers.
def Document.templateParams (d : Document) (element : NodeId) : Params :=
  Table.ofList ((d.dataset element).filter fun (name, _) => !Directive.isMarker name)

end PageLocalizer
