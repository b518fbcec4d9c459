import PageLocalizer.Catalog.Basic
import PageLocalizer.Document.Edit
-- A translation pass: resolves every directive below a node and writes the results.
--
-- A target that already holds its result is not written, so that observers hear of real changes
-- only.
namespace PageLocalizer.Translation

def titleKey : String := "app_name"

-- What a target holds. An attribute may be absent.
def current? (d : Document) (element : NodeId) : Target → Option String
  | .textContent => some (d.textContent element)
  | .attribute name => d.attribute? element name

-- What a directive of an element comes to, or nothing when the element stays as it is. A message
-- without an entry comes to what is shown already. A template without an entry changes nothing.
def resolve (c : Catalog) (locale : Locale) (d : Document) (directive : Directive)
    (element : NodeId) : Option String :=
  match directive with
  | .languageIndicator => some locale.indicator
  | .template =>
    ((directive.key? d element).map fun key =>
      c.lookupTemplate locale key (d.templateParams element)).filter (· ≠ "")
  | .text | .title | .ariaLabel | .placeholder =>
    (directive.key? d element).map fun key =>
      c.lookupMessage locale key (current? d element directive.target)

-- Gives a target its value. An attribute that is absent is not added with an empty value.
def write (element : NodeId) (target : Target) (value : String) : Edit Unit := fun d =>
  match target with
  | .textContent =>
    if d.textContent element = value then Edit.pure () d else Document.setText element value d
  | .attribute name =>
    match d.attribute? element name with
    | some held =>
      if held = value then Edit.pure () d else Document.setAttribute element name value d
    | none => if value = "" then Edit.pure () d else Document.setAttribute element name value d

def applyTo (c : Catalog) (locale : Locale) (directive : Directive) (element : NodeId) :
    Edit Unit := fun d =>
  match resolve c locale d directive element with
  | some value => write element directive.target value d
  | none => Edit.pure () d

-- Applies one directive to every element that carries it when the pass comes to it.
def applyDirective (c : Catalog) (locale : Locale) (root : NodeId) (directive : Directive) :
    Edit Unit := fun d =>
  Edit.each (directive.collect d root) (applyTo c locale directive) d

-- Names the page. Without a name in the catalog the title stays.
def retitle (c : Catalog) (locale : Locale) : Edit Unit := fun d =>
  let name := c.lookupMessage locale titleKey (some d.titleText)
  if name = d.titleText then Edit.pure () d else Document.setTitle name d

-- Translates `root` and everything below it, one directive after the other. Translating the whole
-- document or the whole body also names the page.
def pass (c : Catalog) (locale : Locale) (root : NodeId) : Edit Unit := do
  Edit.each Directive.all (applyDirective c locale root)
  if root = Document.root ∨ root = Document.body then retitle c locale else Edit.pure ()

end PageLocalizer.Translation
