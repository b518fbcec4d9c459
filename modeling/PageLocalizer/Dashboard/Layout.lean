import PageLocalizer.Dashboard.Screen
import PageLocalizer.Document.Sketch
-- The layout of the dashboard: heading, header, messages, navigation, main area and footer.
--
-- Every text is bound to the catalog and starts in English, so the page reads well before anything
-- is translated. A label beside an icon has an element of its own, because a text takes the place
-- of all children.
namespace PageLocalizer.Dashboard

open PageLocalizer.Document

structure Backend where
  address : String
  name : String
  deriving Repr, DecidableEq

structure LayoutOptions where
  version : String
  screen : Screen
  backends : List Backend
  -- The address of the selected backend.
  selected : Option String
  -- The version that the selected backend can update its system to.
  systemUpdate : Option String
  deriving Repr, DecidableEq

structure Layout where
  heading : NodeId
  header : NodeId
  messages : NodeId
  -- The empty list item for the notice of a new version.
  updateNotice : NodeId
  nav : NodeId
  main : NodeId
  footer : NodeId
  deriving Repr, DecidableEq

def iconSize : Nat := 24

def icon (parent : NodeId) (name : String) (size : Nat) : Edit Unit := do
  let svg ← element parent "svg" [("width", toString size), ("height", toString size)]
  let _ ← element svg "use" [("href", "/static/icons.svg#" ++ name)]
  Edit.pure ()

namespace Layout

def backendOption (select : NodeId) (selected : Option String) (b : Backend) : Edit Unit := do
  let option ← element select "option" [("value", b.address)]
  if selected = some b.address then setAttribute option "selected" "" else Edit.pure ()
  setText option (b.name ++ " (" ++ b.address ++ ")")

def buildHeader (parent : NodeId) (options : LayoutOptions) : Edit NodeId := do
  let header ← element parent "header" []
  let toggle ← element header "button" [("class", "nav-toggle"), ("aria-controls", "nav"),
    ("aria-label", "Toggle navigation"), ("data-i18n-aria-label", "nav_toggle")]
  icon toggle "fa6-solid-bars" 30
  let switch ← element header "label" [("class", "backend-switch")]
  let _ ← textElement switch "span" [("data-i18n", "backend")] "Backend"
  let select ← element switch "select" []
  Edit.each options.backends (backendOption select options.selected)
  let messages ← element header "button" [("class", "msg-btn"), ("aria-controls", "msgs"),
    ("title", "Messages"), ("data-i18n-title", "messages"),
    ("aria-label", "Messages"), ("data-i18n-aria-label", "messages")]
  icon messages "fa6-solid-envelope" iconSize
  let language ← element header "button" [("class", "lang-switch"),
    ("title", "Switch language"), ("data-i18n-title", "language_switch"),
    ("aria-label", "Switch language"), ("data-i18n-aria-label", "language_switch")]
  let _ ← textElement language "span" [("data-i18n-lang", "")] "EN"
  let theme ← element header "span" [("class", "theme-switch")]
  let themeButton ← element theme "button" [("class", "theme-toggle"),
    ("aria-label", "Toggle dark mode"), ("data-i18n-aria-label", "theme_toggle")]
  icon themeButton "fa6-solid-sun" iconSize
  Edit.pure header

def buildMessages (parent : NodeId) (options : LayoutOptions) : Edit (NodeId × NodeId) := do
  let container ← element parent "div" [("id", "msgs")]
  let list ← element container "ul" []
  let notice ← element list "li" [("class", "update-notice")]
  match options.systemUpdate with
  | some version =>
    let _ ← textElement list "li"
      [("data-i18n-template", "dietpi_update"), ("data-version", version)]
      ("DietPi Update Available: " ++ version)
    Edit.pure (container, notice)
  | none => Edit.pure (container, notice)

def navLink (nav : NodeId) (current screen : Screen) : Edit Unit := do
  let active := screen = current
  let link ← element nav "a" [("href", screen.path), ("class", if active then "active" else ""),
    ("aria-current", if active then "page" else "false")]
  icon link screen.icon iconSize
  let _ ← textElement link "span" [("data-i18n", screen.messageKey)] screen.label
  Edit.pure ()

def buildNav (parent : NodeId) (current : Screen) : Edit NodeId := do
  let nav ← element parent "nav" [("id", "nav")]
  Edit.each Screen.all (navLink nav current)
  Edit.pure nav

def buildFooter (parent : NodeId) (version : String) : Edit NodeId := do
  let footer ← element parent "footer" []
  let _ ← textElement footer "span" [("data-i18n-template", "footer_credit"),
    ("data-version", version), ("data-author", "ravenclaw900")]
    ("DietPi Dashboard v" ++ version ++ " by ravenclaw900")
  let link ← element footer "a" [("href", "https://github.com/ravenclaw900/DietPi-Dashboard"),
    ("target", "_blank")]
  icon link "cib-github" 32
  Edit.pure footer

-- Builds the layout in the body and gives the page its title.
def build (options : LayoutOptions) : Edit Layout := do
  setTitle "DietPi Dashboard"
  let heading ← textElement body "h1" [("data-i18n", "app_name")] "DietPi Dashboard"
  let header ← buildHeader body options
  let (messages, updateNotice) ← buildMessages body options
  let nav ← buildNav body options.screen
  let _ ← element body "button" [("id", "nav-overlay"), ("type", "button"),
    ("aria-label", "Close navigation"), ("data-i18n-aria-label", "nav_close")]
  let main ← element body "main" []
  let footer ← buildFooter body options.version
  Edit.pure { heading, header, messages, updateNotice, nav, main, footer }

end Layout
end PageLocalizer.Dashboard
