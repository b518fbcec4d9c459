import PageLocalizer.Batch
import PageLocalizer.Catalog.Standard
import PageLocalizer.Settings
import PageLocalizer.Translation
import PageLocalizer.UpdateCheck
-- A translation engine: what it keeps, and what it makes of a page and a preference store.
namespace PageLocalizer

abbrev EngineId := Nat

abbrev StoreId := Nat

structure Engine where
  catalog : Catalog
  -- The locale that the surroundings ask for.
  surroundings : Option String
  settings : EngineSettings
  store : StoreId
  guard : Guard
  batch : Batch
  -- The registration that tells of insertions, while the engine watches.
  observer : Option ObserverId
  applied : Option Locale

structure EngineStatus where
  watching : Bool
  batchPending : Bool
  storageKey : String
  localeAttribute : String
  missing : Nat
  deriving Repr, DecidableEq

-- The catalog of the given sources, or the standard one.
def Catalog.load : Option (List CatalogSource) → Except CatalogError Catalog
  | some sources => ofSources sources
  | none => standard

namespace Engine

-- An engine that has not touched any page yet.
def create (catalog : Catalog) (surroundings : Option String) (settings : EngineSettings)
    (store : StoreId) : Engine :=
  { catalog, surroundings, settings, store, guard := .idle, batch := .empty, observer := none,
    applied := none }

def detect (e : Engine) (store : Store) : Locale :=
  Locale.detect store e.surroundings e.settings.storageKey

-- The active locale: what the document element says, else what was set last, else the locale to
-- start with. A page that nobody may look at says nothing.
def locale (e : Engine) (page : Option Document) (store : Store) : Locale :=
  match page.bind (·.attribute? Document.html e.settings.localeAttribute), e.applied with
  | some tag, _ => Locale.ofTag tag
  | none, some applied => applied
  | none, none => e.detect store

def ensureAttribute (id : NodeId) (name value : String) : Edit Unit := fun d =>
  if d.attribute? id name = some value then Edit.pure () d
  else Document.setAttribute id name value d

def mark (e : Engine) (locale : Locale) : Edit Unit := do
  ensureAttribute Document.html e.settings.localeAttribute locale.tag
  ensureAttribute Document.html "lang" locale.languageTag

def translate (e : Engine) (locale : Locale) (root : NodeId) : Edit Unit :=
  Translation.pass e.catalog locale root

def status (e : Engine) : EngineStatus :=
  { watching := e.observer.isSome
    batchPending := e.batch.scheduled
    storageKey := e.settings.storageKey
    localeAttribute := e.settings.localeAttribute
    missing := e.catalog.missingKeys.length }

def updateMessage (e : Engine) (locale : Locale) (version : String) : String :=
  e.catalog.lookupTemplate locale UpdateCheck.templateKey [("version", version)]

end Engine
end PageLocalizer
