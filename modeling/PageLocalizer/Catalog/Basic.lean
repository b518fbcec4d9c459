import PageLocalizer.Fluent.Format
import PageLocalizer.Fluent.Parser
-- The catalogs: literal messages and parameterized templates, both by locale and key.
--
-- A template says in an attribute of the same name what a parameter is when it is not given.
namespace PageLocalizer

open PageLocalizer.Fluent

inductive CatalogKind where
  | message
  | template
  deriving Repr, DecidableEq

namespace CatalogKind

def all : List CatalogKind := [.message, .template]

def sourceFile : CatalogKind → String
  | .message => "messages.ftl"
  | .template => "templates.ftl"

end CatalogKind

-- Messages and private messages share one space of names.
inductive EntryKind where
  | message
  | term
  deriving Repr, DecidableEq

structure Duplicate where
  kind : EntryKind
  name : String
  deriving Repr, DecidableEq

inductive CatalogProblem where
  | malformed
  | duplicates (entries : List Duplicate)
  deriving Repr, DecidableEq

structure CatalogError where
  locale : Locale
  kind : CatalogKind
  problem : CatalogProblem
  deriving Repr, DecidableEq

namespace CatalogError

def describe (d : Duplicate) : String :=
  let kind := match d.kind with
    | .message => "Message"
    | .term => "Term"
  "Overriding \x7b kind: " ++ kind ++ ", id: \"" ++ d.name ++ "\" \x7d"

def problemText : CatalogProblem → String
  | .malformed => "parse errors"
  | .duplicates entries => "[" ++ ", ".intercalate (entries.map describe) ++ "]"

def message (e : CatalogError) : String :=
  e.locale.tag ++ "/" ++ e.kind.sourceFile ++ ": " ++ problemText e.problem

end CatalogError

structure CatalogSource where
  locale : Locale
  messages : String
  templates : String
  deriving Repr, DecidableEq

structure LocaleCatalog where
  messages : Bundle
  templates : Bundle

-- A locale without a source has no entries at all.
structure Catalog where
  en : Option LocaleCatalog
  zh : Option LocaleCatalog

namespace Catalog

def empty : Catalog := { en := none, zh := none }

def get? (c : Catalog) : Locale → Option LocaleCatalog
  | .en => c.en
  | .zh => c.zh

def set (c : Catalog) (locale : Locale) (entries : LocaleCatalog) : Catalog :=
  match locale with
  | .en => { c with en := some entries }
  | .zh => { c with zh := some entries }

def kindOf : Entry → EntryKind
  | .message _ => .message
  | .term _ => .term

-- The entries whose name an earlier entry has, in order. `seen` holds the earlier names.
def duplicatesAfter (seen : List String) : List Entry → List Duplicate
  | [] => []
  | e :: rest =>
    if e.name ∈ seen then ⟨kindOf e, e.name⟩ :: duplicatesAfter seen rest
    else duplicatesAfter (e.name :: seen) rest

def duplicates (entries : List Entry) : List Duplicate := duplicatesAfter [] entries

def readSource (locale : Locale) (kind : CatalogKind) (source : String) :
    Except CatalogError Bundle :=
  match parse source with
  | none => .error { locale, kind, problem := .malformed }
  | some entries =>
    match duplicates entries with
    | [] => .ok { locale, entries }
    | repeated => .error { locale, kind, problem := .duplicates repeated }

def readLocale (s : CatalogSource) : Except CatalogError LocaleCatalog := do
  let messages ← readSource s.locale .message s.messages
  let templates ← readSource s.locale .template s.templates
  pure { messages, templates }

-- Reads the sources in order, the messages of each before its templates. A locale that is given
-- again starts anew.
def ofSources (sources : List CatalogSource) : Except CatalogError Catalog :=
  sources.foldlM (fun c s => do pure (c.set s.locale (← readLocale s))) empty

-- The message of exactly that locale. One that cannot be formatted completely is none.
def message? (c : Catalog) (locale : Locale) (key : String) : Option String := do
  let entries ← c.get? locale
  let m ← entries.messages.message? key
  let formatted := entries.messages.format [] (← m.value)
  if formatted.complete then some formatted.text else none

-- What a template says its parameters are when they are not given.
def templateDefaults (b : Bundle) (m : Message) : Params :=
  Table.ofList (m.attributes.map fun a => (a.name, (b.format [] a.value).text))

-- The template of exactly that locale with its parameters filled in.
def template? (c : Catalog) (locale : Locale) (key : String) (params : Params) :
    Option String := do
  let entries ← c.get? locale
  let m ← entries.templates.message? key
  let value ← m.value
  let filled := Table.ofList (templateDefaults entries.templates m ++ params)
  some (entries.templates.format filled value).text

-- English stands in for the other locales.
def orDefault (locale : Locale) (lookup : Locale → Option α) : Option α :=
  (lookup locale).or (if locale = .default then none else lookup .default)

-- The message of the locale, else of English, else the fallback, else nothing.
def lookupMessage (c : Catalog) (locale : Locale) (key : String) (fallback : Option String) :
    String :=
  ((orDefault locale (c.message? · key)).or fallback).getD ""

-- The template of the locale, else of English, else nothing.
def lookupTemplate (c : Catalog) (locale : Locale) (key : String) (params : Params) : String :=
  (orDefault locale (c.template? · key params)).getD ""

def sorted (names : List String) : List String := names.mergeSort fun a b => decide (a ≤ b)

def messageNames (b : Bundle) : List String :=
  b.entries.filterMap fun
    | .message m => some m.name
    | .term _ => none

-- The keys of one catalog of one locale, in ascending order. Private messages are no keys.
def keys (c : Catalog) (locale : Locale) (kind : CatalogKind) : List String :=
  match c.get? locale with
  | none => []
  | some entries =>
    sorted (messageNames (match kind with
      | .message => entries.messages
      | .template => entries.templates))

def loaded (c : Catalog) : List Locale := Locale.all.filter fun l => (c.get? l).isSome

structure MissingKey where
  locale : Locale
  kind : CatalogKind
  key : String
  deriving Repr, DecidableEq

-- What some loaded locale has and another loaded one lacks, by locale, catalog and key.
def missingKeys (c : Catalog) : List MissingKey :=
  c.loaded.flatMap fun locale =>
    CatalogKind.all.flatMap fun kind =>
      let present := c.keys locale kind
      let everywhere := sorted (c.loaded.flatMap fun l => c.keys l kind)
      (everywhere.eraseDups.filter (· ∉ present)).map fun key => { locale, kind, key }

end Catalog
end PageLocalizer
