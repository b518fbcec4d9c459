import PageLocalizer.Dashboard.Processes
import PageLocalizer.Directive
import PageLocalizer.Engine
-- What a script can ask of a session. Nodes, observers and all else go by the names that the script
-- has given them.
namespace PageLocalizer

open PageLocalizer.Dashboard

inductive PageEdit where
  | create (tag : String) (name : Option String)
  | createText (data : String) (name : Option String)
  | append (parent child : String)
  | removeChild (parent child : String)
  | remove (node : String)
  | release (node : String)
  | setAttribute (node attr value : String)
  | removeAttribute (node attr : String)
  | setText (node text : String)
  | setTitle (text : String)
  | build (parent : Option String) (sketch : Sketch)
  -- A chain of elements, each the child of the one before.
  | nest (parent : String) (count : Nat) (tag : String) (name : Option String)
  | layout (options : LayoutOptions)
  | processTable (parent : String)
  | processRow (process : ProcessInfo) (name : Option String)
  | clearRows (table : String)
  | setPage (pager : String) (page total : Nat)
  | setCount (count : String) (processes : Nat)

inductive PageQuery where
  | title
  | allocated
  | observerCount
  | html
  | outer (node : String)
  | inner (node : String)
  | textOf (node : String)
  | contains (ancestor node : String)
  -- The child at a place, which gets a name.
  | child (node : String) (index : Nat) (name : String)
  | attribute (node attr : String)
  | look (node : String)
  | collect (root : String) (directive : Directive)
  | params (node : String)
  | key (node : String) (directive : Directive)
  deriving Repr

inductive GuardStep where
  | create (name : String)
  | share (name guard : String)
  | acquire (guard scope : String)
  | finish (scope : String)
  | isActive (guard : String)
  deriving Repr

inductive NamedChange where
  | children (added removed : List String)
  | attribute (name : String)
  | text (old : String)
  deriving Repr

structure NamedRecord where
  target : String
  change : NamedChange
  deriving Repr

inductive BatchStep where
  | create (name : String)
  | record (batch guard : String) (records : List NamedRecord)
  | take (batch : String) (name : Option String)
  | restore (batch taken : String)
  | state (batch : String)
  deriving Repr

inductive StoreStep where
  | create (name : String) (store : Store)
  | get (store key : String)
  | set (store key value : String)
  | size (store : String)
  | fileText (store : String)
  | updateRecord (store : String) (check : UpdateCheck)
  | isDue (store : String) (check : UpdateCheck) (now : Instant)
  | recordRelease (store : String) (check : UpdateCheck) (tag : String) (now : Instant)
  | available (store : String) (check : UpdateCheck) (current : String)
  deriving Repr

-- How an engine is made. Without a store it gets one of its own in memory.
structure EngineSetup where
  surroundings : Option String
  store : Option String
  settings : EngineSettings
  sources : Option (List CatalogSource)
  deriving Repr

inductive EngineStep where
  | share (name : String)
  | start
  | setLocale (input : Option String)
  | toggle
  | locale
  | detect
  | apply (root : Option String) (locale : Option Locale)
  | message (key : String) (fallback : Option String)
  | template (key : String) (params : Params)
  | updateMessage (version : String)
  | watch
  | unwatch
  | status
  deriving Repr

inductive Step where
  | edit (e : PageEdit)
  | ask (q : PageQuery)
  -- Names the last of some elements of another page.
  | foreign (count : Nat) (name : String)
  -- Observes a node, and runs the steps of the reaction on every record.
  | observe (target name : String) (reaction : Option (List Step))
  | disconnect (observer : String)
  -- A translation pass under a guard, or under a guard of its own.
  | translate (root : String) (locale : Locale) (sources : Option (List CatalogSource))
      (guard : Option String)
  | guard (g : GuardStep)
  | batch (b : BatchStep)
  | store (s : StoreStep)
  | requestFrame (name : String) (steps : List Step)
  | runFrame
  | runUntilIdle (limit : Nat)
  | frames
  | createEngine (name : String) (setup : EngineSetup)
  | dropEngine (name : String)
  | engine (name : String) (e : EngineStep)
  | repeated (times : Nat) (steps : List Step)
  -- Runs steps while somebody reads the page, or while somebody writes to it.
  | hold (exclusive : Bool) (steps : List Step)

end PageLocalizer
