import PageLocalizer.ByteSize
import PageLocalizer.Dashboard.Layout
import PageLocalizer.Number.Single
-- The table of processes: its section, its rows, and the parameters of its count and its pager.
namespace PageLocalizer.Dashboard

open PageLocalizer.Document PageLocalizer.Number

inductive ProcessStatus where
  | running
  | paused
  | sleeping
  | other
  deriving Repr, DecidableEq

namespace ProcessStatus

def all : List ProcessStatus := [.running, .paused, .sleeping, .other]

def tag : ProcessStatus → String
  | .running => "running"
  | .paused => "paused"
  | .sleeping => "sleeping"
  | .other => "other"

def messageKey : ProcessStatus → String
  | .running => "status_running"
  | .paused => "status_paused"
  | .sleeping => "status_sleeping"
  | .other => "status_other"

def label : ProcessStatus → String
  | .running => "Running"
  | .paused => "Paused"
  | .sleeping => "Sleeping"
  | .other => "Other"

end ProcessStatus

structure ProcessInfo where
  pid : Nat
  name : String
  status : ProcessStatus
  -- In percent.
  cpu : Single
  -- In bytes.
  memory : Nat
  deriving Repr, DecidableEq

structure Signal where
  name : String
  messageKey : String
  label : String
  icon : String
  deriving Repr, DecidableEq

namespace Signal

def kill : Signal := ⟨"kill", "signal_kill", "Kill process", "fa6-solid-skull"⟩
def terminate : Signal := ⟨"term", "signal_term", "Terminate process", "fa6-solid-ban"⟩
def resume : Signal := ⟨"resume", "signal_resume", "Resume process", "fa6-solid-play"⟩
def pause : Signal := ⟨"pause", "signal_pause", "Pause process", "fa6-solid-pause"⟩

def all : List Signal := [kill, terminate, resume, pause]

def offered (status : ProcessStatus) : List Signal :=
  [kill, terminate, if status = .paused then resume else pause]

end Signal

structure ProcessTable where
  container : NodeId
  table : NodeId
  count : NodeId
  pager : NodeId
  deriving Repr, DecidableEq

namespace ProcessTable

def columns : List (String × String) :=
  [("col_pid", "PID"), ("col_name", "Name"), ("col_status", "Status"), ("col_cpu", "CPU Usage"),
    ("col_ram", "RAM Usage"), ("col_actions", "Actions")]

def headCell (head : NodeId) (column : String × String) : Edit Unit := do
  let _ ← textElement head "th" [("data-i18n", column.1)] column.2
  Edit.pure ()

-- Builds the section without any row: heading, filter, head of the table, count and pager.
def build (parent : NodeId) : Edit ProcessTable := do
  let container ← element parent "section" [("id", "process-swap")]
  let _ ← textElement container "h2" [("data-i18n", "process_title")] "Processes"
  let _ ← element container "input" [("type", "search"), ("placeholder", "Filter processes"),
    ("data-i18n-placeholder", "process_filter")]
  let table ← element container "table" [("class", "process-table")]
  let head ← element table "tr" []
  Edit.each columns (headCell head)
  let count ← textElement container "p"
    [("data-i18n-template", "process_count"), ("data-count", "0")] "Processes: 0"
  let pager ← textElement container "span" [("class", "pager"), ("data-i18n-template", "page_of"),
    ("data-page", "1"), ("data-total-pages", "1")] "Page 1 / 1"
  Edit.pure { container, table, count, pager }

def removeRows : List NodeId → Edit Unit := fun rows => Edit.each rows remove

-- Releases every row but the head and tells how many there were.
def clearRows (table : NodeId) : Edit Nat := do
  let rows ← Edit.read fun d => (d.children table).drop 1
  removeRows rows
  Edit.pure rows.length

-- Gives the pager its parameters. Its text changes with the next translation.
def setPage (pager : NodeId) (page total : Nat) : Edit Unit := do
  setAttribute pager "data-page" (toString page)
  setAttribute pager "data-total-pages" (toString total)

def setCount (count : NodeId) (processes : Nat) : Edit Unit :=
  setAttribute count "data-count" (toString processes)

end ProcessTable

namespace ProcessInfo

def signalButton (actions : NodeId) (s : Signal) : Edit Unit := do
  let button ← element actions "button" [("data-signal", s.name),
    ("title", s.label), ("data-i18n-title", s.messageKey),
    ("aria-label", s.label), ("data-i18n-aria-label", s.messageKey)]
  icon button s.icon iconSize

-- Builds a detached row. Appended to a watched table, it is translated with the next frame.
def row (p : ProcessInfo) : Edit NodeId := do
  let row ← createElement "tr"
  let _ ← textElement row "td" [] (toString p.pid)
  let _ ← textElement row "td" [] p.name
  let status ← element row "td" []
  let _ ← textElement status "span" [("class", "status-badge"), ("data-status", p.status.tag),
    ("data-i18n", p.status.messageKey)] p.status.label
  let _ ← textElement row "td" [] (p.cpu.oneDecimal ++ "%")
  let _ ← textElement row "td" [] (ByteSize.format p.memory)
  let cell ← element row "td" [("data-pid", toString p.pid)]
  let actions ← element cell "div" [("class", "actions-cell")]
  Edit.each (Signal.offered p.status) (signalButton actions)
  Edit.pure row

end ProcessInfo
end PageLocalizer.Dashboard
