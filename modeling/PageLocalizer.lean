import PageLocalizer.Main
import PageLocalizer.Session.Perform
import PageLocalizer.Proofs.Links
import PageLocalizer.Proofs.Edit
import PageLocalizer.Proofs.Document.Views
import PageLocalizer.Proofs.Document.Tenancy
import PageLocalizer.Proofs.Document.Walks
import PageLocalizer.Proofs.Document.WellFormed
import PageLocalizer.Proofs.Document.Edits
import PageLocalizer.Proofs.Document.Operation
import PageLocalizer.Proofs.Document.Chronicle
import PageLocalizer.Proofs.Document.Consistency
import PageLocalizer.Proofs.Document.Retention
import PageLocalizer.Proofs.Translation.Silence
import PageLocalizer.Proofs.Translation.Repetition
import PageLocalizer.Proofs.Translation.Plain
import PageLocalizer.Proofs.Document.Registrations
import PageLocalizer.Proofs.Document.Writes
import PageLocalizer.Proofs.Document.Account
import PageLocalizer.Proofs.Document.Notices
import PageLocalizer.Proofs.Document.Redrawing
import PageLocalizer.Proofs.Document.Rendering
import PageLocalizer.Proofs.Document.Entries
import PageLocalizer.Proofs.Translation.Outcome
import PageLocalizer.Proofs.Translation.Switching
import PageLocalizer.Proofs.Session.Moves
import PageLocalizer.Proofs.Session.Course
import PageLocalizer.Proofs.Session.Callbacks
import PageLocalizer.Proofs.Session.Discretion
import PageLocalizer.Proofs.Session.Reachable
import PageLocalizer.Proofs.Session.Calm
import PageLocalizer.Proofs.Session.Feedback
import PageLocalizer.Proofs.Session.Announcement
import PageLocalizer.Proofs.Batch
import PageLocalizer.Proofs.Batch.Gathering
import PageLocalizer.Proofs.Session.Stillness
import PageLocalizer.Proofs.Session.Steady
import PageLocalizer.Proofs.Session.Owners
import PageLocalizer.Proofs.Session.Arrivals
import PageLocalizer.Proofs.Session.Flushes
import PageLocalizer.Proofs.Session.Waiting
import PageLocalizer.Proofs.Document.Insertions
import PageLocalizer.Proofs.Document.Attachment
import PageLocalizer.Proofs.Translation.Upkeep
import PageLocalizer.Proofs.Translation.Patching
import PageLocalizer.Proofs.Session.Following
import PageLocalizer.Proofs.Document.Anchors
import PageLocalizer.Proofs.Document.Skeleton
import PageLocalizer.Proofs.Document.Strangers
import PageLocalizer.Proofs.Guard
import PageLocalizer.Proofs.Store
import PageLocalizer.Proofs.Translation.Marking
import PageLocalizer.Proofs.Session.Agreement
import PageLocalizer.Proofs.Markup.Reading
import PageLocalizer.Proofs.Preferences
import PageLocalizer.Proofs.Lookups
import PageLocalizer.Proofs.Translation.Sparing
import PageLocalizer.Proofs.Translation.Results
import PageLocalizer.Proofs.Document.Planting
import PageLocalizer.Proofs.Catalog.Standard
import PageLocalizer.Proofs.Dashboard.Builders
import PageLocalizer.Proofs.Dashboard.English
import PageLocalizer.Proofs.Session.Ledger
import PageLocalizer.Proofs.Session.PageEdits
import PageLocalizer.Proofs.Session.Bookkeeping
import PageLocalizer.Proofs.CommandLine.Restarts
import PageLocalizer.Proofs.Document.TreeEdits
import PageLocalizer.Proofs.Document.TextEdits
import PageLocalizer.Proofs.Document.Traversal
import PageLocalizer.Proofs.Version
import PageLocalizer.Proofs.Document.Occupancy
import PageLocalizer.Proofs.Parameters
import PageLocalizer.Proofs.Catalog.Parity
import PageLocalizer.Proofs.ByteSize
import PageLocalizer.Proofs.Frames
import PageLocalizer.Proofs.Settings
import PageLocalizer.Proofs.Translation.Firm
import PageLocalizer.Proofs.Dashboard.Tables
import PageLocalizer.Proofs.Session.Refreshes
