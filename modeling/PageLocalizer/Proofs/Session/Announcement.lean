import PageLocalizer.Proofs.Document.Consistency
import PageLocalizer.Proofs.Document.Notices
import PageLocalizer.Session.Delivery

-- What is told of an operation at any point of any run, and that a session passes it on as it is.
namespace PageLocalizer

open Document

namespace Session

-- A session in which somebody makes an edit, once all notices of it have been passed on.
def notified (play : Play) (edited : Edited α) (s : Session) : Session :=
  let told := edited.notices.foldl (fun s n => s.hear play n.2 n.1)
    { s with document := edited.document, access := .exclusive }
  { told with access := .free }

private theorem deliver_eq (play : Play) (edited : Edited α) (s : Session) :
    deliver play edited.changes s =
      edited.notices.foldl (fun s n => s.hear play n.2 n.1) s := by
  simp only [deliver, Edited.notices, List.foldl_flatMap, List.foldl_map]

private theorem write_eq (play : Play) (edit : Edit α) (s : Session) :
    s.write play edit = ((edit s.document).result, s.notified play (edit s.document)) := by
  have h := deliver_eq play (edit s.document)
    { s with document := (edit s.document).document, access := .exclusive }
  exact congrArg (fun told : Session => ((edit s.document).result, { told with access := .free })) h

end Session

theorem Document.numbered_of_recorded {h : Chronicle} (hr : Chronicle.Recorded h) :
    h.document.Numbered := by
  induction hr with
  | start => exact numbered_empty
  | step op _ _ _ ih => exact ih.edit op

-- An operation tells of each of its writes, to all whom it concerns and to nobody else, and
-- sessions pass just that on.
theorem Document.announced_of_recorded {h : Chronicle} (hr : Chronicle.Recorded h)
    {op : Operation} (hm : op.mentions ⊆ h.issued) :
    h.document.Announced op ∧ ∀ (play : Play) (s : Session), s.document = h.document →
      s.write play op.edit =
        ((op.edit h.document).result, s.notified play (op.edit h.document)) := by
  have hs := Chronicle.sound_of_recorded hr
  refine ⟨announced_edit hs.wellFormed (numbered_of_recorded hr) fun x hx =>
    hs.alive_of_isSome (hm hx), fun play s hdoc => ?_⟩
  rw [Session.write_eq, hdoc]

-- Somebody watches an element and somebody else the body around it. There is a child in the
-- element.
def Document.Chronicle.watched : Chronicle :=
  [Operation.createElement "div", .appendChild body ⟨5, 0⟩, .createElement "p",
    .appendChild ⟨5, 0⟩ ⟨6, 0⟩, .observe ⟨5, 0⟩, .observe body].foldl after start

theorem Document.Chronicle.recorded_watched : Recorded watched := .foldl .start (by decide +kernel)

-- The child moves to the body. Both hear that it leaves, and one of them that it joins.
theorem Document.announced_move : Chronicle.Recorded Chronicle.watched ∧
    (Operation.appendChild body ⟨6, 0⟩).mentions ⊆ Chronicle.watched.issued ∧
    Chronicle.watched.document.Announced (.appendChild body ⟨6, 0⟩) ∧
    ((Operation.appendChild body ⟨6, 0⟩).edit Chronicle.watched.document).notices.map
        (fun n => (n.1, n.2.record)) =
      [(0, ⟨⟨5, 0⟩, .children [] [⟨6, 0⟩]⟩), (1, ⟨⟨5, 0⟩, .children [] [⟨6, 0⟩]⟩),
        (1, ⟨body, .children [⟨6, 0⟩] []⟩)] := by
  have hm : (Operation.appendChild body ⟨6, 0⟩).mentions ⊆ Chronicle.watched.issued := by
    decide +kernel
  exact ⟨Chronicle.recorded_watched, hm,
    (announced_of_recorded Chronicle.recorded_watched hm).1, by decide +kernel⟩

end PageLocalizer
