import PageLocalizer.Proofs.Document.Registrations
import PageLocalizer.Proofs.Document.Retention

-- The writes that operations consist of. Each is told on its own, and what is told says all that
-- the write did.
namespace PageLocalizer

namespace Document

-- A write to one node: who leaves its children and who joins them, the new value of one of its
-- attributes (none where the attribute goes), or its new text.
inductive Write where
  | children (target : NodeId) (removed added : List NodeId)
  | attribute (target : NodeId) (name : String) (value : Option String)
  | text (target : NodeId) (data : String)
  deriving Repr, DecidableEq

namespace Write

def target : Write → NodeId
  | .children target _ _ | .attribute target _ _ | .text target _ => target

def added : Write → List NodeId
  | .children _ _ added => added
  | _ => []

-- What is told of a write to `d`: it carries what `d` has there.
def record (d : Document) : Write → Record
  | .children target removed added => ⟨target, .children added removed⟩
  | .attribute target name _ => ⟨target, .attribute name (d.attribute? target name)⟩
  | .text target _ => ⟨target, .text (d.textContent target)⟩

def childrenAfter (w : Write) (x : NodeId) (cs : List NodeId) : List NodeId :=
  match w with
  | .children target removed added => if x = target then cs.filter (· ∉ removed) ++ added else cs
  | _ => cs

def entriesAfter (name : String) (value : Option String) (entries : List (String × String)) :
    List (String × String) :=
  match value with
  | some v => setEntry name v entries
  | none => entries.eraseP (·.1 = name)

def kindAfter (w : Write) (x : NodeId) (kind : NodeKind) : NodeKind :=
  match w with
  | .children _ _ _ => kind
  | .attribute target name value =>
    match kind with
    | .element e => if x = target then
        .element { e with attributes := entriesAfter name value e.attributes } else kind
    | kind => kind
  | .text target data => if x = target then .text data else kind

theorem target_record (w : Write) (d : Document) : (w.record d).target = w.target := by
  cases w <;> rfl

theorem childrenAfter_of_ne {w : Write} {x : NodeId} (h : x ≠ w.target) (cs : List NodeId) :
    w.childrenAfter x cs = cs := by
  cases w <;> simp_all [childrenAfter, target]

theorem kindAfter_of_ne {w : Write} {x : NodeId} (h : x ≠ w.target) (kind : NodeKind) :
    w.kindAfter x kind = kind := by
  rcases w with ⟨target, _, _⟩ | ⟨target, _, _⟩ | ⟨target, _⟩
  · rfl
  · have hne : x ≠ target := h
    cases kind <;> simp [kindAfter, hne]
  · have hne : x ≠ target := h
    simp [kindAfter, hne]

end Write

-- A write is made, and nothing else happens. The page around its target stays in place, so it does
-- not matter whether one asks before or after the write who has the target below.
structure Made (d : Document) (w : Write) (d' : Document) : Prop where
  wellFormed : d'.WellFormed
  registry : d'.registry = d.registry
  target : d.Alive w.target
  alive_iff : ∀ x, d'.Alive x ↔ d.Alive x ∨ x ∈ w.added
  children : ∀ x, d'.children x = w.childrenAfter x (d.children x)
  kind? : ∀ x, d.Alive x → d'.kind? x = (d.kind? x).map (w.kindAfter x)
  scope : ∀ a, d'.links.Under w.target a ↔ d.links.Under w.target a

-- Nodes come and go that nobody has for a child. Those that stay keep what they have.
structure Quiet (d d' : Document) : Prop where
  wellFormed : d'.WellFormed
  children : ∀ x, d.Alive x → d'.Alive x → d'.children x = d.children x
  kind? : ∀ x, d.Alive x → d'.Alive x → d'.kind? x = d.kind? x

-- The writes that lead from one page to another, with what is told of each: its record, and the
-- page as the write left it.
inductive Account : Document → List Write → List Change → Document → Prop where
  | done : d.Quiet d' → Account d [] [] d'
  | write : Made d w seen → Account seen ws changes d' →
      Account d (w :: ws) (⟨w.record d, seen⟩ :: changes) d'

section Links

open Links

variable {l m : Links} {x a c t : NodeId}

-- The ancestors of `t` are found through the children of others.
theorem under_of_children (hl : l.Forest) (hm : m.Forest)
    (h : ∀ p, p ≠ t → m.children p = l.children p) (hu : l.Under t a) : m.Under t a := by
  induction hu with
  | refl => exact .refl m t
  | @tail b p hub hp ih =>
      have hne : p ≠ t := by
        rintro rfl
        exact hl.not_under_of_parent hp hub
      have hmem : b ∈ m.children p := by
        rw [h p hne]
        exact hl.mem_of_parent hp
      exact Under.trans ih (under_of_parent (hm.parent_of_mem hmem))

-- Where `c` hangs does not matter to those that are not below it.
theorem under_congr (h : ∀ y, y ≠ c → m.parent y = l.parent y) (hc : ¬l.Under x c) :
    m.Under x a ↔ l.Under x a := by
  constructor
  · intro hu
    induction hu using Relation.ReflTransGen.head_induction_on with
    | refl => exact .refl l a
    | @head y p hp _ ih =>
        have hy : y ≠ c := by
          rintro rfl
          exact hc (.refl l y)
        have hp' : l.parent y = some p := (h y hy) ▸ hp
        exact (under_of_parent hp').trans
          (ih fun hpc => hc ((under_of_parent hp').trans hpc))
  · intro hu
    induction hu using Relation.ReflTransGen.head_induction_on with
    | refl => exact .refl m a
    | @head y p hp _ ih =>
        have hy : y ≠ c := by
          rintro rfl
          exact hc (.refl l y)
        have hp' : m.parent y = some p := (h y hy).trans hp
        exact (under_of_parent hp').trans
          (ih fun hpc => hc ((under_of_parent hp).trans hpc))

end Links

variable {d d' seen : Document} {id x a parent child old : NodeId} {w : Write} {ws : List Write}
  {changes : List Change}

section Quiet

theorem Quiet.refl (hw : d.WellFormed) : d.Quiet d := ⟨hw, fun _ _ _ => rfl, fun _ _ _ => rfl⟩

theorem Departure.quiet {left : List NodeId} (h : d.Departure left d') (hw' : d'.WellFormed) :
    d.Quiet d' where
  wellFormed := hw'
  children x _ ha' := by
    have hx := ((h.turnover.alive_iff x).mp ha').2
    have hc : d'.children x = if x ∈ left then [] else d.children x :=
      children_of_links h.links x
    rw [hc, if_neg hx]
  kind? x _ ha' := h.kind? x ha'

theorem quiet_create (hw : d.WellFormed) {kind : NodeKind} (hk : kind ≠ .document)
    (hn : kind.names.Nodup) : d.Quiet (create kind d).document where
  wellFormed := hw.create hk hn
  children x _ _ := children_of_links (links_create hw.vacancies) x
  kind? x ha _ := by
    have hx : x ≠ d.nextId := by
      rintro rfl
      exact d.not_alive_nextId ha
    rw [kind?_create hw.vacancies, if_neg hx]

-- Going down from a node that stays, one meets nodes that stay.
theorem Quiet.under_iff (h : d.Quiet d') (hw : d.WellFormed) (ha : d.Alive a) (ha' : d'.Alive a) :
    d'.links.Under x a ↔ d.links.Under x a := by
  have hw' := h.wellFormed
  constructor
  · intro hu
    induction hu using Relation.ReflTransGen.head_induction_on with
    | refl => exact .refl _ a
    | @head y p hp hpa ih =>
        have hap := hw.alive_of_under ih ha
        have hap' := hw'.alive_of_under hpa ha'
        have hm := hw'.forest.mem_of_parent hp
        have hy : y ∈ d.children p := (h.children p hap hap') ▸ hm
        exact (Links.under_of_parent (hw.forest.parent_of_mem hy)).trans ih
  · intro hu
    induction hu using Relation.ReflTransGen.head_induction_on with
    | refl => exact .refl _ a
    | @head y p hp hpa ih =>
        have hap := hw.alive_of_under hpa ha
        have hap' := hw'.alive_of_under ih ha'
        have hm := hw.forest.mem_of_parent hp
        have hy : y ∈ d'.children p := (h.children p hap hap').symm ▸ hm
        exact (Links.under_of_parent (hw'.forest.parent_of_mem hy)).trans ih

end Quiet

section Made

-- A write to the children of a node that keeps the rest of the page.
theorem Made.of_children {removed added : List NodeId} (hw : d.WellFormed) (hw' : d'.WellFormed)
    (hr : d'.registry = d.registry) (hid : d.Alive id)
    (ha : ∀ x, d'.Alive x ↔ d.Alive x ∨ x ∈ added)
    (hc : ∀ x, d'.children x =
      if x = id then (d.children id).filter (· ∉ removed) ++ added else d.children x)
    (hk : ∀ x, d.Alive x → d'.kind? x = d.kind? x) : Made d (.children id removed added) d' where
  wellFormed := hw'
  registry := hr
  target := hid
  alive_iff := ha
  children x := by
    rw [hc]
    by_cases hx : x = id <;> simp [Write.childrenAfter, hx]
  kind? x hx := by
    rw [hk x hx]
    cases d.kind? x <;> rfl
  scope a := by
    have hne : ∀ p, p ≠ id → d'.links.children p = d.links.children p := fun p hp => by
      have h := hc p
      rwa [if_neg hp] at h
    exact ⟨under_of_children hw'.forest hw.forest fun p hp => (hne p hp).symm,
      under_of_children hw.forest hw'.forest hne⟩

theorem made_unlink (hw : d.WellFormed) (hp : d.parent? child = some old) :
    Made d (.children old [child] []) (d.unlink old child) := by
  obtain ⟨hc, ho⟩ := hw.alive_of_parent? hp
  have hl : (d.unlink old child).links = d.links.detach old [child] := links_unlink ho.1 hc.1
  refine .of_children hw (hw.unlink hp) registry_unlink ho (fun x => ?_) (fun x => ?_)
    fun x _ => kind?_unlink x
  · simp [sameTenants_unlink.alive_iff]
  · have h := children_of_links hl x
    simpa [Links.detach, links] using h

theorem made_link (hw : d.WellFormed) (hp : d.Alive parent) (hc : d.Alive child)
    (ht : d.isText parent = false) (hroot : child ≠ root) (hnone : d.parent? child = none)
    (hn : ¬d.links.Under parent child) :
    Made d (.children parent [] [child]) (d.link parent child) := by
  have hl : (d.link parent child).links = d.links.attach parent child := links_link hp.1 hc.1
  refine .of_children hw (hw.link hp hc ht hroot hnone hn) registry_link hp (fun x => ?_)
    (fun x => ?_) fun x _ => kind?_link x
  · rw [sameTenants_link.alive_iff, List.mem_singleton]
    exact ⟨Or.inl, fun h => h.elim id fun he => he ▸ hc⟩
  · have h := children_of_links hl x
    simpa [Links.attach, links] using h

theorem made_withAttributes (hw : d.WellFormed) {e : Element} (he : d.element? id = some e)
    (name : String) (value : Option String)
    (hn : ((Write.entriesAfter name value e.attributes).map Prod.fst).Nodup) :
    Made d (.attribute id name value)
      (d.withAttributes id e (Write.entriesAfter name value e.attributes)) := by
  obtain ⟨hw', hsame⟩ := hw.withAttributes he hn
  obtain ⟨node, hid, hk⟩ := node?_of_element? he
  have hkind : d.kind? id = some (.element e) := by rw [kind?_of_node? hid, hk]
  have hl : (d.withAttributes id e (Write.entriesAfter name value e.attributes)).links =
      d.links := links_withAttributes _
  constructor
  · exact hw'
  · exact registry_withAttributes e _
  · exact hw.alive_of_kind? hkind rfl
  · intro x
    simp [hsame.alive_iff, Write.added]
  · exact children_of_links hl
  · intro x _
    rw [kind?_withAttributes he]
    by_cases hx : x = id
    · simp [hx, hkind, Write.kindAfter]
    · have hne : ∀ k, (Write.attribute id name value).kindAfter x k = k :=
        Write.kindAfter_of_ne hx
      cases d.kind? x <;> simp [hx, hne]
  · intro a
    rw [hl]

theorem made_reword {target : NodeId} {text : String}
    (ht : d.Alive target) (hr : d.Reworded target text d')
    (hreg : d'.registry = d.registry) : Made d (.text target text) d' := by
  constructor
  · exact hr.wellFormed
  · exact hreg
  · exact ht
  · intro x
    simp [hr.sameTenants.alive_iff, Write.added]
  · exact children_of_links hr.links
  · intro x hx
    obtain ⟨node, hn⟩ := Option.isSome_iff_exists.mp hx.1
    rw [hr.kind?]
    by_cases hxt : x = target
    · simp [hxt, Write.kindAfter, kind?_of_node? (hxt ▸ hn)]
    · simp [hxt, Write.kindAfter, kind?_of_node? hn]
  · intro a
    rw [hr.links]

end Made

end Document
end PageLocalizer
