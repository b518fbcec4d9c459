import PageLocalizer.Proofs.Dashboard.Builders
import PageLocalizer.Proofs.Translation.Firm

-- A table of processes while its rows come and go: each row is made apart, gets its place, is
-- translated where it stands, and takes all that it brought along when it goes.
namespace PageLocalizer.Dashboard

open Document Edit Translation Catalog

variable {c : Catalog} {base d d' : Document} {x y p r table : NodeId} {e : Element} {text : String}
  {beds rows hand before after ts : List NodeId}

section Opening

-- A page in the middle of its building, where the children of `table` are complete.
structure Complete (c : Catalog) (table : NodeId) (ts : List NodeId) (beds : List NodeId)
    (d : Document) : Prop where
  founded : Founded c beds d
  outside : table ∉ beds
  bed : Bed d table
  children : d.children table = ts

instance : Soil c (Complete c table ts) where
  wellFormed hd := hd.founded.firm.wellFormed
  bed hd := hd.founded.beds
  subset hd hs := ⟨Soil.subset hd.founded hs, fun hm => hd.outside (hs hm), hd.bed, hd.children⟩
  planted {beds d d' p e text} hd hp hplanted hs := by
    obtain ⟨hfounded, hmore⟩ := Soil.planted hd.founded hp hplanted hs
    have hbed := hd.bed.stays (stays_planted hplanted)
    have hne : ¬some p = some table := fun h => hd.outside (Option.some.inj h ▸ hp)
    have hchildren : d'.children table = ts := by
      rw [hplanted.children table hd.bed.alive, if_neg hne, hd.children]
    refine ⟨⟨hfounded, hd.outside, hbed, hchildren⟩, fun hbare =>
      ⟨hmore hbare, fun hm => ?_, hbed, hchildren⟩⟩
    rcases List.mem_cons.mp hm with he | hm
    · exact Planted.ne_nextId hd.bed.alive he
    · exact hd.outside hm

attribute [local simp] Directive.marker Directive.target List.lookup_cons shown? texting
  englishTexts tags

theorem Layout.founded_titled :
    Founded builtIn [body] (setTitle "DietPi Dashboard" Document.empty).document := by
  have hplain : ∀ x name,
      (setTitle "DietPi Dashboard" Document.empty).document.attribute? x name = none := by
    intro x name
    by_contra hne
    obtain ⟨value, hv⟩ := Option.ne_none_iff_exists'.mp hne
    obtain ⟨e, he⟩ := isElement_iff.mp (isElement_of_attribute? hv)
    rw [Sown.attribute?_eq he, attributes_titled he] at hv
    simp at hv
  refine ⟨⟨retexted_titled.wellFormed, fun x D _ hx => ?_, fun x key hx => ?_, ?_⟩, fun p hp => ?_⟩
  · simp [hasAttribute, hplain] at hx
  · simp [hplain] at hx
  · exact ⟨⟨5, 0⟩, by decide, by decide⟩
  · rw [List.mem_singleton.mp hp]
    exact bed_titled

-- A new table has a head and nothing else.
theorem ProcessTable.founded_build (hd : Founded builtIn beds d) (hp : p ∈ beds) :
    ∃ t d', Gives (ProcessTable.build p) d t d' ∧ Firm builtIn d' ∧ Bed d' t.table ∧
      (d'.children t.table).length = 1 := by
  refine (grows_checked hp (by simp) (by constructor <;> simp) (by simp)).bind_exists hd
    fun container d₁ h₁ => ?_
  refine (grows_checkedText (by simp) (by simp) (by constructor <;> simp)).bind_exists h₁
    fun _ d₂ h₂ => ?_
  refine (grows_checked (by simp) (by simp) (by constructor <;> simp) (by simp)).bind_exists h₂
    fun _ d₃ h₃ => ?_
  have hcontainer := h₃.beds container (by simp)
  have hclass : ([("class", "process-table")].map Prod.fst).Nodup := by simp
  have hbare : (([] : List (String × String)).map Prod.fst).Nodup := by simp
  obtain ⟨d₄, htable, hplanted⟩ := planted_element h₃.firm.wellFormed hcontainer.alive
    hcontainer.isText (toLower_tag "table" (by simp)) hclass
  have h₄ := (Soil.planted h₃ (by simp) hplanted (Checked.seeded (by constructor <;> simp))).2
    (by simp)
  have hbed := h₄.beds d₃.nextId (by simp)
  obtain ⟨d₅, hhead, hplanted'⟩ := planted_element h₄.firm.wellFormed hbed.alive hbed.isText
    (toLower_tag "tr" (by simp)) hbare
  have h₅ := (Soil.planted h₄ (by simp) hplanted' ProcessInfo.seeded_bare).2 (by simp)
  have hcomplete : Complete builtIn d₃.nextId [d₄.nextId] [d₄.nextId, container] d₅ := by
    refine ⟨Soil.subset h₅ (by simp), ?_, h₅.beds _ (by simp), ?_⟩
    · have hne := Planted.ne_nextId hcontainer.alive
      simpa [Ne.symm hne] using Planted.ne_nextId hbed.alive
    · rw [hplanted'.children _ hbed.alive, if_pos rfl, hplanted.text.children_nil]
      rfl
  refine htable.bind_exists (hhead.bind_exists ?_)
  refine (grows_columns (by simp)).bind_exists hcomplete fun _ d₆ h₆ => ?_
  refine (grows_checkedText (by simp) (by simp) checked_count).bind_exists h₆ fun _ d₇ h₇ => ?_
  refine (grows_checkedText (by simp) (by simp) checked_page).bind_exists h₇ fun _ d₈ h₈ => ?_
  exact ⟨_, d₈, ⟨rfl, rfl⟩, h₈.founded.firm, h₈.bed, by simp [h₈.children]⟩

-- The dashboard with a table of processes, and where the rows come.
def tablePage (options : LayoutOptions) : Edit NodeId := do
  let layout ← Layout.build options
  let table ← ProcessTable.build layout.main
  Edit.pure table.table

theorem gives_tablePage (options : LayoutOptions) : ∃ table d,
    Gives (tablePage options) Document.empty table d ∧ Firm builtIn d ∧ Bed d table ∧
      (d.children table).length = 1 := by
  obtain ⟨layout, d, hlayout, hfounded⟩ := Layout.build_titled options Layout.founded_titled
  obtain ⟨t, d', htable, hfirm, hbed, hhead⟩ := ProcessTable.founded_build (p := layout.main)
    hfounded (by simp)
  exact ⟨t.table, d', hlayout.bind (htable.bind ⟨rfl, rfl⟩), hfirm, hbed, hhead⟩

end Opening

section Apart

-- What was built since the page was `base` lies below `x`, and nothing else is new.
structure Annexed (c : Catalog) (base : Document) (x : NodeId) (beds : List NodeId)
    (d : Document) : Prop where
  firm : Firm c d
  stays : Stays base d
  children : ∀ y, base.Alive y → d.children y = base.children y
  within : ∀ y, d.Alive y → base.Alive y ∨ d.links.Under y x
  beds : ∀ p ∈ beds, Bed d p ∧ ¬base.Alive p ∧ d.links.Under p x

private theorem annexed_created (h : Firm c base) (hp : base.Planted none e text d)
    (hs : Seeded c e.attributes text) (hbare : texting e.attributes = []) :
    Annexed c base base.nextId [base.nextId] d where
  firm := h.planted (by simp) hp hs
  stays := stays_planted hp
  children y ha := by simpa using hp.children y ha
  within y ha := by
    rcases hp.joined y ha with hold | rfl | hc
    · exact .inl hold
    · exact .inr (.refl _ _)
    · exact .inr (Links.under_of_parent (hp.wellFormed.forest.parent_of_mem hc))
  beds p hm := by
    obtain rfl : p = base.nextId := List.mem_singleton.mp hm
    exact ⟨bed_nextId h.wellFormed hp hbare, base.not_alive_nextId, .refl _ _⟩

instance : Soil c (Annexed c base x) where
  wellFormed hd := hd.firm.wellFormed
  bed hd p hp := (hd.beds p hp).1
  subset hd hs := { hd with beds := fun p hp => hd.beds p (hs hp) }
  planted {beds d d' p e text} hd hp hplanted hs := by
    obtain ⟨hbed, hnew, hunder⟩ := hd.beds p hp
    have hw := hd.firm.wellFormed
    have hstays := stays_planted hplanted
    have hbeds : ∀ q, some p = some q → Bed d q := fun q hq => Option.some.inj hq ▸ hbed
    have hself : d'.links.Under d.nextId x :=
      (Links.under_of_parent hplanted.place).trans (hstays.under hw hunder)
    have hmore : Annexed c base x beds d' := by
      refine ⟨hd.firm.planted hbeds hplanted hs, hd.stays.trans hstays, fun y ha => ?_,
        fun y ha => ?_, fun q hq => ?_⟩
      · have hne : ¬some p = some y := fun hy => hnew (Option.some.inj hy ▸ ha)
        rw [hplanted.children y (hd.stays.alive y ha), if_neg hne, hd.children y ha]
      · rcases hplanted.joined y ha with hold | rfl | hc
        · exact (hd.within y hold).imp_right (hstays.under hw)
        · exact .inr hself
        · have hparent := hplanted.wellFormed.forest.parent_of_mem hc
          exact .inr ((Links.under_of_parent hparent).trans hself)
      · obtain ⟨hb, hq, hu⟩ := hd.beds q hq
        exact ⟨hb.stays hstays, hq, hstays.under hw hu⟩
    refine ⟨hmore, fun hbare => { hmore with beds := fun q hq => ?_ }⟩
    rcases List.mem_cons.mp hq with rfl | hq
    · have hnew : ¬base.Alive d.nextId := fun ha => d.not_alive_nextId (hd.stays.alive _ ha)
      exact ⟨bed_nextId hw hplanted hbare, hnew, hself⟩
    · exact hmore.beds q hq

-- A row can be made on any firm page.
theorem ProcessInfo.annexed_row (h : Firm builtIn d) (info : ProcessInfo) :
    ∃ row d', Gives info.row d row d' ∧ Annexed builtIn d row [row] d' ∧ ¬d.Alive row ∧
      d'.parent? row = none ∧ d'.isElement row = true := by
  obtain ⟨cells, hrow, hcells⟩ := ProcessInfo.growsTo_row (Annexed builtIn d d.nextId) [] info
  have hbare := planted_createElement h.wellFormed "tr"
  rw [toLower_tag "tr" (by simp [tags])] at hbare
  have hcreate : Gives (createElement "tr") d d.nextId _ := ⟨createElement_result "tr" d, rfl⟩
  obtain ⟨d', hgives, hstays, hdone⟩ := hcells d.nextId _
    (annexed_created h hbare ProcessInfo.seeded_bare rfl)
  refine ⟨d.nextId, d', hrow ▸ hcreate.bind hgives, hdone, d.not_alive_nextId, ?_, ?_⟩
  · rw [hstays.parent? _ hbare.alive_self, hbare.place]
  · exact isElement_iff.mpr ⟨_, (hstays.kind? _ hbare.alive_self).trans hbare.self⟩

end Apart

-- The table has got some rows since the page was `base`, and some more are in hand.
structure Tended (c : Catalog) (base : Document) (table : NodeId) (rows hand : List NodeId)
    (d : Document) : Prop where
  firm : Firm c d
  bed : Bed d table
  alive : ∀ y, base.Alive y → d.Alive y
  -- The nodes of `base` lie below each other only.
  closed : ∀ y p, base.Alive y → d.parent? y = some p → base.Alive p
  within : ∀ y, d.Alive y → base.Alive y ∨ ∃ r ∈ rows ++ hand, d.links.Under y r
  children : d.children table = base.children table ++ rows
  fresh : ∀ r ∈ rows ++ hand, ¬base.Alive r ∧ d.isElement r = true
  nodup : (rows ++ hand).Nodup
  apart : ∀ r ∈ hand, d.parent? r = none

namespace Tended

theorem refl (h : Firm c d) (hb : Bed d table) : Tended c d table [] [] d where
  firm := h
  bed := hb
  alive _ ha := ha
  closed _ _ _ hp := (h.wellFormed.alive_of_parent? hp).2
  within _ ha := .inl ha
  children := (List.append_nil _).symm
  fresh := by simp
  nodup := by simp
  apart := by simp

theorem row_alive (h : Tended c base table rows hand d) (hr : r ∈ rows ++ hand) : d.Alive r :=
  h.firm.wellFormed.alive_of_isContainer (isContainer_of_isElement (h.fresh r hr).2)

private theorem base_alive_of_under (h : Tended c base table rows hand d) (hu : d.links.Under y x)
    (hy : base.Alive y) : base.Alive x := by
  induction hu using Relation.ReflTransGen.head_induction_on with
  | refl => exact hy
  | head hstep _ ih => exact ih (h.closed _ _ hy hstep)

theorem not_under (h : Tended c base table rows hand d) (hr : r ∈ rows ++ hand)
    (hy : base.Alive y) : ¬d.links.Under y r :=
  fun hu => (h.fresh r hr).1 (h.base_alive_of_under hu hy)

theorem reshown (h : Tended c base table rows hand d) (hr : d.Reshown d') :
    Tended c base table rows hand d' where
  firm := h.firm.reshown hr
  bed := h.bed.reshown hr
  alive y ha := (hr.sameTenants.alive_iff y).mpr (h.alive y ha)
  closed y p ha hp := h.closed y p ha ((parent?_of_links hr.links y).symm.trans hp)
  within y ha := by
    rw [hr.links]
    exact h.within y ((hr.sameTenants.alive_iff y).mp ha)
  children := (children_of_links hr.links table).trans h.children
  fresh r hm := ⟨(h.fresh r hm).1, (hr.isElement r).trans (h.fresh r hm).2⟩
  nodup := h.nodup
  apart r hm := (parent?_of_links hr.links r).trans (h.apart r hm)

-- One more row comes to hand.
private theorem annexed (h : Tended c base table rows hand d) (ht : base.Alive table)
    (ha : Annexed c d x [x] d') (hnew : ¬d.Alive x) (hnone : d'.parent? x = none)
    (hx : d'.isElement x = true) : Tended c base table rows (hand ++ [x]) d' where
  firm := ha.firm
  bed := h.bed.stays ha.stays
  alive y hy := ha.stays.alive y (h.alive y hy)
  closed y p hy hp := h.closed y p hy ((ha.stays.parent? y (h.alive y hy)).symm.trans hp)
  within y hy := by
    rw [← List.append_assoc]
    rcases ha.within y hy with hold | hu
    · rcases h.within y hold with hbase | ⟨r, hr, hu⟩
      · exact .inl hbase
      · exact .inr ⟨r, List.mem_append_left _ hr, ha.stays.under h.firm.wellFormed hu⟩
    · exact .inr ⟨x, by simp, hu⟩
  children := (ha.children table (h.alive table ht)).trans h.children
  fresh r hr := by
    rw [← List.append_assoc] at hr
    rcases List.mem_append.mp hr with hold | hr
    · obtain ⟨hbase, hel⟩ := h.fresh r hold
      obtain ⟨e, he⟩ := isElement_iff.mp hel
      exact ⟨hbase, isElement_iff.mpr ⟨e, (ha.stays.kind? r (h.row_alive hold)).trans he⟩⟩
    · obtain rfl : r = x := List.mem_singleton.mp hr
      exact ⟨fun hbase => hnew (h.alive r hbase), hx⟩
  nodup := by
    rw [← List.append_assoc, List.nodup_append]
    refine ⟨h.nodup, by simp, fun r hr s hs => ?_⟩
    obtain rfl : s = x := List.mem_singleton.mp hs
    rintro rfl
    exact hnew (h.row_alive hr)
  apart r hr := by
    rcases List.mem_append.mp hr with hold | hr
    · exact (ha.stays.parent? r (h.row_alive (List.mem_append_right _ hold))).trans (h.apart r hold)
    · rw [List.mem_singleton.mp hr]
      exact hnone

theorem gives_row (h : Tended builtIn base table rows hand d) (ht : base.Alive table)
    (info : ProcessInfo) : ∃ row d', Gives info.row d row d' ∧
      Tended builtIn base table rows (hand ++ [row]) d' := by
  obtain ⟨row, d', hgives, ha, hnew, hnone, hx⟩ := ProcessInfo.annexed_row h.firm info
  exact ⟨row, d', hgives, h.annexed ht ha hnew hnone hx⟩

-- A row in hand becomes the last one of the table.
theorem linked (h : Tended c base table rows (before ++ r :: after) d) (ht : base.Alive table)
    (hw' : (d.link table r).WellFormed) :
    Tended c base table (rows ++ [r]) (before ++ after) (d.link table r) := by
  have hr : r ∈ rows ++ (before ++ r :: after) := by simp
  have hperm : (rows ++ (before ++ r :: after)).Perm ((rows ++ [r]) ++ (before ++ after)) := by
    rw [List.append_assoc]
    exact List.perm_middle.append_left rows
  have hnd := hperm.nodup_iff.mp h.nodup
  have hra := h.row_alive hr
  have hta := h.alive table ht
  have hnone := h.apart r (by simp)
  have hparent := parent?_link hta hra
  refine ⟨h.firm.linked h.bed hra hw', ?_, fun y ha => ?_, fun y p ha hp => ?_, fun y ha => ?_,
    ?_, fun s hs => ?_, hnd, fun s hs => ?_⟩
  · exact h.bed.congr (sameTenants_link.alive_iff table |>.mpr hta) (kind?_link table)
  · exact (sameTenants_link.alive_iff y).mpr (h.alive y ha)
  · have hne : y ≠ r := by
      rintro rfl
      exact (h.fresh y hr).1 ha
    rw [hparent, if_neg hne] at hp
    exact h.closed y p ha hp
  · rcases h.within y ((sameTenants_link.alive_iff y).mp ha) with hold | ⟨s, hs, hu⟩
    · exact .inl hold
    · exact .inr ⟨s, hperm.mem_iff.mp hs, under_link hta hra hnone hu⟩
  · rw [children_link hta hra, if_pos rfl, h.children, List.append_assoc]
  · obtain ⟨hnew, hs⟩ := h.fresh s (hperm.mem_iff.mpr hs)
    refine ⟨hnew, ?_⟩
    rwa [isElement, kind?_link]
  · have hsr : s ≠ r := by
      rintro rfl
      exact (List.nodup_append.mp hnd).2.2 s (by simp) s hs rfl
    rw [hparent, if_neg hsr]
    exact h.apart s (List.perm_middle.mem_iff.mpr (List.mem_cons_of_mem r hs))

theorem gives_append (h : Tended c base table rows (before ++ r :: after) d)
    (ht : base.Alive table) : ∃ d', Gives (appendChild table r) d () d' ∧
      Tended c base table (rows ++ [r]) (before ++ after) d' := by
  have hr : r ∈ rows ++ (before ++ r :: after) := by simp
  obtain ⟨e, he⟩ := isElement_iff.mp (h.fresh r hr).2
  obtain ⟨hgives, hw'⟩ := gives_appendChild (h.alive table ht) (h.row_alive hr) h.firm.wellFormed
    h.bed.isText he (h.apart r (by simp)) (h.not_under hr ht)
  exact ⟨_, hgives, h.linked ht hw'⟩

theorem gives_appendNth (h : Tended c base table rows hand d) (ht : base.Alive table) {nth : Nat}
    (hlt : nth < hand.length) : ∃ d', Gives (appendChild table hand[nth]) d () d' ∧
      Tended c base table (rows ++ [hand[nth]]) (hand.eraseIdx nth) d' := by
  have hsplit : hand = hand.take nth ++ hand[nth] :: hand.drop (nth + 1) := by
    rw [List.cons_getElem_drop_succ, List.take_append_drop]
  rw [hsplit] at h
  rw [List.eraseIdx_eq_take_drop_succ]
  exact h.gives_append ht

section Clearing

private theorem filter_middle (hb : r ∉ before) (ha : r ∉ after) :
    (before ++ r :: after).filter (· ≠ r) = before ++ after := by
  have hkeep : ∀ l : List NodeId, r ∉ l → l.filter (· ≠ r) = l := fun l hl =>
    List.filter_eq_self.mpr fun s hs => by simpa using ne_of_mem_of_not_mem hs hl
  rw [List.filter_append, List.filter_cons_of_neg (by simp), hkeep _ hb, hkeep _ ha]

-- The first row is gone, with all that was made for it.
theorem released (h : Tended c base table (r :: rows) [] d) (hbase : base.WellFormed)
    (ht : base.Alive table) (hgone : d.Released r d') (hw' : d'.WellFormed) :
    Tended c base table rows [] d' := by
  have hw := h.firm.wellFormed
  have hr : r ∈ (r :: rows) ++ [] := by simp
  have hnd := h.nodup
  simp only [List.append_nil, List.nodup_cons] at hnd
  have halive : ∀ y, d'.Alive y ↔ d.Alive y ∧ ¬d.links.Under y r := fun y => by
    rw [hgone.alive_iff, ← contains_iff hw.forest, Bool.not_eq_true]
  have hkept : ∀ y, base.Alive y → d'.Alive y := fun y ha =>
    (halive y).mpr ⟨h.alive y ha, h.not_under hr ha⟩
  have hplace : ∀ s ∈ r :: rows, d.parent? s = some table := fun s hs =>
    hw.forest.parent_of_mem (by simp [links, h.children, hs])
  -- The other rows stand beside it, so none of them was below it.
  have hothers : ∀ s ∈ rows, d'.Alive s := by
    intro s hs
    have hm : s ∈ r :: rows := List.mem_cons_of_mem r hs
    refine (halive s).mpr ⟨h.row_alive (List.mem_append_left _ hm), fun hu => ?_⟩
    have hsame : s = r := hw.forest.sibling_eq (hplace s hm) (hplace r (by simp)) (.refl _ s) hu
    exact hnd.1 (hsame ▸ hs)
  refine ⟨h.firm.released (h.fresh r hr).2 hgone hw', ?_, hkept, fun y p ha hp => ?_,
    fun y ha => ?_, ?_, fun s hs => ?_, by simpa using hnd.2, by simp⟩
  · exact h.bed.congr (hkept table ht) (hgone.kind? table (hkept table ht))
  · rw [hgone.parent? y (hkept y ha)] at hp
    exact h.closed y p ha hp
  · obtain ⟨hold, hout⟩ := (halive y).mp ha
    rcases h.within y hold with hbefore | ⟨s, hs, hu⟩
    · exact .inl hbefore
    · have hne : s ≠ r := fun he => hout (he ▸ hu)
      exact .inr ⟨s, by simpa [hne] using hs, hgone.under hw' hu ha⟩
  · have hhead : r ∉ base.children table := fun hm =>
      (h.fresh r hr).1 (hbase.alive_of_parent? (hbase.forest.parent_of_mem hm)).1
    rw [hgone.children table (hkept table ht), h.children, filter_middle hhead hnd.1]
  · have hs' : s ∈ rows := by simpa using hs
    obtain ⟨hnew, hel⟩ := h.fresh s (by simp [hs'])
    obtain ⟨e, he⟩ := isElement_iff.mp hel
    exact ⟨hnew, isElement_iff.mpr ⟨e, (hgone.kind? s (hothers s hs')).trans he⟩⟩

theorem gives_remove (h : Tended c base table (r :: rows) [] d) (hbase : base.WellFormed)
    (ht : base.Alive table) :
    ∃ d', Gives (remove r) d () d' ∧ Tended c base table rows [] d' := by
  have hr : r ∈ (r :: rows) ++ [] := by simp
  have hra := h.row_alive hr
  have hw := h.firm.wellFormed
  have hholds : ¬d.HoldsSkeleton r := by
    rintro ⟨x, hx, hreach⟩
    refine h.not_under hr (hbase.skeleton_alive x hx) ?_
    exact (mem_subtree_iff hw.forest).mp (mem_subtree_iff_reaches.mpr hreach)
  obtain ⟨-, hok, hgone⟩ | ⟨hno, -⟩ := decided_remove hw fun _ => hra
  · exact ⟨_, ⟨hok, rfl⟩, h.released hbase ht hgone (hw.remove fun _ => hra).1⟩
  · exact absurd ⟨hra.1, hholds⟩ hno

theorem gives_removeRows (h : Tended c base table rows [] d) (hbase : base.WellFormed)
    (ht : base.Alive table) : ∃ d', Gives (ProcessTable.removeRows rows) d () d' ∧
      Tended c base table [] [] d' := by
  induction rows generalizing d with
  | nil => exact ⟨d, ⟨rfl, rfl⟩, h⟩
  | cons r rows ih =>
      obtain ⟨d', hgives, h'⟩ := h.gives_remove hbase ht
      obtain ⟨d'', hrest, h''⟩ := ih h'
      exact ⟨d'', hgives.bind hrest, h''⟩

-- All rows but the head go, and they are counted.
theorem gives_clearRows (h : Tended c base table rows [] d) (hbase : base.WellFormed)
    (ht : base.Alive table) (hhead : (base.children table).length = 1) :
    ∃ d', Gives (ProcessTable.clearRows table) d rows.length d' ∧
      Tended c base table [] [] d' := by
  have hrows : (d.children table).drop 1 = rows := by
    rw [h.children, ← hhead, List.drop_left]
  obtain ⟨d', hgives, h'⟩ := h.gives_removeRows hbase ht
  have hread : Gives (Edit.read fun d => (d.children table).drop 1) d rows d := by
    rw [← hrows]
    exact ⟨rfl, rfl⟩
  exact ⟨d', hread.bind (hgives.bind ⟨rfl, rfl⟩), h'⟩

-- With no rows there is nobody but those who were there before.
theorem alive_iff (h : Tended c base table [] [] d) (y : NodeId) : d.Alive y ↔ base.Alive y :=
  ⟨fun ha => (h.within y ha).resolve_right (by simp), h.alive y⟩

end Clearing

end Tended
end PageLocalizer.Dashboard
