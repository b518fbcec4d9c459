import PageLocalizer.Proofs.Markup.Outline

-- A reader of markup, which finds the normal form of every subtree in what is written of it.
namespace PageLocalizer.Markup

section Reader

-- The characters that escapes stand for.
def unescape : List Char → List Char
  | '&' :: 'a' :: 'm' :: 'p' :: ';' :: rest => '&' :: unescape rest
  | '&' :: 'l' :: 't' :: ';' :: rest => '<' :: unescape rest
  | '&' :: 'g' :: 't' :: ';' :: rest => '>' :: unescape rest
  | '&' :: 'q' :: 'u' :: 'o' :: 't' :: ';' :: rest => '"' :: unescape rest
  | c :: rest => c :: unescape rest
  | [] => []

def name? (s : List Char) : Option (String × List Char) :=
  let run := s.takeWhile isNameChar
  if run = [] then none else some (String.ofList run, s.dropWhile isNameChar)

-- The attributes of a tag, up to its closing bracket.
def attributes? : Nat → List Char → Option (List (String × String) × List Char)
  | _, '>' :: rest => some ([], rest)
  | rounds + 1, ' ' :: rest => do
    let (name, s) ← name? rest
    match s with
    | '=' :: '"' :: s =>
      let value := String.ofList (unescape (s.takeWhile (· != '"')))
      match s.dropWhile (· != '"') with
      | '"' :: s =>
        let (others, s) ← attributes? rounds s
        some ((name, value) :: others, s)
      | _ => none
    | _ => none
  | _, _ => none

-- The closing tag of an element.
def closing? (tag : String) (s : List Char) : Option (List Char) :=
  let expected := closeTag ⟨tag, []⟩
  if expected.isPrefixOf s then some (s.drop expected.length) else none

-- An element behind its opening bracket, with a reader of what stands inside.
def element? (inner? : List Char → Option (List Outline × List Char)) (s : List Char) :
    Option (Outline × List Char) := do
  let (tag, s) ← name? s
  let (attributes, s) ← attributes? s.length s
  if tag ∈ voidTags then some (.element tag attributes [], s)
  else
    let (children, s) ← inner? s
    let s ← closing? tag s
    some (.element tag attributes children, s)

-- Texts and elements side by side, up to a closing tag or to the end.
def content? : Nat → List Char → Option (List Outline × List Char)
  | 0, _ => none
  | _ + 1, [] => some ([], [])
  | _ + 1, '<' :: '/' :: rest => some ([], '<' :: '/' :: rest)
  | rounds + 1, '<' :: rest => do
    let (first, s) ← element? (content? rounds) rest
    let (others, s) ← content? rounds s
    some (first :: others, s)
  | rounds + 1, s => do
    let (others, rest) ← content? rounds (s.dropWhile (· != '<'))
    some (.text (String.ofList (unescape (s.takeWhile (· != '<')))) :: others, rest)

-- All of a text, and nothing if something is left over. The document starts with the doctype.
def read? (text : String) : Option (List Outline) :=
  let s := text.toList
  let whole (s : List Char) : Option (List Outline) :=
    match content? (s.length + 1) s with
    | some (os, []) => some os
    | _ => none
  if doctype.isPrefixOf s then (whole (s.drop doctype.length)).map fun os => [.document os]
  else whole s

end Reader


section Escapes

variable {quoted : Bool} {c : Char} {s : String}

private theorem unescape_escapeChar (quoted : Bool) (c : Char) (rest : List Char) :
    unescape (escapeChar quoted c ++ rest) = c :: unescape rest := by
  unfold escapeChar
  split
  · simp [unescape]
  · simp [unescape]
  · simp [unescape]
  · cases quoted <;> simp [unescape]
  case _ hamp _ _ _ =>
    rw [List.singleton_append, unescape] <;> exact fun _ h => absurd h hamp

-- No escape is taken for another one, whatever text stands around it.
theorem unescape_escape (quoted : Bool) (s : String) : unescape (escape quoted s) = s.toList := by
  rw [escape]
  induction s.toList with
  | nil => simp [unescape]
  | cons c rest ih => rw [List.flatMap_cons, unescape_escapeChar, ih]

theorem ne_of_mem_escape (h : c ∈ escape quoted s) : c ≠ '<' ∧ (quoted = true → c ≠ '"') := by
  obtain ⟨original, -, hc⟩ := List.mem_flatMap.mp h
  unfold escapeChar at hc
  split at hc <;> grind

theorem escape_append (a b : String) :
    escape quoted (a ++ b) = escape quoted a ++ escape quoted b := by simp [escape]

theorem escape_eq_nil : escape quoted s = [] ↔ s = "" := by
  constructor
  · intro h
    have hs := unescape_escape quoted s
    rw [h, unescape] at hs
    exact String.toList_eq_nil_iff.mp hs.symm
  · rintro rfl
    simp [escape]

end Escapes

section Tags

variable {name tag : String} {s : List Char} {as : List (String × String)} {n : Nat}

theorem isNameChar_of_isName (h : IsName name) : ∃ c cs, name.toList = c :: cs ∧
    isNameChar c = true := by
  cases hs : name.toList with
  | nil => exact absurd (String.toList_eq_nil_iff.mp hs) h.1
  | cons c cs => exact ⟨c, cs, rfl, h.2 c (by simp [hs])⟩

theorem name?_append (h : IsName name) {c : Char} (hc : isNameChar c = false) :
    name? (name.toList ++ c :: s) = some (name, c :: s) := by
  have htake : (name.toList ++ c :: s).takeWhile isNameChar = name.toList := by
    rw [List.takeWhile_append_of_pos h.2]
    simp [hc]
  have hdrop : (name.toList ++ c :: s).dropWhile isNameChar = c :: s := by
    rw [List.dropWhile_append_of_pos h.2]
    simp [hc]
  have hne : name.toList ≠ [] := fun hnil => h.1 (String.toList_eq_nil_iff.mp hnil)
  simp [name?, htake, hdrop, hne]

-- A value ends at the first quote, since the quotes in it are escaped.
private theorem attributes?_append (h : ∀ a ∈ as, IsName a.1) (hn : as.length ≤ n) :
    attributes? n (as.flatMap attributeText ++ '>' :: s) = some (as, s) := by
  induction as generalizing n with
  | nil => simp [attributes?]
  | cons a rest ih =>
      obtain ⟨hname, hrest⟩ := List.forall_mem_cons.mp h
      obtain ⟨m, rfl⟩ : ∃ m, n = m + 1 := Nat.exists_eq_succ_of_ne_zero (by simp at hn; omega)
      have hvalue : ∀ c ∈ escape true a.2, (c != '"') = true := fun c hc => by
        simpa using (ne_of_mem_escape hc).2
      have hlayout : (a :: rest).flatMap attributeText ++ '>' :: s = ' ' :: (a.1.toList ++
          '=' :: '"' :: (escape true a.2 ++ '"' :: (rest.flatMap attributeText ++ '>' :: s))) := by
        simp [attributeText]
      rw [hlayout, attributes?, name?_append hname (by decide)]
      simp [List.takeWhile_append_of_pos hvalue, List.dropWhile_append_of_pos hvalue,
        unescape_escape, ih hrest (by simpa using hn)]

private theorem name?_tag (h : IsName tag) (as : List (String × String)) (s : List Char) :
    name? (tag.toList ++ (as.flatMap attributeText ++ '>' :: s)) =
      some (tag, as.flatMap attributeText ++ '>' :: s) := by
  cases as with
  | nil => exact name?_append h (by decide)
  | cons a rest => exact name?_append (c := ' ') h (by decide)

private theorem length_le_attributes (as : List (String × String)) :
    as.length ≤ (as.flatMap attributeText).length := by
  induction as with
  | nil => simp
  | cons a rest ih =>
      have hone : 1 ≤ (attributeText a).length := by simp [attributeText]
      rw [List.flatMap_cons, List.length_append, List.length_cons]
      omega

private theorem closing?_append (as : List (String × String)) :
    closing? tag (closeTag ⟨tag, as⟩ ++ s) = some s := by simp [closing?, closeTag]

end Tags

section Content

variable {n : Nat} {a : String} {s rest : List Char} {os : List Outline}

-- What may follow the texts and elements that stand side by side.
def Ends (rest : List Char) : Prop := rest = [] ∨ ∃ more, rest = '<' :: '/' :: more

private theorem content?_of_ends (h : Ends rest) : content? (n + 1) rest = some ([], rest) := by
  obtain rfl | ⟨more, rfl⟩ := h <;> rfl

-- A text goes on up to the next tag.
private theorem content?_text (ha : a ≠ "") (hs : s = [] ∨ ∃ more, s = '<' :: more) :
    content? (n + 1) (escape false a ++ s) =
      (content? n s).map fun r => (.text a :: r.1, r.2) := by
  have hplain : ∀ c ∈ escape false a, (c != '<') = true := fun c hc => by
    simpa using (ne_of_mem_escape hc).1
  have htake : (escape false a ++ s).takeWhile (· != '<') = escape false a := by
    rw [List.takeWhile_append_of_pos hplain]
    obtain rfl | ⟨more, rfl⟩ := hs <;> simp
  have hdrop : (escape false a ++ s).dropWhile (· != '<') = s := by
    rw [List.dropWhile_append_of_pos hplain]
    obtain rfl | ⟨more, rfl⟩ := hs <;> simp
  cases he : escape false a with
  | nil => exact absurd (escape_eq_nil.mp he) ha
  | cons c cs =>
      have hc : c ≠ '<' := (ne_of_mem_escape (he ▸ List.mem_cons_self)).1
      have htext : String.ofList (unescape (escape false a)) = a := by simp [unescape_escape]
      rw [he] at htake hdrop htext
      rw [List.cons_append] at htake hdrop ⊢
      rw [content?, htake, hdrop, htext]
      · cases content? n s <;> rfl
      all_goals simp [hc]

theorem markup_element (tag : String) (as : List (String × String)) (children : List Outline) :
    (Outline.element tag as children).markup = '<' :: (tag.toList ++ (as.flatMap attributeText ++
      '>' :: if tag ∈ voidTags then [] else Outline.markupAll children ++ closeTag ⟨tag, as⟩)) := by
  by_cases hvoid : tag ∈ voidTags <;> simp [Outline.markup, openTag, hvoid]

-- The children end at the closing tag of their own parent.
private theorem element?_markup {inner? : List Char → Option (List Outline × List Char)}
    {tag : String} {as : List (String × String)} {children : List Outline}
    (hn : (Outline.element tag as children).Named)
    (hinner : tag ∉ voidTags → inner? (Outline.markupAll children ++
      (closeTag ⟨tag, as⟩ ++ s)) = some (Outline.normalAll children, closeTag ⟨tag, as⟩ ++ s)) :
    element? inner? ((Outline.element tag as children).markup.tail ++ s) =
      some ((Outline.element tag as children).normal, s) := by
  obtain ⟨htag, has, -⟩ := hn
  have hattributes : ∀ more, attributes? (as.flatMap attributeText ++ '>' :: more).length
      (as.flatMap attributeText ++ '>' :: more) = some (as, more) := by
    intro more
    have hlength := length_le_attributes as
    exact attributes?_append has (by rw [List.length_append]; omega)
  rw [markup_element, List.tail_cons, List.append_assoc, List.append_assoc, List.cons_append,
    element?, name?_tag htag]
  simp only [Option.bind_eq_bind, Option.bind_some, hattributes, Outline.normal]
  by_cases hvoid : tag ∈ voidTags
  · simp [hvoid]
  · simp [hvoid, hinner hvoid, closing?_append]

-- A tag is never taken for a closing one, since a name stands right behind the bracket.
private theorem content?_element {tag : String} {as : List (String × String)}
    {children : List Outline} (htag : IsName tag) (n : Nat) (s : List Char) :
    content? (n + 1) ((Outline.element tag as children).markup ++ s) = (do
      let (first, s) ← element? (content? n) ((Outline.element tag as children).markup.tail ++ s)
      let (others, s) ← content? n s
      some (first :: others, s)) := by
  obtain ⟨c, cs, hcs, hc⟩ := isNameChar_of_isName htag
  have hslash : c ≠ '/' := by
    rintro rfl
    simp [isNameChar] at hc
  rw [markup_element, hcs]
  simp only [List.cons_append, List.tail_cons]
  rw [content?]
  intro _ h
  exact hslash (List.cons.inj h).1

-- So many rounds are enough for every shorter text.
def Reads (n : Nat) : Prop := ∀ {os : List Outline} {rest : List Char}, Outline.NamedAll os →
  Ends rest → (Outline.markupAll os ++ rest).length < n →
    content? n (Outline.markupAll os ++ rest) = some (Outline.normalAll os, rest)

theorem Reads.element {tag : String} {as : List (String × String)} {children others : List Outline}
    (hr : Reads n) (hfirst : (Outline.element tag as children).Named)
    (hothers : Outline.NamedAll others) (hrest : Ends rest)
    (hlen : (Outline.markupAll (.element tag as children :: others) ++ rest).length < n + 1) :
    content? (n + 1) (Outline.markupAll (.element tag as children :: others) ++ rest) =
      some (Outline.normalAll (.element tag as children :: others), rest) := by
  rw [Outline.markupAll, List.append_assoc] at hlen ⊢
  rw [markup_element] at hlen
  have hinner : tag ∉ voidTags → content? n (Outline.markupAll children ++
      (closeTag ⟨tag, as⟩ ++ (Outline.markupAll others ++ rest))) =
      some (Outline.normalAll children, closeTag ⟨tag, as⟩ ++
        (Outline.markupAll others ++ rest)) := by
    intro hvoid
    refine hr hfirst.2.2 (.inr ⟨_, rfl⟩) ?_
    simp only [if_neg hvoid, List.length_append, List.length_cons] at hlen ⊢
    omega
  have hafter : content? n (Outline.markupAll others ++ rest) =
      some (Outline.normalAll others, rest) := by
    refine hr hothers hrest ?_
    simp only [List.length_append, List.length_cons] at hlen ⊢
    omega
  rw [content?_element hfirst.1, element?_markup hfirst hinner]
  simp [hafter, Outline.normalAll, Outline.normal, Outline.join]

-- A text with a tag or the end behind it.
theorem Reads.text (hr : Reads n) (ha : a ≠ "") (hn : Outline.NamedAll os) (hrest : Ends rest)
    (hs : Outline.markupAll os ++ rest = [] ∨ ∃ more, Outline.markupAll os ++ rest = '<' :: more)
    (hlen : (escape false a ++ Outline.markupAll os ++ rest).length < n + 1) :
    content? (n + 1) (escape false a ++ Outline.markupAll os ++ rest) =
      some (.text a :: Outline.normalAll os, rest) := by
  have hlength : 0 < (escape false a).length :=
    List.length_pos_of_ne_nil fun he => ha (escape_eq_nil.mp he)
  have hbehind := hr hn hrest (by simp at hlen ⊢; omega)
  rw [List.append_assoc, content?_text ha hs, hbehind]
  rfl

-- The text `a` has been put together so far, and what follows is still to be read.
private theorem content?_markupAll (hn : Outline.NamedAll os) (hrest : Ends rest)
    (hlen : (escape false a ++ Outline.markupAll os ++ rest).length < n) :
    content? n (escape false a ++ Outline.markupAll os ++ rest) =
      some (Outline.join (.text a) (Outline.normalAll os), rest) := by
  induction n generalizing os a rest with
  | zero => exact absurd hlen (Nat.not_lt_zero _)
  | succ n ih =>
      have hr : Reads n := by
        intro os rest hn hrest hlen
        have hone := ih (a := "") hn hrest
        rw [show escape false "" = [] from rfl, Outline.join_text_nil] at hone
        exact hone hlen
      induction os generalizing a with
      | nil =>
          by_cases ha : a = ""
          · subst ha
            simpa [escape, Outline.markupAll, Outline.normalAll, Outline.join] using
              content?_of_ends hrest
          · have hstarts : rest = [] ∨ ∃ more, rest = '<' :: more := by
              obtain hnil | ⟨more, hclose⟩ := hrest
              · exact .inl hnil
              · exact .inr ⟨_, hclose⟩
            rw [hr.text ha hn hrest hstarts hlen]
            simp [Outline.join, Outline.normalAll, ha]
      | cons first others ihos =>
          have hfirst : first.Named := hn.1
          have hothers : Outline.NamedAll others := hn.2
          cases first with
          | document children => exact hfirst.elim
          | text b =>
              have hone : escape false a ++ Outline.markupAll (.text b :: others) =
                  escape false (a ++ b) ++ Outline.markupAll others := by
                simp [Outline.markupAll, Outline.markup, escape_append]
              rw [hone] at hlen ⊢
              rw [ihos hothers hlen, Outline.normalAll, Outline.normal, Outline.join_text_join]
          | element tag as children =>
              by_cases ha : a = ""
              · subst ha
                rw [show escape false "" = [] from rfl, List.nil_append,
                  Outline.join_text_nil] at *
                exact hr.element hfirst hothers hrest hlen
              · rw [hr.text ha hn hrest _ hlen]
                · simp [Outline.join, Outline.normalAll, Outline.normal, ha]
                · exact .inr ⟨_, by rw [Outline.markupAll, markup_element]; rfl⟩

end Content

section Whole

variable {o : Outline} {os : List Outline}

theorem content?_whole (hn : Outline.NamedAll os) :
    content? ((Outline.markupAll os).length + 1) (Outline.markupAll os) =
      some (Outline.normalAll os, []) := by
  have h := content?_markupAll (a := "") (n := (Outline.markupAll os).length + 1) hn
    (show Ends [] from .inl rfl) (by simp [escape])
  simpa [escape, Outline.join_text_nil] using h

private theorem doctype_eq : ∃ more, doctype = '<' :: '!' :: more := ⟨"DOCTYPE html>".toList, rfl⟩

-- Nothing but a document starts like one: a tag starts with a name, and a text with no bracket.
theorem not_doctype_prefix (hn : o.Named) : doctype.isPrefixOf o.markup = false := by
  obtain ⟨more, hdoctype⟩ := doctype_eq
  rw [hdoctype]
  cases o with
  | document children => exact hn.elim
  | element tag as children =>
      obtain ⟨c, cs, hcs, hc⟩ := isNameChar_of_isName hn.1
      have hmark : ('!' == c) = false := beq_false_of_ne (by rintro rfl; simp [isNameChar] at hc)
      simp [markup_element, hcs, List.isPrefixOf, hmark]
  | text data =>
      rw [Outline.markup]
      cases he : escape false data with
      | nil => rfl
      | cons c cs =>
          have hc : c ≠ '<' := (ne_of_mem_escape (he ▸ List.mem_cons_self)).1
          simp [List.isPrefixOf, hc.symm]

-- Reading gives back the normal form of what was written.
theorem read?_markup (hn : o.WellNamed) :
    read? (String.ofList o.markup) = some (Outline.normalAll [o]) := by
  cases o with
  | document children =>
      have hprefix : doctype.isPrefixOf (doctype ++ Outline.markupAll children) = true :=
        List.isPrefixOf_iff_prefix.mpr (List.prefix_append _ _)
      simp [read?, Outline.markup, hprefix, content?_whole hn, Outline.normalAll, Outline.normal,
        Outline.join]
  | element tag as children =>
      have hwhole := content?_whole (show Outline.NamedAll [.element tag as children] from
        ⟨hn, trivial⟩)
      rw [Outline.markupAll, Outline.markupAll, List.append_nil] at hwhole
      simp [read?, not_doctype_prefix hn, hwhole]
  | text data =>
      have hwhole := content?_whole (show Outline.NamedAll [.text data] from ⟨hn, trivial⟩)
      rw [Outline.markupAll, Outline.markupAll, List.append_nil] at hwhole
      simp [read?, not_doctype_prefix (o := .text data) trivial, hwhole]

end Whole

end PageLocalizer.Markup
