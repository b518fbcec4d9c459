import PageLocalizer.Proofs.Store
import PageLocalizer.Proofs.Toml.Strings

-- A table of strings is read back as it was written.
namespace PageLocalizer.Toml

open PageLocalizer.Toml.Parser (lines line key keyUpTo simpleKey skipSpaces lineEnd?
  skipToLineEnd Progress)

variable {s rest : List Char} {k v : String} {entries : List (String × String)}

section Keys

theorem ne_of_isBareChar {c other : Char} (h : isBareChar c = true)
    (hother : isBareChar other = false) : c ≠ other := by
  rintro rfl
  simp [h] at hother

theorem simpleKey_bare (hs : s ≠ []) (hbare : s.all isBareChar = true) {mark : Char}
    (hmark : Parser.isBareChar mark = false) (rest : List Char) :
    simpleKey (s ++ mark :: rest) = some (String.ofList s, mark :: rest) := by
  have hall : ∀ c ∈ s, Parser.isBareChar c = true := List.all_eq_true.mp hbare
  have htake : (s ++ mark :: rest).takeWhile Parser.isBareChar = s := by
    rw [List.takeWhile_append_of_pos hall]
    simp [hmark]
  have hdrop : (s ++ mark :: rest).dropWhile Parser.isBareChar = mark :: rest := by
    rw [List.dropWhile_append_of_pos hall]
    simp [hmark]
  cases s with
  | nil => exact absurd rfl hs
  | cons c cs =>
      have hc := hall c List.mem_cons_self
      have hdouble : c ≠ '"' := ne_of_isBareChar hc (by decide)
      have hsingle : c ≠ '\'' := ne_of_isBareChar hc (by decide)
      rw [simpleKey]
      · simp only [htake, hdrop]
        simp
      all_goals simp [hdouble, hsingle]

theorem simpleKey_basic {body : List Char} (h : ∀ more, body ≠ '"' :: '"' :: more) :
    simpleKey ('"' :: body) =
      (Parser.basic (body.length + 1) body).map fun r => (String.ofList r.1, r.2) := by
  rw [simpleKey]
  exact h

theorem simpleKey_literal {body : List Char} (h : ∀ more, body ≠ '\'' :: '\'' :: more) :
    simpleKey ('\'' :: body) =
      (Parser.literal body).map fun r => (String.ofList r.1, r.2) := by
  rw [simpleKey]
  exact h

theorem simpleKey_escape (s rest : List Char) :
    simpleKey ('"' :: escape false 0 s ++ ['"'] ++ ' ' :: rest) =
      some (String.ofList s, ' ' :: rest) := by
  have hlength := length_le_escape false 0 s
  have hbasic := basic_escape (s := s) (n := (escape false 0 s ++ '"' :: ' ' :: rest).length + 1)
    (by simp; omega) (' ' :: rest)
  simp only [List.cons_append, List.append_assoc, List.nil_append]
  rw [simpleKey_basic (escape_ne_quotes (by simp) s), hbasic, Option.map_some]

-- A key is followed by a space, so a quote that closes it does not look like one of three.
theorem simpleKey_quotedKey (s rest : List Char) :
    simpleKey (quotedKey s ++ ' ' :: rest) = some (String.ofList s, ' ' :: rest) := by
  unfold quotedKey
  simp only [Bool.and_eq_true, Bool.not_eq_true']
  split_ifs with hbare hbasic hliteral
  · exact simpleKey_bare hbare.1 hbare.2 (by decide) rest
  · exact simpleKey_escape s rest
  · obtain ⟨⟨hescaped, hlines⟩, hsingle⟩ := hliteral
    have hs : ∀ c ∈ s, c ≠ '\'' ∧ Parser.isControl c = false := by
      intro c hc
      refine ⟨?_, isControl_eq_false (by simpa using List.any_eq_false.mp hescaped c hc) ?_⟩
      all_goals
        rintro rfl
        simp_all
    have hne : ∀ more, s ++ '\'' :: ' ' :: rest ≠ '\'' :: '\'' :: more := by
      intro more h
      cases s with
      | nil => simp at h
      | cons c s => exact (hs c List.mem_cons_self).1 (List.cons.inj h).1
    simp only [List.cons_append, List.append_assoc, List.nil_append]
    rw [simpleKey_literal hne, literal_append hs, Option.map_some]
  · exact simpleKey_escape s rest

-- No key starts like a header, a comment or a blank line.
theorem quotedKey_head (s rest : List Char) : ∃ c more, quotedKey s ++ rest = c :: more ∧
    Parser.isSpace c = false ∧ c ≠ '[' ∧ c ≠ '#' ∧ c ≠ '\n' ∧ c ≠ '\r' ∧ c.toNat ≠ 0xFEFF := by
  unfold quotedKey
  simp only [Bool.and_eq_true, Bool.not_eq_true']
  split_ifs with hbare
  · obtain ⟨hs, hall⟩ := hbare
    cases s with
    | nil => exact absurd rfl hs
    | cons c cs =>
        have hc := List.all_eq_true.mp hall c List.mem_cons_self
        have hspace : Parser.isSpace c = false := by
          have hblank : c ≠ ' ' ∧ c ≠ '\t' :=
            ⟨ne_of_isBareChar hc (by decide), ne_of_isBareChar hc (by decide)⟩
          simp [Parser.isSpace, hblank]
        have hmark : c.toNat ≠ 0xFEFF := fun h =>
          ne_of_isBareChar hc (show isBareChar (Char.ofNat 0xFEFF) = false by decide)
            (by rw [← h, Char.ofNat_toNat])
        exact ⟨c, _, rfl, hspace, ne_of_isBareChar hc (by decide), ne_of_isBareChar hc (by decide),
          ne_of_isBareChar hc (by decide), ne_of_isBareChar hc (by decide), hmark⟩
  all_goals
    refine ⟨_, _, rfl, ?_⟩
    decide

private theorem key_quotedKey (s rest : List Char) :
    key (quotedKey s ++ ' ' :: '=' :: rest) = some (([], String.ofList s), '=' :: rest) := by
  obtain ⟨c, more, hc, hspace, -⟩ := quotedKey_head s (' ' :: '=' :: rest)
  have hskip : skipSpaces (quotedKey s ++ ' ' :: '=' :: rest) =
      quotedKey s ++ ' ' :: '=' :: rest := by
    rw [hc, skipSpaces, List.dropWhile_cons_of_neg (by simp [hspace])]
  rw [key, Parser.keyLimit, keyUpTo, hskip, simpleKey_quotedKey]
  rfl

end Keys

section Lines

-- One line of a document: a key, the text of its value, and what is read from that text.
structure Assignment where
  key : String
  text : List Char
  value : Value

def Assignment.line (a : Assignment) : List Char := assignment a.key a.text

def Assignment.field (a : Assignment) : String × Value := (a.key, a.value)

variable {written : List Assignment}

private theorem quoted_head (s rest : List Char) :
    (∃ more, quoted s ++ rest = '"' :: more) ∨ ∃ more, quoted s ++ rest = '\'' :: more := by
  unfold quoted
  split
  · exact .inl ⟨_, rfl⟩
  · exact .inr ⟨_, rfl⟩
  · exact .inl ⟨_, rfl⟩
  · exact .inr ⟨_, rfl⟩

-- A value is read from its text, and nothing of what follows the end of the line is taken.
def Reads (text : List Char) (v : Value) : Prop := ∀ depth rest,
  Parser.value depth (skipSpaces (' ' :: (text ++ '\n' :: rest))) = some (v, '\n' :: rest)

theorem reads_quoted (s : List Char) : Reads (quoted s) (.string (String.ofList s)) := by
  intro depth rest
  have hstring : Parser.string (quoted s ++ '\n' :: rest) = some (String.ofList s, '\n' :: rest) :=
    string_quoted (by simp) (by simp) s
  obtain ⟨more, hmore⟩ | ⟨more, hmore⟩ := quoted_head s ('\n' :: rest)
  all_goals
    rw [hmore] at hstring ⊢
    rw [skipSpaces, List.dropWhile_cons_of_pos (by decide), List.dropWhile_cons_of_neg (by decide),
      Parser.value, hstring, Option.map_some]

theorem line_assignment {text : List Char} {value : Value} (h : Reads text value) (k : String)
    (rest : List Char) :
    line (assignment k text ++ rest) = some (.assignment [] k value, '\n' :: rest) := by
  obtain ⟨c, more, hc, hspace, hbracket, hcomment, hn, hr, -⟩ :=
    quotedKey_head k.toList (' ' :: '=' :: ' ' :: (text ++ '\n' :: rest))
  have hlayout : assignment k text ++ rest =
      quotedKey k.toList ++ ' ' :: '=' :: ' ' :: (text ++ '\n' :: rest) := by
    simp [assignment]
  have hskip : skipSpaces (assignment k text ++ rest) = c :: more := by
    rw [hlayout, hc, skipSpaces, List.dropWhile_cons_of_neg (by simp [hspace])]
  have hkey := key_quotedKey k.toList (' ' :: (text ++ '\n' :: rest))
  rw [hc, String.ofList_toList] at hkey
  have hblank : (c == '#' || c == '\n' || c == '\r') = false := by simp [hcomment, hn, hr]
  have hvalue := h Parser.nestingLimit rest
  rw [line, hskip]
  split
  · simp_all
  · simp_all
  · simp_all
  · next c' more' heq =>
      obtain ⟨rfl, rfl⟩ := List.cons.inj heq
      simp only [hblank, hkey, Option.bind_eq_bind, Option.bind_some, hvalue]
      rfl

-- An assignment of a new key at the top of the document.
private theorem add_assignment {document : Fields} (h : document.lookup k = none) (value : Value) :
    Progress.add ⟨document, []⟩ (.assignment [] k value) =
      some ⟨document.set k value, []⟩ := by
  have hassign : Parser.assign [] k value .header document = some (document.set k value) := by
    have hheader : (Origin.header == Origin.dotted) = false := rfl
    simp [Parser.assign, Parser.modifyAt, hheader, h]
  rw [Progress.add, Parser.modifyAt, hassign, Option.map_some]

theorem lookup_cons_eq_none {name : String} {held : Value} {rest : Fields}
    (h : List.lookup k ((name, held) :: rest) = none) : name ≠ k ∧ rest.lookup k = none := by
  have hne : k ≠ name := by
    rintro rfl
    simp at h
  have hb : (k == name) = false := by simpa using hne
  rw [List.lookup_cons, hb] at h
  exact ⟨hne.symm, h⟩

theorem set_eq_append {document : Fields} (h : document.lookup k = none) (value : Value) :
    document.set k value = document ++ [(k, value)] := by
  induction document with
  | nil => rfl
  | cons first rest ih =>
      obtain ⟨hne, hrest⟩ := lookup_cons_eq_none h
      rw [Fields.set, if_neg hne, ih hrest, List.cons_append]

theorem lines_nil (n : Nat) (p : Progress) : lines (n + 1) p [] = some p.document := by
  simp [lines, line, skipSpaces, Progress.add, skipToLineEnd]

-- One line after the other is read.
theorem lines_of_line {l : Parser.Line} {p p' : Progress} (hline : line s = some (l, '\n' :: rest))
    (hadd : p.add l = some p') (n : Nat) : lines (n + 1) p s = lines n p' rest := by
  have hend : skipToLineEnd ('\n' :: rest) = some ('\n' :: rest) := by
    simp [skipToLineEnd, skipSpaces, Parser.isSpace]
  rw [lines, hline]
  simp only [Option.bind_eq_bind, Option.bind_some, hadd, hend, lineEnd?]

theorem lines_assignment {text : List Char} {value : Value} (h : Reads text value) (n : Nat)
    {document : Fields} (hk : document.lookup k = none) (rest : List Char) :
    lines (n + 1) ⟨document, []⟩ (assignment k text ++ rest) =
      lines n ⟨document ++ [(k, value)], []⟩ rest := by
  rw [lines_of_line (line_assignment h k rest) (add_assignment hk value), set_eq_append hk]

-- Keys that are still to come are new after one of them, too.
theorem lookup_append_field {document : Fields} {a : Assignment}
    (hfirst : ∀ b ∈ written, a.key ≠ b.key) (hnew : ∀ b ∈ written, document.lookup b.key = none) :
    ∀ b ∈ written, (document ++ [a.field]).lookup b.key = none := by
  intro b hb
  have hne : (b.key == a.key) = false := by simpa using (hfirst b hb).symm
  simp [Assignment.field, List.lookup_append, hnew b hb, List.lookup_cons, hne]

theorem lines_assignments {n : Nat} {document : Fields} (hn : written.length < n)
    (hreads : ∀ a ∈ written, Reads a.text a.value)
    (hnew : ∀ a ∈ written, document.lookup a.key = none)
    (hdistinct : written.Pairwise fun a b => a.key ≠ b.key) :
    lines n ⟨document, []⟩ (written.flatMap Assignment.line) =
      some (document ++ written.map Assignment.field) := by
  induction written generalizing n document with
  | nil =>
      obtain ⟨m, rfl⟩ : ∃ m, n = m + 1 := Nat.exists_eq_succ_of_ne_zero (by simp at hn; omega)
      simpa using lines_nil m ⟨document, []⟩
  | cons a rest ih =>
      obtain ⟨m, rfl⟩ : ∃ m, n = m + 1 := Nat.exists_eq_succ_of_ne_zero (by simp at hn; omega)
      obtain ⟨hfirst, hothers⟩ := List.pairwise_cons.mp hdistinct
      obtain ⟨hk, hrest⟩ := List.forall_mem_cons.mp hnew
      obtain ⟨hread, hreads⟩ := List.forall_mem_cons.mp hreads
      have hafter := ih (n := m) (by simpa using hn) hreads (lookup_append_field hfirst hrest)
        hothers
      have hstep := lines_assignment hread m hk (rest.flatMap Assignment.line)
      simpa [Assignment.line, Assignment.field] using hstep.trans hafter

end Lines

section Tables

variable {written : List Assignment}

theorem length_le_flatMap_line (written : List Assignment) :
    written.length ≤ (written.flatMap Assignment.line).length := by
  induction written with
  | nil => simp
  | cons a rest ih =>
      have hone : 1 ≤ a.line.length := by
        simp [Assignment.line, assignment]
        omega
      simp only [List.flatMap_cons, List.length_append, List.length_cons] at ih ⊢
      omega

-- No key starts with a mark of the byte order.
private theorem withoutMark_flatMap_line (written : List Assignment) :
    withoutMark (written.flatMap Assignment.line) = written.flatMap Assignment.line := by
  cases written with
  | nil => rfl
  | cons a rest =>
      obtain ⟨c, more, hc, -, -, -, -, -, hmark⟩ := quotedKey_head a.key.toList
        (" = ".toList ++ a.text ++ ['\n'] ++ rest.flatMap Assignment.line)
      simp only [List.flatMap_cons, Assignment.line, assignment, List.append_assoc] at hc ⊢
      rw [hc, withoutMark, if_neg hmark]

-- A document of assignments is read back field by field.
theorem parse_flatMap_line (hreads : ∀ a ∈ written, Reads a.text a.value)
    (hdistinct : written.Pairwise fun a b => a.key ≠ b.key) :
    parse (String.ofList (written.flatMap Assignment.line)) =
      some (written.map Assignment.field) := by
  have hlength := length_le_flatMap_line written
  rw [parse, String.toList_ofList, withoutMark_flatMap_line]
  exact lines_assignments (by omega) hreads (by simp) hdistinct

def stringFields (entries : List (String × String)) : Fields :=
  entries.map fun entry => (entry.1, .string entry.2)

-- The line of a string.
def Assignment.ofString (entry : String × String) : Assignment :=
  { key := entry.1, text := quoted entry.2.toList, value := .string entry.2 }

theorem reads_ofString (entry : String × String) :
    Reads (Assignment.ofString entry).text (Assignment.ofString entry).value := by
  have hreads := reads_quoted entry.2.toList
  rwa [String.ofList_toList] at hreads

theorem parse_stringTable (h : entries.Pairwise fun a b => a.1 ≠ b.1) :
    parse (stringTable entries) = some (stringFields entries) := by
  have hlines : stringTable entries =
      String.ofList ((entries.map Assignment.ofString).flatMap Assignment.line) := by
    rw [List.flatMap_map]
    rfl
  rw [hlines, parse_flatMap_line]
  · rw [List.map_map]
    rfl
  · exact List.forall_mem_map.mpr fun entry _ => reads_ofString entry
  · exact List.pairwise_map.mpr h

private theorem mapM_string? (entries : List (String × String)) :
    (stringFields entries).mapM (fun (key, v) => v.string?.map (key, ·)) = some entries := by
  induction entries with
  | nil => rfl
  | cons entry rest ih =>
      rw [stringFields, List.map_cons, List.mapM_cons, ← stringFields, ih]
      rfl

-- Whatever the keys and the values are, the table that was written is the table that is read.
theorem table?_stringTable (h : Store.Ordered entries) :
    Store.table? (stringTable entries) = some entries := by
  rw [Store.table?, parse_stringTable h.distinct]
  simp only [Option.bind_eq_bind, Option.bind_some]
  rw [mapM_string?, Option.bind_some, Store.ofList_eq h]

end Tables

end PageLocalizer.Toml
