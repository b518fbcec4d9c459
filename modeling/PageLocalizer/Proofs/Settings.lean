import PageLocalizer.Proofs.Lookups
import PageLocalizer.Settings

-- Settings and update records are read back as they were written.
namespace PageLocalizer

namespace Toml

open PageLocalizer.Toml.Parser (lines line key keyUpTo skipSpaces Progress)

variable {name : String} {document inner : Fields} {current : List String}
  {written : List Assignment}

section Headers

-- The line that starts a table.
def header (name : String) : List Char := '[' :: name.toList ++ [']', '\n']

-- A name that needs no quotes.
def IsBare (name : String) : Prop := name.toList ≠ [] ∧ name.toList.all isBareChar = true

private theorem key_header (h : IsBare name) (rest : List Char) :
    key (name.toList ++ ']' :: rest) = some (([], name), ']' :: rest) := by
  have hskip : skipSpaces (name.toList ++ ']' :: rest) = name.toList ++ ']' :: rest := by
    obtain ⟨c, cs, hcs⟩ := List.exists_cons_of_ne_nil h.1
    have hc : isBareChar c = true := List.all_eq_true.mp h.2 c (by simp [hcs])
    have hspace : Parser.isSpace c = false := by
      have hblank : c ≠ ' ' ∧ c ≠ '\t' :=
        ⟨ne_of_isBareChar hc (by decide), ne_of_isBareChar hc (by decide)⟩
      simp [Parser.isSpace, hblank]
    rw [hcs, List.cons_append, skipSpaces, List.dropWhile_cons_of_neg (by simp [hspace])]
  rw [key, Parser.keyLimit, keyUpTo, hskip, simpleKey_bare h.1 h.2 (by decide)]
  simp [skipSpaces, Parser.isSpace]

private theorem line_header (h : IsBare name) (rest : List Char) :
    line (header name ++ rest) = some (.header [] name, '\n' :: rest) := by
  obtain ⟨c, cs, hcs⟩ := List.exists_cons_of_ne_nil h.1
  have hc : c ≠ '[' :=
    ne_of_isBareChar (List.all_eq_true.mp h.2 c (by simp [hcs])) (by decide)
  have hkey := key_header h ('\n' :: rest)
  have hskip : skipSpaces (header name ++ rest) = '[' :: (name.toList ++ ']' :: '\n' :: rest) := by
    simp [header, skipSpaces, Parser.isSpace]
  rw [line, hskip]
  rw [hcs] at hkey ⊢
  split
  · next heq => exact absurd (List.cons.inj (List.cons.inj heq).2).1 hc
  · next heq =>
      obtain ⟨-, rfl⟩ := List.cons.inj heq
      rw [hkey]
      rfl
  · next heq => simp at heq
  · next hbracket _ _ heq => exact absurd (List.cons.inj heq).1.symm (by simp_all)

private theorem withoutMark_header (name : String) (rest : List Char) :
    withoutMark (header name ++ rest) = header name ++ rest := by
  rw [header, List.cons_append, List.cons_append, withoutMark, if_neg (by decide)]

private theorem add_header (h : document.lookup name = none) (current : List String) :
    Progress.add ⟨document, current⟩ (.header [] name) =
      some ⟨document ++ [(name, .table .header [])], [name]⟩ := by
  simp [Progress.add, Parser.modifyAt, Parser.startTable, h, set_eq_append h]

private theorem set_last (h : document.lookup name = none) (old new : Value) :
    (document ++ [(name, old)]).set name new = document ++ [(name, new)] := by
  induction document with
  | nil => simp [Fields.set]
  | cons first rest ih =>
      obtain ⟨hne, hrest⟩ := lookup_cons_eq_none h
      rw [List.cons_append, Fields.set, if_neg hne, ih hrest, List.cons_append]

-- An assignment of a new key in the table that was started last.
private theorem add_assignment_last {k : String} (h : document.lookup name = none)
    (hk : inner.lookup k = none) (value : Value) :
    Progress.add ⟨document ++ [(name, .table .header inner)], [name]⟩ (.assignment [] k value) =
      some ⟨document ++ [(name, .table .header (inner ++ [(k, value)]))], [name]⟩ := by
  have hassign : Parser.assign [] k value .header inner = some (inner ++ [(k, value)]) := by
    have hheader : (Origin.header == Origin.dotted) = false := rfl
    simp [Parser.assign, Parser.modifyAt, hheader, hk, set_eq_append hk]
  have hfound : (document ++ [(name, Value.table .header inner)]).lookup name =
      some (.table .header inner) := by
    simp [List.lookup_append, h]
  simp [Progress.add, Parser.modifyAt, hfound, hassign, set_last h]

-- The lines of the table that was started last.
private theorem lines_fields (n : Nat) (h : document.lookup name = none)
    (hreads : ∀ a ∈ written, Reads a.text a.value) (hnew : ∀ a ∈ written, inner.lookup a.key = none)
    (hdistinct : written.Pairwise fun a b => a.key ≠ b.key) (rest : List Char) :
    lines (n + written.length) ⟨document ++ [(name, .table .header inner)], [name]⟩
        (written.flatMap Assignment.line ++ rest) =
      lines n ⟨document ++ [(name, .table .header (inner ++ written.map Assignment.field))], [name]⟩
        rest := by
  induction written generalizing inner with
  | nil => simp
  | cons a others ih =>
      obtain ⟨hfirst, hothers⟩ := List.pairwise_cons.mp hdistinct
      obtain ⟨hread, hreads⟩ := List.forall_mem_cons.mp hreads
      obtain ⟨hk, hnew⟩ := List.forall_mem_cons.mp hnew
      have hnext := lookup_append_field hfirst hnew
      have hline := line_assignment hread a.key (others.flatMap Assignment.line ++ rest)
      have hstep := lines_of_line hline (add_assignment_last h hk a.value) (n + others.length)
      have hrest := ih hreads hnext hothers
      rw [List.append_assoc] at hrest
      rw [List.length_cons, ← Nat.add_assoc, List.flatMap_cons, List.append_assoc]
      exact hstep.trans hrest

-- A whole table under its header.
theorem lines_table (n : Nat) (hbare : IsBare name) (h : document.lookup name = none)
    (hreads : ∀ a ∈ written, Reads a.text a.value)
    (hdistinct : written.Pairwise fun a b => a.key ≠ b.key) (current : List String)
    (rest : List Char) :
    lines (n + written.length + 1) ⟨document, current⟩
        (header name ++ (written.flatMap Assignment.line ++ rest)) =
      lines n ⟨document ++ [(name, .table .header (written.map Assignment.field))], [name]⟩
        rest := by
  have hstart := lines_of_line (line_header hbare (written.flatMap Assignment.line ++ rest))
    (add_header h current) (n + written.length)
  exact hstart.trans (lines_fields n h hreads (by simp) hdistinct rest)

private theorem lines_blank (n : Nat) (p : Progress) (rest : List Char) :
    lines (n + 1) p ('\n' :: rest) = lines n p rest :=
  lines_of_line (l := .blank) (by simp [line, skipSpaces, Parser.isSpace]) rfl n

-- Two tables with a blank line between them are a whole document.
private theorem lines_tables {first second : String} {a b : List Assignment} {n : Nat}
    (hn : a.length + b.length + 4 ≤ n) (hfirst : IsBare first) (hsecond : IsBare second)
    (hne : second ≠ first) (ha : ∀ x ∈ a, Reads x.text x.value)
    (hb : ∀ x ∈ b, Reads x.text x.value) (hda : a.Pairwise fun x y => x.key ≠ y.key)
    (hdb : b.Pairwise fun x y => x.key ≠ y.key) :
    lines n ⟨[], []⟩ (header first ++ (a.flatMap Assignment.line ++
        '\n' :: (header second ++ (b.flatMap Assignment.line ++ [])))) =
      some [(first, .table .header (a.map Assignment.field)),
        (second, .table .header (b.map Assignment.field))] := by
  obtain ⟨m, rfl⟩ : ∃ m, n = m + 1 + b.length + 1 + 1 + a.length + 1 :=
    ⟨n - (a.length + b.length + 4), by omega⟩
  have hnew : ([] ++ [(first, Value.table .header (a.map Assignment.field))]).lookup second =
      none := by
    have hb : (second == first) = false := by simpa using hne
    simp [List.lookup_cons, hb]
  rw [lines_table _ hfirst rfl ha hda, lines_blank, lines_table _ hsecond hnew hb hdb, lines_nil]
  rfl

end Headers

section Booleans

private theorem reads_boolean (b : Bool) : Reads (Settings.booleanText b) (.boolean b) := by
  intro depth rest
  have hscalar : Parser.scalar (Settings.booleanText b ++ '\n' :: rest) =
      some (.boolean b, '\n' :: rest) := by
    cases b <;> rfl
  cases b with
  | true =>
      rw [show skipSpaces (' ' :: (Settings.booleanText true ++ '\n' :: rest)) =
        't' :: 'r' :: 'u' :: 'e' :: '\n' :: rest from rfl, Parser.value]
      · exact hscalar
      all_goals simp
  | false =>
      rw [show skipSpaces (' ' :: (Settings.booleanText false ++ '\n' :: rest)) =
        'f' :: 'a' :: 'l' :: 's' :: 'e' :: '\n' :: rest from rfl, Parser.value]
      · exact hscalar
      all_goals simp

-- The line of a truth value.
def Assignment.ofBoolean (k : String) (b : Bool) : Assignment :=
  { key := k, text := Settings.booleanText b, value := .boolean b }

private theorem reads_ofBoolean (k : String) (b : Bool) :
    Reads (Assignment.ofBoolean k b).text (Assignment.ofBoolean k b).value := reads_boolean b

end Booleans

end Toml

namespace Settings

open PageLocalizer.Toml

variable {s : Settings} {file saved : FileState}

-- The lines of the first table. A language that is missing has none.
def writtenGeneral (s : Settings) : List Assignment :=
  (s.language.map fun language => Assignment.ofString ("language", language)).toList

def writtenEngine (e : EngineSettings) : List Assignment :=
  [.ofString ("storage_key", e.storageKey), .ofString ("locale_attribute", e.localeAttribute),
    .ofBoolean "observe_mutations" e.observeMutations]

theorem text_eq (s : Settings) : s.text = String.ofList
    (header "general" ++ (s.writtenGeneral.flatMap Assignment.line ++
      '\n' :: (header "engine" ++ ((writtenEngine s.engine).flatMap Assignment.line ++ [])))) := by
  have hlayout : s.text = String.ofList ("[general]\n".toList ++
      s.writtenGeneral.flatMap Assignment.line ++ "\n[engine]\n".toList ++
        (Assignment.ofString ("storage_key", s.engine.storageKey)).line ++
          (Assignment.ofString ("locale_attribute", s.engine.localeAttribute)).line ++
            (Assignment.ofBoolean "observe_mutations" s.engine.observeMutations).line) := by
    obtain ⟨language, engine⟩ := s
    cases language with
    | none => rfl
    | some language =>
        rw [show writtenGeneral ⟨some language, engine⟩ =
          [Assignment.ofString ("language", language)] from rfl, List.flatMap_singleton]
        rfl
  have hgeneral : "[general]\n".toList = header "general" := by decide
  have hengine : "\n[engine]\n".toList = '\n' :: header "engine" := by decide
  rw [hlayout, hgeneral, hengine]
  simp only [writtenEngine, List.flatMap_cons, List.flatMap_nil, List.append_assoc,
    List.append_nil, List.cons_append]

-- The tables of a settings file.
private theorem toml_text (s : Settings) : Toml.parse s.text =
    some [("general", .table .header (s.writtenGeneral.map Assignment.field)),
      ("engine", .table .header ((writtenEngine s.engine).map Assignment.field))] := by
  have hgeneral : ∀ a ∈ s.writtenGeneral, Reads a.text a.value := by
    intro a ha
    obtain ⟨language, -, rfl⟩ := Option.map_eq_some_iff.mp (Option.mem_toList.mp ha)
    exact reads_ofString _
  have hengine : ∀ a ∈ writtenEngine s.engine, Reads a.text a.value := by
    simp [writtenEngine, reads_ofString, reads_ofBoolean]
  have hdistinct : s.writtenGeneral.Pairwise fun a b => a.key ≠ b.key := by
    unfold writtenGeneral
    cases s.language <;> simp
  have hfirst := length_le_flatMap_line s.writtenGeneral
  have hsecond := length_le_flatMap_line (writtenEngine s.engine)
  rw [text_eq, Toml.parse, String.toList_ofList]
  -- There are at least as many rounds as characters, and each line takes only one.
  refine lines_tables ?_ ⟨by decide, by decide⟩ ⟨by decide, by decide⟩ (by decide) hgeneral hengine
    hdistinct (by simp [writtenEngine, Assignment.ofString, Assignment.ofBoolean])
  rw [withoutMark_header]
  simp only [List.length_append, List.length_cons, header]
  omega

theorem parse_text (s : Settings) : parse s.text = some s := by
  obtain ⟨language, engine⟩ := s
  rw [parse, toml_text]
  cases language <;> simp [writtenGeneral, writtenEngine, readGeneral, readEngine,
    Assignment.field, Assignment.ofString, Assignment.ofBoolean, parts?, part, allReadable,
    Value.string?, Value.boolean?, List.lookup_cons]

-- Settings are written wherever a file can stand, and read back from there.
private theorem load_save (h : s.save file = .ok saved) : load saved = .ok s := by
  have hsaved : saved = .text s.text := by
    cases file <;> simp_all [save]
  rw [hsaved, load, parse_text]

theorem save_eq_ok_iff : (∃ saved, s.save file = .ok saved) ↔ Store.Writable file := by
  cases file <;> simp [save, Store.Writable]

end Settings

section Records

variable {c : UpdateCheck} {store : Store} {r : UpdateRecord}

-- Writes under other keys, one after the other.
private theorem record_sets (h : store.Working) (hrecord : c.record store = r)
    {writes : List (String × String)} (hwrites : ∀ write ∈ writes, write.1 ≠ c.key) :
    ∃ later, writes.foldlM (fun s write => s.set write.1 write.2) store = .ok later ∧
      later.Working ∧ c.record later = r := by
  induction writes generalizing store with
  | nil => exact ⟨store, rfl, h, hrecord⟩
  | cons write writes ih =>
      obtain ⟨hne, hwrites⟩ := List.forall_mem_cons.mp hwrites
      obtain ⟨next, hset, hnext, hsame⟩ := UpdateCheck.record_set (c := c) h hne write.2
      obtain ⟨later, hlater, hworking, hread⟩ := ih hnext (hsame.trans hrecord) hwrites
      refine ⟨later, ?_, hworking, hread⟩
      rw [List.foldlM_cons, hset]
      exact hlater

-- Settings are read back as they were saved, and they can be saved wherever a file can stand. A
-- release is kept by every store that works, in memory or in a file of strings, and is read back
-- until its key is written again.
theorem kept_reads_back :
    (∀ (s : Settings) (file saved : FileState), s.save file = .ok saved →
      Settings.load saved = .ok s) ∧
    (∀ (s : Settings) (file : FileState),
      (∃ saved, s.save file = .ok saved) ↔ Store.Writable file) ∧
    (∀ entries, (Store.memory entries).Working) ∧
    (∀ file, Store.Writable file → (Store.file file).Working) ∧
    ∀ (c : UpdateCheck) (store : Store) (tag : String) (now : Instant), store.Working →
      IsInt64 now.seconds → ∃ r store', c.recordRelease store tag now = .ok (r, store') ∧
        r = ⟨UpdateCheck.versionOf tag, now.seconds⟩ ∧
        ∀ writes : List (String × String), (∀ write ∈ writes, write.1 ≠ c.key) →
          ∃ later, writes.foldlM (fun s write => s.set write.1 write.2) store' = .ok later ∧
            c.record later = r := by
  refine ⟨fun _ _ _ => Settings.load_save, fun _ _ => Settings.save_eq_ok_iff,
    fun entries => (Store.dependable_memory entries).working, fun _ => Store.working_file,
    fun c store tag now hstore hnow => ?_⟩
  obtain ⟨store', hkeep, hstore', hrecord⟩ :=
    UpdateCheck.record_recordRelease (c := c) hstore hnow tag
  refine ⟨_, store', hkeep, rfl, fun writes hwrites => ?_⟩
  obtain ⟨later, hlater, -, hread⟩ := record_sets hstore' hrecord hwrites
  exact ⟨later, hlater, hread⟩

-- A version and settings with quotes of both kinds, backslashes and line ends, where the file of
-- preferences is no table at first.
theorem kept_reads_back_awkward :
    let s : Settings := ⟨some "say \"it's\"\r\n", ⟨"\\'''", "\"\"\"", false⟩⟩
    (∃ saved, s.save (.binary [0xFF]) = .ok saved ∧ Settings.load saved = .ok s) ∧
      ∃ r store', UpdateCheck.standard.recordRelease (.file (.text "[")) " v1\n'''\"\"\"\\ "
          ⟨-1, 5⟩ = .ok (r, store') ∧ r = ⟨some "1\n'''\"\"\"\\", -1⟩ ∧
        ∃ later, store'.set "dashboard-locale" "zh" = .ok later ∧
          UpdateCheck.standard.record later = r := by
  intro s
  obtain ⟨hload, hsave, -, hfile, hrelease⟩ := kept_reads_back
  obtain ⟨saved, hsaved⟩ := (hsave s (.binary [0xFF])).mpr (by simp [Store.Writable])
  obtain ⟨r, store', hkeep, hr, hlater⟩ := hrelease UpdateCheck.standard (.file (.text "["))
    " v1\n'''\"\"\"\\ " ⟨-1, 5⟩ (hfile _ (by simp [Store.Writable])) ⟨by decide, by decide⟩
  obtain ⟨later, hset, hread⟩ := hlater [("dashboard-locale", "zh")] (by decide)
  refine ⟨⟨saved, hsaved, hload _ _ _ hsaved⟩, r, store', hkeep, hr.trans (by decide), later, ?_,
    hread⟩
  simpa using hset

end Records

end PageLocalizer
