import Mathlib.Algebra.Group.Nat.Defs
import PageLocalizer.Version

-- The order of version strings is that of lists of numbers: a run of digits counts by its value,
-- however long it is and however many zeros it starts with.
namespace PageLocalizer.Version

def value (digits : List Char) : Nat := Nat.ofDigitChars 10 digits 0

-- The string with the value in place of every maximal run of digits.
def plain : List Char → List Char
  | [] => []
  | c :: cs =>
    if c.isDigit then
      Nat.toDigits 10 (value (c :: cs.takeWhile Char.isDigit)) ++ plain (cs.dropWhile Char.isDigit)
    else c :: plain cs
termination_by cs => cs.length
decreasing_by
  · have := (List.dropWhile_suffix (l := cs) Char.isDigit).length_le
    simp only [List.length_cons]
    omega
  · simp

-- A number that may have more zeros in front of it than it needs.
structure Padded where
  zeros : Nat
  number : Nat

def Padded.written (n : Padded) : String :=
  String.ofList (List.replicate n.zeros '0') ++ toString n.number

def dotted (ns : List Padded) : String := ".".intercalate (ns.map Padded.written)

-- An order of strings that reads the numbers in them.
structure ByValue (cmp : String → String → Ordering) : Prop where
  swap : ∀ a b, cmp b a = (cmp a b).swap
  trans : ∀ a b c, (cmp a b).isLE = true → (cmp b c).isLE = true → (cmp a c).isLE = true
  eq_iff : ∀ a b, cmp a b = .eq ↔ plain a.toList = plain b.toList
  dotted : ∀ ms ns, cmp (dotted ms) (dotted ns) =
    compare (ms.map Padded.number) (ns.map Padded.number)

variable {a b : Char} {as bs cs run rest : List Char}

section Digits

theorem toNat_of_isDigit (h : a.isDigit = true) : 48 ≤ a.toNat ∧ a.toNat ≤ 57 :=
  Char.isDigit_iff_toNat.mp h

theorem value_cons (a : Char) (as : List Char) :
    value (a :: as) = 10 ^ as.length * (a.toNat - 48) + value as := by
  unfold value
  rw [Nat.ofDigitChars_cons, Nat.ofDigitChars_eq_ofDigitChars_zero]
  simp

theorem value_lt (h : ∀ c ∈ as, c.isDigit = true) : value as < 10 ^ as.length := by
  induction as with
  | nil => simp [value]
  | cons a as ih =>
      have hdigit := toNat_of_isDigit (h a List.mem_cons_self)
      have hrest := ih fun c hc => h c (List.mem_cons_of_mem a hc)
      rw [value_cons, List.length_cons, Nat.pow_succ]
      have hle : 10 ^ as.length * (a.toNat - 48) ≤ 10 ^ as.length * 9 :=
        Nat.mul_le_mul_left _ (by omega)
      omega

theorem value_significant (as : List Char) : value (significant as) = value as := by
  unfold significant
  induction as with
  | nil => rfl
  | cons a as ih =>
      by_cases ha : a = '0'
      · rw [List.dropWhile_cons_of_pos (by simp [ha]), ih, value_cons, ha]
        simp
      · rw [List.dropWhile_cons_of_neg (by simp [ha])]

theorem isDigit_significant (h : ∀ c ∈ as, c.isDigit = true) :
    ∀ c ∈ significant as, c.isDigit = true :=
  fun c hc => h c ((List.dropWhile_suffix _).subset hc)

theorem value_lt_value (has : ∀ c ∈ as, c.isDigit = true) (ha : a.isDigit = true)
    (hlen : as.length = bs.length) (hlt : a.toNat < b.toNat) :
    value (a :: as) < value (b :: bs) := by
  have hdigit := toNat_of_isDigit ha
  have hrest := value_lt has
  have hle : 10 ^ bs.length * (a.toNat - 48 + 1) ≤ 10 ^ bs.length * (b.toNat - 48) :=
    Nat.mul_le_mul_left _ (by omega)
  rw [hlen] at hrest
  rw [value_cons, value_cons, hlen]
  rw [Nat.mul_succ] at hle
  omega

-- Texts of digits of one length compare by value.
private theorem compareText_of_length (has : ∀ c ∈ as, c.isDigit = true)
    (hbs : ∀ c ∈ bs, c.isDigit = true) (hlen : as.length = bs.length) :
    compareText as bs = compare (value as) (value bs) := by
  induction as generalizing bs with
  | nil =>
      obtain rfl := List.length_eq_zero_iff.mp hlen.symm
      simp [compareText]
  | cons a as ih =>
      cases bs with
      | nil => simp at hlen
      | cons b bs =>
          obtain ⟨ha, has'⟩ := List.forall_mem_cons.mp has
          obtain ⟨hb, hbs'⟩ := List.forall_mem_cons.mp hbs
          rw [List.length_cons, List.length_cons, Nat.add_right_cancel_iff] at hlen
          rw [compareText]
          rcases Nat.lt_trichotomy a.toNat b.toNat with hlt | heq | hgt
          · rw [Nat.compare_eq_lt.mpr hlt, Nat.compare_eq_lt.mpr (value_lt_value has' ha hlen hlt)]
            rfl
          · obtain rfl := Char.toNat_inj.mp heq
            rw [ih has' hbs' hlen, value_cons, value_cons, hlen]
            simp [compare, compareOfLessAndEq]
          · rw [Nat.compare_eq_gt.mpr hgt,
              Nat.compare_eq_gt.mpr (value_lt_value hbs' hb hlen.symm hgt)]
            rfl

private theorem head_significant (h : significant as = a :: rest) : a ≠ '0' := by
  rintro rfl
  have hhead := List.head?_dropWhile_not (· == '0') as
  unfold significant at h
  simp [h] at hhead

private theorem le_value_significant (h : ∀ c ∈ as, c.isDigit = true) (hne : significant as ≠ []) :
    10 ^ ((significant as).length - 1) ≤ value as := by
  rw [← value_significant]
  have hdigits := isDigit_significant h
  cases hs : significant as with
  | nil => exact absurd hs hne
  | cons a rest =>
      rw [hs] at hdigits
      have hdigit := toNat_of_isDigit (hdigits a List.mem_cons_self)
      have hzero : a.toNat ≠ 48 := fun he => head_significant hs (Char.toNat_inj.mp he)
      have hle : 10 ^ rest.length * 1 ≤ 10 ^ rest.length * (a.toNat - 48) :=
        Nat.mul_le_mul_left _ (by omega)
      rw [value_cons, List.length_cons, Nat.add_sub_cancel]
      omega

-- Without zeros at the front, more digits make a greater number.
theorem value_lt_of_length (has : ∀ c ∈ as, c.isDigit = true) (hbs : ∀ c ∈ bs, c.isDigit = true)
    (hlt : (significant as).length < (significant bs).length) : value as < value bs := by
  have hne : significant bs ≠ [] := List.ne_nil_of_length_pos (by omega)
  calc value as = value (significant as) := (value_significant as).symm
    _ < 10 ^ (significant as).length := value_lt (isDigit_significant has)
    _ ≤ 10 ^ ((significant bs).length - 1) := Nat.pow_le_pow_right (by omega) (by omega)
    _ ≤ value bs := le_value_significant hbs hne

private theorem compare_number (has : ∀ c ∈ as, c.isDigit = true)
    (hbs : ∀ c ∈ bs, c.isDigit = true) :
    Chunk.compare (.number as) (.number bs) = compare (value as) (value bs) := by
  rw [Chunk.compare]
  rcases Nat.lt_trichotomy (significant as).length (significant bs).length with hlt | heq | hgt
  · rw [Nat.compare_eq_lt.mpr hlt, Nat.compare_eq_lt.mpr (value_lt_of_length has hbs hlt)]
    rfl
  · rw [Nat.compare_eq_eq.mpr heq, Ordering.eq_then,
      compareText_of_length (isDigit_significant has) (isDigit_significant hbs) heq,
      value_significant, value_significant]
  · rw [Nat.compare_eq_gt.mpr hgt, Nat.compare_eq_gt.mpr (value_lt_of_length hbs has hgt)]
    rfl

end Digits

section Runs

-- Whether a run does not go on with what follows it.
def Ends (digits : Bool) (rest : List Char) : Prop := rest.head?.map Char.isDigit ≠ some digits

def Chunk.ofRun (digits : Bool) (run : List Char) : Chunk :=
  if digits then .number run else .text run

theorem takeWhile_append {digits : Bool} (hrun : ∀ c ∈ run, c.isDigit = digits)
    (hends : Ends digits rest) : (run ++ rest).takeWhile (·.isDigit == digits) = run ∧
      (run ++ rest).dropWhile (·.isDigit == digits) = rest := by
  have hall : ∀ c ∈ run, (c.isDigit == digits) = true := by simpa using hrun
  rw [List.takeWhile_append_of_pos hall, List.dropWhile_append_of_pos hall]
  cases rest with
  | nil => simp
  | cons c rest =>
      rw [List.takeWhile_cons_of_neg (by simpa [Ends] using hends),
        List.dropWhile_cons_of_neg (by simpa [Ends] using hends), List.append_nil]
      exact ⟨rfl, rfl⟩

private theorem ends_dropWhile (digits : Bool) (cs : List Char) :
    Ends digits (cs.dropWhile (·.isDigit == digits)) := by
  have hhead := List.head?_dropWhile_not (·.isDigit == digits) cs
  unfold Ends
  cases h : (cs.dropWhile (·.isDigit == digits)).head? with
  | none => simp
  | some c => simpa [h] using hhead

-- A string is made of runs.
theorem runs_induction {motive : List Char → Prop} (nil : motive [])
    (append : ∀ digits run rest, run ≠ [] → (∀ c ∈ run, c.isDigit = digits) → Ends digits rest →
      motive rest → motive (run ++ rest)) (cs : List Char) : motive cs := by
  fun_induction chunks cs with
  | case1 => exact nil
  | case2 c cs same run ih =>
      have hcs : c :: cs = run ++ cs.dropWhile same := by simp [run]
      rw [hcs]
      refine append c.isDigit run _ (List.cons_ne_nil _ _) ?_ (ends_dropWhile _ cs) ih
      refine List.forall_mem_cons.mpr ⟨rfl, fun d hd => ?_⟩
      simpa [same] using List.all_eq_true.mp List.all_takeWhile d hd

theorem chunks_append {digits : Bool} (hne : run ≠ []) (hrun : ∀ c ∈ run, c.isDigit = digits)
    (hends : Ends digits rest) :
    chunks (run ++ rest) = Chunk.ofRun digits run :: chunks rest := by
  obtain ⟨c, run, rfl⟩ := List.exists_cons_of_ne_nil hne
  obtain ⟨rfl, hrun⟩ := List.forall_mem_cons.mp hrun
  obtain ⟨htake, hdrop⟩ := takeWhile_append hrun hends
  rw [List.cons_append, chunks]
  simp only [htake, hdrop]
  rfl

end Runs

section Keys

-- What a chunk is compared by. The first number of a text is its first character, which is no
-- digit, and all numbers are where the digits are among the characters.
def Chunk.key : Chunk → List Nat
  | .number digits => ['0'.toNat, value digits]
  | .text chars => chars.map Char.toNat

def key (cs : List Char) : List (List Nat) := (chunks cs).map Chunk.key

def Chunk.Proper : Chunk → Prop
  | .number digits => digits ≠ [] ∧ ∀ c ∈ digits, c.isDigit = true
  | .text chars => chars ≠ [] ∧ ∀ c ∈ chars, c.isDigit = false

private theorem compareText_eq (as bs : List Char) :
    compareText as bs = compare (as.map Char.toNat) (bs.map Char.toNat) := by
  induction as generalizing bs with
  | nil => cases bs <;> rfl
  | cons a as ih =>
      cases bs with
      | nil => rfl
      | cons b bs => rw [compareText, ih, List.map_cons, List.map_cons, List.compare_cons_cons]

-- Digits are all on the same side of another character, and the comparison ends there.
theorem compare_then_of_isDigit (ha : a.isDigit = true) (hb : b.isDigit = false)
    (o o' : Ordering) :
    (compare a.toNat b.toNat).then o = (compare '0'.toNat b.toNat).then o' ∧
      (compare b.toNat a.toNat).then o = (compare b.toNat '0'.toNat).then o' := by
  have hdigit := toNat_of_isDigit ha
  have hother : ¬(48 ≤ b.toNat ∧ b.toNat ≤ 57) := fun h => by
    simp [Char.isDigit_iff_toNat.mpr h] at hb
  have hzero : '0'.toNat = 48 := rfl
  rcases Nat.lt_or_ge b.toNat 48 with hlt | hge
  · rw [Nat.compare_eq_gt.mpr (by omega : b.toNat < a.toNat),
      Nat.compare_eq_gt.mpr (by omega : b.toNat < '0'.toNat),
      Nat.compare_eq_lt.mpr (by omega : b.toNat < a.toNat),
      Nat.compare_eq_lt.mpr (by omega : b.toNat < '0'.toNat)]
    exact ⟨rfl, rfl⟩
  · rw [Nat.compare_eq_lt.mpr (by omega : a.toNat < b.toNat),
      Nat.compare_eq_lt.mpr (by omega : '0'.toNat < b.toNat),
      Nat.compare_eq_gt.mpr (by omega : a.toNat < b.toNat),
      Nat.compare_eq_gt.mpr (by omega : '0'.toNat < b.toNat)]
    exact ⟨rfl, rfl⟩

theorem Chunk.compare_eq {p q : Chunk} (hp : p.Proper) (hq : q.Proper) :
    p.compare q = Ord.compare p.key q.key := by
  cases p with
  | number as =>
      obtain ⟨a, as, rfl⟩ := List.exists_cons_of_ne_nil hp.1
      cases q with
      | number bs =>
          rw [compare_number hp.2 hq.2]
          simp [Chunk.key, List.compare_cons_cons]
      | text bs =>
          obtain ⟨b, bs, rfl⟩ := List.exists_cons_of_ne_nil hq.1
          have ha := hp.2 a List.mem_cons_self
          have hb := hq.2 b List.mem_cons_self
          rw [Chunk.key, Chunk.key, List.map_cons, List.compare_cons_cons]
          exact (compare_then_of_isDigit ha hb _ _).1
  | text as =>
      obtain ⟨a, as, rfl⟩ := List.exists_cons_of_ne_nil hp.1
      cases q with
      | number bs =>
          obtain ⟨b, bs, rfl⟩ := List.exists_cons_of_ne_nil hq.1
          have ha := hp.2 a List.mem_cons_self
          have hb := hq.2 b List.mem_cons_self
          rw [Chunk.key, Chunk.key, List.map_cons, List.compare_cons_cons]
          exact (compare_then_of_isDigit hb ha _ _).2
      | text bs => exact compareText_eq (a :: as) bs

theorem proper_chunks (cs : List Char) : ∀ p ∈ chunks cs, p.Proper := by
  induction cs using runs_induction with
  | nil => simp [chunks]
  | append digits run rest hne hrun hends ih =>
      rw [chunks_append hne hrun hends]
      refine List.forall_mem_cons.mpr ⟨?_, ih⟩
      cases digits with
      | true => exact ⟨hne, hrun⟩
      | false => exact ⟨hne, hrun⟩

private theorem compareChunks_eq {ps qs : List Chunk} (hp : ∀ p ∈ ps, p.Proper)
    (hq : ∀ q ∈ qs, q.Proper) :
    compareChunks ps qs = compare (ps.map Chunk.key) (qs.map Chunk.key) := by
  induction ps generalizing qs with
  | nil => cases qs <;> rfl
  | cons p ps ih =>
      cases qs with
      | nil => rfl
      | cons q qs =>
          obtain ⟨hp, hps⟩ := List.forall_mem_cons.mp hp
          obtain ⟨hq, hqs⟩ := List.forall_mem_cons.mp hq
          calc compareChunks (p :: ps) (q :: qs)
            _ = (p.compare q).then (compareChunks ps qs) := by rw [compareChunks]
            _ = (compare p.key q.key).then (compare (ps.map Chunk.key) (qs.map Chunk.key)) := by
                rw [Chunk.compare_eq hp hq, ih hps hqs]
            _ = compare ((p :: ps).map Chunk.key) ((q :: qs).map Chunk.key) := by
                rw [List.map_cons, List.map_cons, List.compare_cons_cons]

-- Versions compare by the keys of their chunks, one after the other.
theorem compareVersions_eq (a b : String) :
    compareVersions a b = compare (key a.toList) (key b.toList) :=
  compareChunks_eq (proper_chunks _) (proper_chunks _)

end Keys

section Plain

-- How a chunk stands in the plain form.
def Chunk.plain : Chunk → List Char
  | .number digits => Nat.toDigits 10 (value digits)
  | .text chars => chars

-- The plain form of a chunk is told by its key.
def spell : List Nat → List Char
  | [48, n] => Nat.toDigits 10 n
  | codes => codes.map Char.ofNat

theorem plain_append {digits : Bool} (hne : run ≠ []) (hrun : ∀ c ∈ run, c.isDigit = digits)
    (hends : Ends digits rest) :
    plain (run ++ rest) = (Chunk.ofRun digits run).plain ++ plain rest := by
  cases digits with
  | true =>
      obtain ⟨c, run, rfl⟩ := List.exists_cons_of_ne_nil hne
      obtain ⟨hc, hrun⟩ := List.forall_mem_cons.mp hrun
      obtain ⟨htake, hdrop⟩ := takeWhile_append hrun hends
      simp only [beq_true] at htake hdrop
      rw [List.cons_append, plain, if_pos hc, htake, hdrop]
      rfl
  | false =>
      clear hne hends
      induction run with
      | nil => rfl
      | cons c run ih =>
          obtain ⟨hc, hrun⟩ := List.forall_mem_cons.mp hrun
          rw [List.cons_append, plain, if_neg (by simp [hc]), ih hrun]
          rfl

private theorem head_plain (cs : List Char) :
    (plain cs).head?.map Char.isDigit = cs.head?.map Char.isDigit := by
  cases cs with
  | nil => simp [plain]
  | cons c cs =>
      rw [plain]
      by_cases hc : c.isDigit = true
      · obtain ⟨d, ds, hd⟩ := List.exists_cons_of_ne_nil
          (Nat.toDigits_ne_nil (b := 10) (n := value (c :: cs.takeWhile Char.isDigit)))
        have hdigit : d.isDigit = true :=
          Nat.isDigit_of_mem_toDigits (by decide) (by decide) (hd ▸ List.mem_cons_self)
        simp [hc, hd, hdigit]
      · simp [hc]

private theorem plain_ofRun {digits : Bool} (hne : run ≠ [])
    (hrun : ∀ c ∈ run, c.isDigit = digits) :
    (Chunk.ofRun digits run).plain ≠ [] ∧
      (∀ c ∈ (Chunk.ofRun digits run).plain, c.isDigit = digits) ∧
      (Chunk.ofRun digits (Chunk.ofRun digits run).plain).key = (Chunk.ofRun digits run).key := by
  cases digits with
  | true =>
      refine ⟨Nat.toDigits_ne_nil, ?_, ?_⟩
      · exact fun c hc => Nat.isDigit_of_mem_toDigits (by decide) (by decide) hc
      · simp [Chunk.ofRun, Chunk.plain, Chunk.key, value, Nat.ofDigitChars_ten_toDigits]
  | false => exact ⟨hne, hrun, rfl⟩

theorem key_plain (cs : List Char) : key (plain cs) = key cs := by
  unfold key
  induction cs using runs_induction with
  | nil => simp [plain]
  | append digits run rest hne hrun hends ih =>
      obtain ⟨hne', hrun', hkey⟩ := plain_ofRun hne hrun
      have hends' : Ends digits (plain rest) := by
        rw [Ends, head_plain]
        exact hends
      let chunk := Chunk.ofRun digits run
      calc (chunks (plain (run ++ rest))).map Chunk.key
        _ = (chunks (chunk.plain ++ plain rest)).map Chunk.key := by
            rw [plain_append hne hrun hends]
        _ = (Chunk.ofRun digits chunk.plain).key :: (chunks (plain rest)).map Chunk.key := by
            rw [chunks_append hne' hrun' hends', List.map_cons]
        _ = chunk.key :: (chunks rest).map Chunk.key := by rw [hkey, ih]
        _ = (chunks (run ++ rest)).map Chunk.key := by
            rw [chunks_append hne hrun hends, List.map_cons]

private theorem spell_key {p : Chunk} (hp : p.Proper) : spell p.key = p.plain := by
  cases p with
  | number digits => rfl
  | text chars =>
      obtain ⟨c, chars, rfl⟩ := List.exists_cons_of_ne_nil hp.1
      have hc : c.toNat ≠ 48 := by
        intro he
        obtain rfl : c = '0' := Char.toNat_inj.mp he
        simpa using hp.2 '0' List.mem_cons_self
      unfold spell
      split
      · rename_i n heq
        exact absurd (List.cons.inj heq).1 hc
      · simp [Chunk.key, Chunk.plain, Function.comp_def]

theorem plain_eq_flatMap (cs : List Char) : plain cs = (key cs).flatMap spell := by
  unfold key
  induction cs using runs_induction with
  | nil => simp [plain, chunks]
  | append digits run rest hne hrun hends ih =>
      have hp := proper_chunks (run ++ rest)
      rw [chunks_append hne hrun hends] at hp ⊢
      rw [plain_append hne hrun hends, ih, List.map_cons, List.flatMap_cons,
        spell_key (hp _ List.mem_cons_self)]

-- Both the key and the plain form can be read off the other.
theorem key_eq_iff : key as = key bs ↔ plain as = plain bs := by
  constructor
  · intro h
    rw [plain_eq_flatMap, plain_eq_flatMap, h]
  · intro h
    rw [← key_plain as, ← key_plain bs, h]

end Plain

section Dotted

theorem toList_written (n : Padded) :
    n.written.toList = List.replicate n.zeros '0' ++ Nat.toDigits 10 n.number := by
  simp [Padded.written, Nat.toList_repr]

theorem value_written (n : Padded) : value n.written.toList = n.number := by
  rw [toList_written]
  induction n.zeros with
  | zero => simp [value, Nat.ofDigitChars_ten_toDigits]
  | succ zeros ih => simpa [List.replicate_succ, value_cons] using ih

theorem written_ne_nil (n : Padded) : n.written.toList ≠ [] := by
  simp [toList_written, Nat.toDigits_ne_nil]

theorem isDigit_written (n : Padded) : ∀ c ∈ n.written.toList, c.isDigit = true := by
  intro c hc
  rw [toList_written] at hc
  rcases List.mem_append.mp hc with hc | hc
  · rw [List.eq_of_mem_replicate hc]
    decide
  · exact Nat.isDigit_of_mem_toDigits (by decide) (by decide) hc

theorem toList_dotted_singleton (n : Padded) : (dotted [n]).toList = n.written.toList := by
  simp [dotted]

theorem toList_dotted_cons (n m : Padded) (ns : List Padded) :
    (dotted (n :: m :: ns)).toList =
      n.written.toList ++ (['.'] ++ (dotted (m :: ns)).toList) := by
  simp [dotted, String.intercalate_cons_cons]

-- After a dot comes a number.
private theorem ends_dotted (n : Padded) (ns : List Padded) :
    Ends false (dotted (n :: ns)).toList := by
  obtain ⟨c, cs, hc⟩ := List.exists_cons_of_ne_nil (written_ne_nil n)
  have hdigit := isDigit_written n c (hc ▸ List.mem_cons_self)
  cases ns with
  | nil => simp [Ends, toList_dotted_singleton, hc, hdigit]
  | cons m ns => simp [Ends, toList_dotted_cons, hc, hdigit]

theorem key_dotted_cons (n : Padded) (ns : List Padded) :
    key (dotted (n :: ns)).toList = ['0'.toNat, n.number] ::
      if ns = [] then [] else ['.'.toNat] :: key (dotted ns).toList := by
  unfold key
  cases ns with
  | nil =>
      have hends : Ends true [] := by simp [Ends]
      rw [toList_dotted_singleton, ← List.append_nil n.written.toList,
        chunks_append (written_ne_nil n) (isDigit_written n) hends]
      simp [chunks, Chunk.ofRun, Chunk.key, value_written]
  | cons m ns =>
      have hends : Ends true (['.'] ++ (dotted (m :: ns)).toList) := by simp [Ends]
      have hdot : ∀ c ∈ ['.'], c.isDigit = false := by simp
      rw [toList_dotted_cons, chunks_append (written_ne_nil n) (isDigit_written n) hends,
        chunks_append (List.cons_ne_nil _ _) hdot (ends_dotted m ns)]
      simp [Chunk.ofRun, Chunk.key, value_written]

private theorem compare_dotted (ms ns : List Padded) :
    compare (key (dotted ms).toList) (key (dotted ns).toList) =
      compare (ms.map Padded.number) (ns.map Padded.number) := by
  have hnil : key (dotted []).toList = [] := by simp [dotted, key, chunks]
  induction ms generalizing ns with
  | nil =>
      cases ns with
      | nil => simp [hnil]
      | cons n ns => simp [hnil, key_dotted_cons]
  | cons m ms ih =>
      cases ns with
      | nil => simp [hnil, key_dotted_cons]
      | cons n ns =>
          have hnumber : compare ['0'.toNat, m.number] ['0'.toNat, n.number] =
              compare m.number n.number := by simp [List.compare_cons_cons]
          rw [key_dotted_cons, key_dotted_cons, List.compare_cons_cons, hnumber, List.map_cons,
            List.map_cons, List.compare_cons_cons, ← ih]
          cases ms with
          | nil => cases ns <;> simp [hnil, key_dotted_cons]
          | cons m' ms => cases ns <;> simp [hnil, key_dotted_cons]

end Dotted

theorem byValue_compareVersions : ByValue compareVersions where
  swap a b := by
    rw [compareVersions_eq, compareVersions_eq]
    exact Std.OrientedCmp.eq_swap
  trans a b c := by
    simp only [compareVersions_eq]
    exact Std.TransCmp.isLE_trans
  eq_iff a b := by
    rw [compareVersions_eq, Std.LawfulEqCmp.compare_eq_iff_eq, key_eq_iff]
  dotted ms ns := by
    rw [compareVersions_eq, compare_dotted]

end PageLocalizer.Version
