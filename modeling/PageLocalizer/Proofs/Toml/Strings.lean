import Mathlib.Tactic.SplitIfs
import PageLocalizer.Toml.Quoted
import PageLocalizer.Toml.Writer

-- A written string is read back whole, in every way of writing it.
namespace PageLocalizer.Toml

open PageLocalizer.Toml.Parser

variable {c q : Char} {s rest : List Char} {run n : Nat}

section Escapes

theorem hexValue?_hexDigit : ∀ n < 16, hexValue? (hexDigit n) = some n := by decide

private theorem charOfHex?_of_isEscaped (h : isEscaped c = true) :
    charOfHex? ['0', '0', hexDigit (c.toNat / 16), hexDigit (c.toNat % 16)] = some c := by
  have hsmall : c.toNat < 128 := by
    simp only [isEscaped, Bool.or_eq_true, Bool.and_eq_true, decide_eq_true_eq, beq_iff_eq] at h
    omega
  have hzero : hexValue? '0' = some 0 := by decide
  have hhigh := hexValue?_hexDigit (c.toNat / 16) (by omega)
  have hlow := hexValue?_hexDigit (c.toNat % 16) (by omega)
  have hsum : 16 * (c.toNat / 16) + c.toNat % 16 = c.toNat := Nat.div_add_mod _ _
  have hvalid : c.toNat.isValidChar := c.valid
  simp [charOfHex?, hzero, hhigh, hlow, hsum, hvalid, Char.ofNat_toNat]

theorem isControl_eq_false (h : isEscaped c = false) (hn : c ≠ '\n') : isControl c = false := by
  simpa [isEscaped, isControl, hn] using h

-- An escape that is read as `c`, and that does not look like the end of a line.
def IsEscapeOf (c : Char) (text : List Char) : Prop :=
  ∃ e more, text = '\\' :: e :: more ∧ isSpace e = false ∧ e ≠ '\n' ∧ e ≠ '\r' ∧
    ∀ rest, escaped (e :: (more ++ rest)) = some (c, rest)

theorem escapeChar_cases (multiline : Bool) (c : Char) :
    (escapeChar multiline c = [c] ∧ c ≠ '\\' ∧ isEscaped c = false ∧
      (c = '\n' → multiline = true)) ∨ IsEscapeOf c (escapeChar multiline c) := by
  have hof : ∀ n, c.toNat = n → Char.ofNat n = c := fun n hn => by rw [← hn, Char.ofNat_toNat]
  unfold escapeChar
  split_ifs with hb ht hl hm hf hr hs he
  · exact .inr ⟨'b', [], rfl, rfl, by decide, by decide, fun _ =>
      congrArg (fun c => some (c, _)) (hof _ hb)⟩
  · exact .inr ⟨'t', [], rfl, rfl, by decide, by decide, fun _ => by simp [escaped, ht]⟩
  · exact .inl ⟨by rw [hl], by simp [hl], by simp [hl, isEscaped], fun _ => hm⟩
  · exact .inr ⟨'n', [], rfl, rfl, by decide, by decide, fun _ => by simp [escaped, hl]⟩
  · exact .inr ⟨'f', [], rfl, rfl, by decide, by decide, fun _ =>
      congrArg (fun c => some (c, _)) (hof _ hf)⟩
  · exact .inr ⟨'r', [], rfl, rfl, by decide, by decide, fun _ => by simp [escaped, hr]⟩
  · exact .inr ⟨'\\', [], rfl, rfl, by decide, by decide, fun _ => by simp [escaped, hs]⟩
  · refine .inr ⟨'u', _, rfl, rfl, by decide, by decide, fun _ => ?_⟩
    simp [escaped, charOfHex?_of_isEscaped he]
  · exact .inl ⟨rfl, hs, by simpa using he, fun h => absurd h hl⟩

end Escapes

section Basic

theorem basic_escapeChar (hq : c ≠ '"') (n : Nat) (s : List Char) :
    basic (n + 1) (escapeChar false c ++ s) = (basic n s).map fun r => (c :: r.1, r.2) := by
  obtain ⟨h, hs, he, hn⟩ | ⟨e, more, h, -, -, -, hread⟩ := escapeChar_cases false c
  · have hcontrol : isControl c = false := isControl_eq_false he fun h => by simpa using hn h
    rw [h, List.singleton_append, basic]
    · cases basic n s <;> simp [hcontrol]
    all_goals simp [hq, hs]
  · rw [h, List.cons_append, List.cons_append, basic, hread]
    simp only [Option.bind_eq_bind, Option.bind_some]
    cases basic n s <;> rfl

theorem escape_cons (hq : c ≠ '"') (multiline : Bool) (run : Nat) (s : List Char) :
    escape multiline run (c :: s) = escapeChar multiline c ++ escape multiline 0 s := by
  rw [escape]
  exact hq

theorem basic_escape (hn : s.length < n) (rest : List Char) :
    basic n (escape false 0 s ++ '"' :: rest) = some (s, rest) := by
  induction s generalizing n with
  | nil => cases n with
    | zero => simp at hn
    | succ n => simp [escape, basic]
  | cons c s ih =>
      obtain ⟨m, rfl⟩ : ∃ m, n = m + 1 := Nat.exists_eq_succ_of_ne_zero (by omega)
      have hs := ih (n := m) (by simpa using hn)
      by_cases hq : c = '"'
      · subst hq
        simp [escape, basic, escaped, hs]
      · rw [escape_cons hq, List.append_assoc, basic_escapeChar hq, hs, Option.map_some]

end Basic

section Quotes

-- Readers of multi-line strings treat the quotes alike.
def EndsAt (q : Char) (read : Nat → List Char → Option (List Char × List Char)) : Prop :=
  ∀ n rest, read (n + 1) (q :: rest) =
    if rest.take 2 = [q, q] then closingQuotes q (q :: rest)
    else (read n rest).map fun r => (q :: r.1, r.2)

theorem endsAt_multilineBasic : EndsAt '"' multilineBasic := by
  intro n rest
  rw [multilineBasic]
  split_ifs
  · rfl
  · cases multilineBasic n rest <;> rfl

theorem endsAt_multilineLiteral : EndsAt '\'' multilineLiteral := by
  intro n rest
  rw [multilineLiteral]
  split_ifs
  · rfl
  · cases multilineLiteral n rest <;> rfl

variable {read : Nat → List Char → Option (List Char × List Char)}

-- Up to two quotes right before the closing ones are part of the string.
theorem EndsAt.closing (h : EndsAt q read) (hrun : run ≤ 2) (hrest : rest.head? ≠ some q)
    (n : Nat) : read (n + 1) (List.replicate (run + 3) q ++ rest) =
      some (List.replicate run q, rest) := by
  have hall : ∀ a ∈ List.replicate (run + 3) q, (a == q) = true := by simp
  have hother : rest.takeWhile (· == q) = [] ∧ rest.dropWhile (· == q) = rest := by
    cases rest with
    | nil => exact ⟨rfl, rfl⟩
    | cons a rest =>
        have ha : (a == q) = false := by simpa using hrest
        exact ⟨List.takeWhile_cons_of_neg (by simp [ha]),
          List.dropWhile_cons_of_neg (by simp [ha])⟩
  have hclosing : closingQuotes q (List.replicate (run + 3) q ++ rest) =
      some (List.replicate run q, rest) := by
    rw [closingQuotes, List.takeWhile_append_of_pos hall, List.dropWhile_append_of_pos hall,
      hother.1, hother.2]
    simp
    omega
  rw [List.replicate_succ, List.cons_append] at hclosing ⊢
  rw [h n, if_pos (by simp [List.replicate_succ]), hclosing]

-- And so are those in front of something else.
theorem EndsAt.before (h : EndsAt q read) (hrun : run ≤ 2) (hs : s.head? ≠ some q) (n : Nat) :
    read (n + run) (List.replicate run q ++ s) =
      (read n s).map fun r => (List.replicate run q ++ r.1, r.2) := by
  have hlone : ∀ n, read (n + 1) (q :: s) = (read n s).map fun r => (q :: r.1, r.2) := by
    intro n
    rw [h n, if_neg]
    cases s <;> simp_all
  match run, hrun with
  | 0, _ => cases hr : read n s <;> simp [hr]
  | 1, _ => exact hlone n
  | 2, _ =>
      have hpair : (q :: s).take 2 ≠ [q, q] := by cases s <;> simp_all
      rw [show List.replicate 2 q ++ s = q :: q :: s from rfl, h (n + 1), if_neg hpair, hlone n]
      cases read n s <;> rfl

end Quotes

section MultilineBasic

theorem IsEscapeOf.multilineBasic {text : List Char} (h : IsEscapeOf c text) (n : Nat)
    (s : List Char) : multilineBasic (n + 1) (text ++ s) =
      (multilineBasic n s).map fun r => (c :: r.1, r.2) := by
  obtain ⟨e, more, rfl, hspace, hn, hr, hread⟩ := h
  have hline : skipContinuation (e :: (more ++ s)) = none := by
    have hskip : skipSpaces (e :: (more ++ s)) = e :: (more ++ s) := by
      simp [skipSpaces, hspace]
    rw [skipContinuation, hskip]
    unfold lineEnd?
    split <;> simp_all
  rw [List.cons_append, List.cons_append, Parser.multilineBasic, hline]
  simp only [hread, Option.bind_eq_bind, Option.bind_some]
  cases Parser.multilineBasic n s <;> rfl

theorem multilineBasic_escapeChar (hq : c ≠ '"') (n : Nat) (s : List Char) :
    multilineBasic (n + 1) (escapeChar true c ++ s) =
      (multilineBasic n s).map fun r => (c :: r.1, r.2) := by
  obtain ⟨h, hs, he, -⟩ | h := escapeChar_cases true c
  · have hr : c ≠ '\r' := by
      rintro rfl
      simp [isEscaped] at he
    have hcontrol : (isControl c && c != '\n') = false := by
      by_cases hn : c = '\n'
      · simp [hn]
      · simp [isControl_eq_false he hn]
    rw [h, List.singleton_append, multilineBasic]
    · cases multilineBasic n s <;> simp [hcontrol]
    all_goals simp [hq, hs, hr]
  · exact h.multilineBasic n s

theorem head?_escapeChar (hq : c ≠ '"') (multiline : Bool) (s : List Char) :
    (escapeChar multiline c ++ s).head? ≠ some '"' := by
  obtain ⟨h, -⟩ | ⟨e, more, h, -⟩ := escapeChar_cases multiline c
  · simpa [h] using hq
  · simp [h]

-- So many quotes have just been written as they are.
theorem multilineBasic_escape (hrun : run ≤ 2) (hrest : rest.head? ≠ some '"')
    (hn : run + s.length < n) : multilineBasic n (List.replicate run '"' ++
      (escape true run s ++ (List.replicate 3 '"' ++ rest))) =
        some (List.replicate run '"' ++ s, rest) := by
  induction s generalizing n run with
  | nil =>
      obtain ⟨m, rfl⟩ : ∃ m, n = m + 1 := Nat.exists_eq_succ_of_ne_zero (by omega)
      rw [escape, List.nil_append, ← List.append_assoc, List.replicate_append_replicate,
        endsAt_multilineBasic.closing hrun hrest, List.append_nil]
  | cons c s ih =>
      obtain ⟨m, rfl⟩ : ∃ m, n = m + run + 1 :=
        ⟨n - run - 1, by omega⟩
      have hnext := ih (n := m) (Nat.zero_le 2) (by simp at hn ⊢; omega)
      simp only [List.replicate_zero, List.nil_append] at hnext
      by_cases hq : c = '"'
      · subst hq
        by_cases hmore : run < 2
        · have hone := ih (n := m + run + 1) (show run + 1 ≤ 2 by omega) (by simp at hn; omega)
          rw [escape, if_pos (by simpa using hmore)]
          simpa [List.replicate_succ'] using hone
        · have hmany := endsAt_multilineBasic.before (s := '\\' :: '"' ::
            (escape true 0 s ++ (List.replicate 3 '"' ++ rest))) hrun (by simp) (m + 1)
          have hescape : IsEscapeOf '"' ['\\', '"'] :=
            ⟨'"', [], rfl, rfl, by decide, by decide, fun _ => rfl⟩
          have hread := hescape.multilineBasic m (escape true 0 s ++ (List.replicate 3 '"' ++ rest))
          rw [escape, if_neg (by simpa using hmore), Nat.add_right_comm, List.cons_append,
            List.cons_append, hmany]
          rw [hnext] at hread
          simpa using congrArg (Option.map fun r => (List.replicate run '"' ++ r.1, r.2)) hread
      · have hmany := endsAt_multilineBasic.before (s := escapeChar true c ++
          (escape true 0 s ++ (List.replicate 3 '"' ++ rest))) hrun (head?_escapeChar hq _ _)
          (m + 1)
        rw [escape_cons hq, Nat.add_right_comm, List.append_assoc, hmany,
          multilineBasic_escapeChar hq, hnext]
        simp

end MultilineBasic

section Literal

theorem literal_append (hs : ∀ c ∈ s, c ≠ '\'' ∧ isControl c = false) (rest : List Char) :
    literal (s ++ '\'' :: rest) = some (s, rest) := by
  induction s with
  | nil => rfl
  | cons c s ih =>
      obtain ⟨⟨hq, hc⟩, hs⟩ := List.forall_mem_cons.mp hs
      rw [List.cons_append, literal]
      · simp [hc, ih hs]
      · exact hq

private theorem multilineLiteral_cons (hq : c ≠ '\'') (he : isEscaped c = false) (n : Nat)
    (s : List Char) : multilineLiteral (n + 1) (c :: s) =
      (multilineLiteral n s).map fun r => (c :: r.1, r.2) := by
  have hr : c ≠ '\r' := by
    rintro rfl
    simp [isEscaped] at he
  have hcontrol : (isControl c && c != '\n') = false := by
    by_cases hn : c = '\n'
    · simp [hn]
    · simp [isControl_eq_false he hn]
  rw [multilineLiteral]
  · cases multilineLiteral n s <;> simp [hcontrol]
  all_goals simp [hq, hr]

-- So many quotes have just been read.
private theorem multilineLiteral_append (hs : ∀ c ∈ s, isEscaped c = false)
    (hrun : longestRunFrom '\'' run s ≤ 2) (hrest : rest.head? ≠ some '\'')
    (hn : run + s.length < n) : multilineLiteral n (List.replicate run '\'' ++
      (s ++ (List.replicate 3 '\'' ++ rest))) = some (List.replicate run '\'' ++ s, rest) := by
  induction s generalizing n run with
  | nil =>
      obtain ⟨m, rfl⟩ : ∃ m, n = m + 1 := Nat.exists_eq_succ_of_ne_zero (by omega)
      rw [List.nil_append, ← List.append_assoc, List.replicate_append_replicate,
        endsAt_multilineLiteral.closing (by simpa [longestRunFrom] using hrun) hrest,
        List.append_nil]
  | cons c s ih =>
      obtain ⟨hc, hothers⟩ := List.forall_mem_cons.mp hs
      obtain ⟨m, rfl⟩ : ∃ m, n = m + run + 1 := ⟨n - run - 1, by omega⟩
      rw [longestRunFrom] at hrun
      by_cases hq : c = '\''
      · subst hq
        have hmore : longestRunFrom '\'' (run + 1) s ≤ 2 := by simpa using hrun
        have hone := ih (n := m + run + 1) hothers hmore (by simp at hn; omega)
        simpa [List.replicate_succ'] using hone
      · simp only [hq, if_false, Nat.max_le] at hrun
        have hnext := ih (n := m) hothers hrun.2 (by simp at hn ⊢; omega)
        simp only [List.replicate_zero, List.nil_append] at hnext
        have hmany := endsAt_multilineLiteral.before (s := c ::
          (s ++ (List.replicate 3 '\'' ++ rest))) hrun.1 (by simpa using hq) (m + 1)
        rw [Nat.add_right_comm, List.cons_append, hmany, multilineLiteral_cons hq hc, hnext]
        simp

end Literal

section Quoted

private theorem run_le_longestRunFrom (q : Char) (run : Nat) (s : List Char) :
    run ≤ longestRunFrom q run s := by
  induction s generalizing run with
  | nil => exact Nat.le_refl _
  | cons c s ih =>
      rw [longestRunFrom]
      split_ifs
      · exact Nat.le_trans (Nat.le_succ run) (ih (run + 1))
      · exact Nat.le_max_left _ _

private theorem not_mem_of_longestRun (h : longestRun q s = 0) : q ∉ s := by
  induction s with
  | nil => simp
  | cons c s ih =>
      rw [longestRun, longestRunFrom] at h
      split_ifs at h with hq
      · have := run_le_longestRunFrom q (0 + 1) s
        omega
      · rw [Nat.max_eq_zero_iff] at h
        simp [Ne.symm hq, ih h.2]

theorem length_le_escape (multiline : Bool) (run : Nat) (s : List Char) :
    s.length ≤ (escape multiline run s).length := by
  induction s generalizing run with
  | nil => simp
  | cons c s ih =>
      by_cases hq : c = '"'
      · subst hq
        have hmore := ih (run + 1)
        have hnone := ih 0
        rw [escape]
        split_ifs <;> simp only [List.length_cons] <;> omega
      · have hpos : 0 < (escapeChar multiline c).length := by
          obtain ⟨h, -⟩ | ⟨e, more, h, -⟩ := escapeChar_cases multiline c <;> simp [h]
        have hnone := ih 0
        rw [escape_cons hq, List.length_append, List.length_cons]
        omega

-- The line feed put in front is the only one that is taken off.
theorem skipFirstLineEnd_opening {body : List Char}
    (h : '\n' ∉ s → ∀ c ∈ body.head?, c ≠ '\n' ∧ c ≠ '\r') :
    skipFirstLineEnd (opening s ++ body) = body := by
  unfold opening
  split_ifs with hs
  · rfl
  · have hhead := h (by simpa using hs)
    rw [List.nil_append, skipFirstLineEnd]
    unfold lineEnd?
    split <;> simp_all

private theorem head?_escape (hs : '\n' ∉ s) (rest : List Char) :
    ∀ c ∈ (escape true 0 s ++ (List.replicate 3 '"' ++ rest)).head?, c ≠ '\n' ∧ c ≠ '\r' := by
  cases s with
  | nil => simp [escape, List.replicate]
  | cons a s =>
      by_cases hq : a = '"'
      · subst hq
        simp [escape]
      · have hn : a ≠ '\n' := fun h => hs (by simp [h])
        obtain ⟨h, -, he, -⟩ | ⟨e, more, h, -⟩ := escapeChar_cases true a
        · have hr : a ≠ '\r' := by
            rintro rfl
            simp [isEscaped] at he
          simp [escape_cons hq, h, hn, hr]
        · simp [escape_cons hq, h]

private theorem head?_of_not_escaped (hs : ∀ c ∈ s, isEscaped c = false) (hn : '\n' ∉ s)
    (rest : List Char) :
    ∀ c ∈ (s ++ (List.replicate 3 '\'' ++ rest)).head?, c ≠ '\n' ∧ c ≠ '\r' := by
  intro c hc
  cases s with
  | nil =>
      obtain rfl : '\'' = c := by simpa [List.replicate] using hc
      decide
  | cons a s =>
      obtain rfl : a = c := by simpa using hc
      refine ⟨fun h => hn (h ▸ List.mem_cons_self), ?_⟩
      rintro rfl
      simpa [isEscaped] using hs _ List.mem_cons_self

theorem string_basic {body : List Char} (h : ∀ more, body ≠ '"' :: '"' :: more) :
    string ('"' :: body) =
      (basic (body.length + 1) body).map fun r => (String.ofList r.1, r.2) := by
  rw [string]
  exact h

theorem string_literal {body : List Char} (h : ∀ more, body ≠ '\'' :: '\'' :: more) :
    string ('\'' :: body) = (literal body).map fun r => (String.ofList r.1, r.2) := by
  rw [string]
  exact h

-- A string on one line does not look like the start of one on many.
theorem escape_ne_quotes (hrest : rest.head? ≠ some '"') (s more : List Char) :
    escape false 0 s ++ '"' :: rest ≠ '"' :: '"' :: more := by
  cases s with
  | nil =>
      rintro h
      simp [escape] at h
      simp [h] at hrest
  | cons c s =>
      by_cases hq : c = '"'
      · subst hq
        simp [escape]
      · rw [escape_cons hq, List.append_assoc]
        intro h
        exact head?_escapeChar hq false _ (by rw [h]; rfl)

theorem literal_of_quoting (h : quoting s = .literal) :
    ∀ c ∈ s, c ≠ '\'' ∧ isControl c = false := by
  unfold quoting at h
  simp only [Bool.and_eq_true, Bool.not_eq_true', beq_iff_eq, decide_eq_true_eq] at h
  split_ifs at h with hb hl
  obtain ⟨⟨he, hrun⟩, hlines⟩ := hl
  intro c hc
  refine ⟨fun hq => not_mem_of_longestRun hrun (hq ▸ hc), isControl_eq_false ?_ fun hn => ?_⟩
  · simpa using List.any_eq_false.mp he c hc
  · subst hn
    simp [hc] at hlines

private theorem multilineLiteral_of_quoting (h : quoting s = .multilineLiteral) :
    (∀ c ∈ s, isEscaped c = false) ∧ longestRun '\'' s ≤ 2 := by
  unfold quoting at h
  simp only [Bool.and_eq_true, Bool.not_eq_true', beq_iff_eq, decide_eq_true_eq] at h
  split_ifs at h with hb hl hmb hml
  exact ⟨fun c hc => by simpa using List.any_eq_false.mp hml.1 c hc, hml.2⟩

-- Whatever stands in a string, it is read back as it was, and nothing of what follows is taken.
theorem string_quoted (hdouble : rest.head? ≠ some '"') (hsingle : rest.head? ≠ some '\'')
    (s : List Char) : string (quoted s ++ rest) = some (String.ofList s, rest) := by
  have hthree : "\"\"\"".toList = List.replicate 3 '"' ∧ "'''".toList = List.replicate 3 '\'' :=
    ⟨rfl, rfl⟩
  unfold quoted
  cases hquoting : quoting s with
  | basic =>
      have hlength := length_le_escape false 0 s
      have hbasic := basic_escape (s := s) (n := (escape false 0 s ++ '"' :: rest).length + 1)
        (by simp; omega) rest
      simp only [List.cons_append, List.append_assoc, List.nil_append]
      rw [string_basic (escape_ne_quotes hdouble s), hbasic, Option.map_some]
  | literal =>
      have hs := literal_of_quoting hquoting
      have hne : ∀ more, s ++ '\'' :: rest ≠ '\'' :: '\'' :: more := by
        intro more h
        cases s with
        | nil => simp [(List.cons.inj h).2] at hsingle
        | cons c s => exact (hs c List.mem_cons_self).1 (List.cons.inj h).1
      simp only [List.cons_append, List.append_assoc, List.nil_append]
      rw [string_literal hne, literal_append hs, Option.map_some]
  | multilineBasic =>
      have hlength := length_le_escape true 0 s
      have hbody := multilineBasic_escape (s := s)
        (n := (opening s ++ (escape true 0 s ++ (List.replicate 3 '"' ++ rest))).length + 1)
        (Nat.zero_le 2) hdouble (by simp; omega)
      simp only [hthree, List.append_assoc]
      have hquotes : ∀ t : List Char, List.replicate 3 '"' ++ t = '"' :: '"' :: '"' :: t :=
        fun _ => rfl
      rw [hquotes, string, skipFirstLineEnd_opening fun hs => head?_escape hs rest]
      simpa using congrArg (Option.map fun r => (String.ofList r.1, r.2)) hbody
  | multilineLiteral =>
      obtain ⟨hs, hrun⟩ := multilineLiteral_of_quoting hquoting
      have hbody := multilineLiteral_append
        (n := (opening s ++ (s ++ (List.replicate 3 '\'' ++ rest))).length + 1) hs
        (show longestRunFrom '\'' 0 s ≤ 2 from hrun) hsingle (by simp; omega)
      simp only [hthree, List.append_assoc]
      rw [show ∀ t : List Char, List.replicate 3 '\'' ++ t = '\'' :: '\'' :: '\'' :: t from
        fun _ => rfl, string, skipFirstLineEnd_opening fun hn => head?_of_not_escaped hs hn rest]
      simpa using congrArg (Option.map fun r => (String.ofList r.1, r.2)) hbody

end Quoted

end PageLocalizer.Toml
