import Mathlib.Data.List.Basic
import Mathlib.Data.List.TakeWhile
import PageLocalizer.Proofs.Toml.Tables

-- An integer is read back as it was written.
namespace PageLocalizer.Toml

open PageLocalizer.Toml.Parser (signed decimal? integer? scalar endsScalar hexValue? valueIn
  underscoresFit isSpace skipSpaces)

variable {s rest : List Char} {n : Nat}

section Digits

private theorem hexValue?_of_isDigit {c : Char} (h : c.isDigit = true) :
    hexValue? c = some (c.toNat - '0'.toNat) := if_pos h

private theorem valueIn_toDigits (n : Nat) : valueIn 10 (Nat.toDigits 10 n) = n := by
  have hsame : valueIn 10 (Nat.toDigits 10 n) = Nat.ofDigitChars 10 (Nat.toDigits 10 n) 0 := by
    refine List.foldl_ext _ _ _ fun k c hc => ?_
    rw [hexValue?_of_isDigit (Nat.isDigit_of_mem_toDigits (by decide) (by decide) hc)]
    rfl
  rw [hsame, Nat.ofDigitChars_ten_toDigits]

-- Only zero starts with a zero.
private theorem eq_zero_of_head?_toDigits (h : (Nat.toDigits 10 n).head? = some '0') : n = 0 := by
  induction n using Nat.strongRecOn with
  | ind n ih =>
      rw [Nat.toDigits_eq_if (by decide)] at h
      split at h
      · simpa using h
      · rename_i hge
        obtain ⟨c, cs, hcs⟩ :=
          List.exists_cons_of_ne_nil (Nat.toDigits_ne_nil (b := 10) (n := n / 10))
        have hzero := ih (n / 10) (by omega) (by simpa [hcs] using h)
        omega

private theorem underscoresFit_of_isDigit (h : ∀ c ∈ s, c.isDigit = true) (isDigit : Char → Bool)
    (fits : Bool) : underscoresFit isDigit fits s = true := by
  induction s generalizing fits with
  | nil => rfl
  | cons c s ih =>
      have hc : c ≠ '_' := by
        rintro rfl
        simpa using h '_' List.mem_cons_self
      rw [underscoresFit]
      · exact ih (fun c hm => h c (List.mem_cons_of_mem _ hm)) _
      · exact hc

theorem digits_toDigits (n : Nat) : ∀ c ∈ Nat.toDigits 10 n, c.isDigit = true := fun _ hc =>
  Nat.isDigit_of_mem_toDigits (by decide) (by decide) hc

private theorem signed_of_isDigit (h : ∀ c ∈ s, c.isDigit = true) : signed s = (false, s) := by
  unfold signed
  split
  · simp at h
  · simp at h
  · rfl

-- The digits after a sign, or without one.
theorem decimal?_of_signed {literal : List Char} {negative : Bool}
    (h : signed literal = (negative, Nat.toDigits 10 n)) :
    decimal? literal = some (some (if negative then -(n : Int) else n)) := by
  have hdigits := digits_toDigits n
  have hmore : (Nat.toDigits 10 n).dropWhile Char.isDigit = [] :=
    List.dropWhile_eq_nil_iff.mpr hdigits
  have hzero : ¬((Nat.toDigits 10 n).head? = some '0' ∧ Nat.toDigits 10 n ≠ ['0']) := by
    rintro ⟨hhead, hne⟩
    rw [eq_zero_of_head?_toDigits hhead] at hne
    exact hne rfl
  have hfilter : (Nat.toDigits 10 n).filter (· != '_') = Nat.toDigits 10 n := by
    refine List.filter_eq_self.mpr fun c hc => ?_
    have hc' := hdigits c hc
    have hne : c ≠ '_' := by
      rintro rfl
      simp at hc'
    simpa using hne
  unfold decimal?
  rw [h]
  simp only [hmore, underscoresFit_of_isDigit hdigits, Nat.toDigits_ne_nil, hzero, hfilter,
    List.all_eq_true.mpr hdigits, valueIn_toDigits]
  simp

-- What starts with no mark of a base is decimal.
theorem integer?_eq_decimal? (h : ∀ c ∈ s.drop 1, c.isDigit = true) : integer? s = decimal? s := by
  unfold integer?
  split
  · simp at h
  · simp at h
  · simp at h
  · rfl

end Digits

section Integers

theorem plain_of_isDigit {c : Char} (h : c.isDigit = true ∨ c = '-') : endsScalar c = false ∧
    isSpace c = false ∧ c ∉ ['"', '\'', '[', '\x7b', 't', 'f'] := by
  rcases h with h | rfl
  · have hne : ∀ other : Char, other.isDigit = false → c ≠ other := by
      rintro other ho rfl
      simp [h] at ho
    refine ⟨?_, ?_, ?_⟩
    · simp only [endsScalar, isSpace, Bool.or_eq_false_iff, beq_eq_false_iff_ne]
      refine ⟨⟨⟨⟨⟨⟨⟨⟨⟨⟨?_, ?_⟩, ?_⟩, ?_⟩, ?_⟩, ?_⟩, ?_⟩, ?_⟩, ?_⟩, ?_⟩, ?_⟩ <;>
        exact hne _ (by decide)
    · simp only [isSpace, Bool.or_eq_false_iff, beq_eq_false_iff_ne]
      exact ⟨hne _ (by decide), hne _ (by decide)⟩
    · intro hm
      simp only [List.mem_cons, List.not_mem_nil, or_false] at hm
      rcases hm with rfl | rfl | rfl | rfl | rfl | rfl <;> simp at h
  · decide

-- What has only digits and a minus is one unquoted value up to the end of the line.
theorem reads_of_integer? {text : List Char} {n : Int}
    (htext : ∀ c ∈ text, c.isDigit = true ∨ c = '-') (h : integer? text = some (some n)) :
    Reads text (.integer (some n)) := by
  have hne : text ≠ [] := by
    rintro rfl
    simp [integer?, decimal?, signed] at h
  obtain ⟨c, cs, hcs⟩ := List.exists_cons_of_ne_nil hne
  have hplain := plain_of_isDigit (htext c (by simp [hcs]))
  have hends : ∀ c ∈ text, (!endsScalar c) = true := fun c hc => by
    simp [(plain_of_isDigit (htext c hc)).1]
  intro depth rest
  have htake : (text ++ '\n' :: rest).takeWhile (!endsScalar ·) = text := by
    rw [List.takeWhile_append_of_pos hends]
    simp [endsScalar]
  have hdrop : (text ++ '\n' :: rest).dropWhile (!endsScalar ·) = '\n' :: rest := by
    rw [List.dropWhile_append_of_pos hends]
    simp [endsScalar]
  have hscalar : scalar (text ++ '\n' :: rest) = some (.integer (some n), '\n' :: rest) := by
    have hword : text ≠ ['t', 'r', 'u', 'e'] ∧ text ≠ ['f', 'a', 'l', 's', 'e'] := by
      have hc := hplain.2.2
      constructor <;> rintro rfl <;> simp [← (List.cons.inj hcs).1] at hc
    unfold scalar
    simp [htake, hdrop, h, hword]
  rw [hcs] at hscalar ⊢
  rw [skipSpaces, List.dropWhile_cons_of_pos (by decide), List.cons_append,
    List.dropWhile_cons_of_neg (by simp [hplain.2.1]), ← List.cons_append, ← hscalar]
  have hc := hplain.2.2
  simp only [List.mem_cons, List.not_mem_nil, or_false, not_or] at hc
  rw [List.cons_append, Parser.value] <;> simp [hc]

private theorem toList_toString_natCast (n : Nat) :
    (toString (n : Int)).toList = Nat.toDigits 10 n :=
  Nat.toList_repr

private theorem toList_toString_negSucc (n : Nat) :
    (toString (Int.negSucc n)).toList = '-' :: Nat.toDigits 10 (n + 1) := by
  have hrepr : toString (Int.negSucc n) = "-" ++ (n + 1).repr := rfl
  simp [hrepr, Nat.toList_repr]

theorem reads_integer (n : Int) : Reads (toString n).toList (.integer (some n)) := by
  cases n with
  | ofNat n =>
      have htext : (toString (Int.ofNat n)).toList = Nat.toDigits 10 n := toList_toString_natCast n
      have hsigned : signed (Nat.toDigits 10 n) = (false, Nat.toDigits 10 n) :=
        signed_of_isDigit (digits_toDigits n)
      rw [htext]
      refine reads_of_integer? (fun c hc => .inl (digits_toDigits n c hc)) ?_
      rw [integer?_eq_decimal? fun c hc => digits_toDigits n c (List.mem_of_mem_drop hc)]
      exact decimal?_of_signed hsigned
  | negSucc n =>
      have hsigned :
          signed ('-' :: Nat.toDigits 10 (n + 1)) = (true, Nat.toDigits 10 (n + 1)) := rfl
      rw [toList_toString_negSucc]
      refine reads_of_integer? (fun c hc => ?_) ?_
      · exact (List.mem_cons.mp hc).symm.imp_left (digits_toDigits (n + 1) c)
      · rw [integer?_eq_decimal? (s := '-' :: Nat.toDigits 10 (n + 1)) (digits_toDigits (n + 1))]
        exact decimal?_of_signed hsigned

-- The line of an integer.
def Assignment.ofInteger (k : String) (n : Int) : Assignment :=
  { key := k, text := (toString n).toList, value := .integer (some n) }

theorem reads_ofInteger (k : String) (n : Int) :
    Reads (Assignment.ofInteger k n).text (Assignment.ofInteger k n).value := reads_integer n

end Integers

end PageLocalizer.Toml
