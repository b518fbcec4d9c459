import Mathlib.Algebra.Order.Field.Basic
import Mathlib.Algebra.Order.Field.Rat
import Mathlib.Data.Nat.Dist
import Mathlib.Tactic.FieldSimp
import Mathlib.Tactic.Linarith
import Mathlib.Tactic.Ring
import Mathlib.Tactic.SplitIfs
import PageLocalizer.ByteSize

-- What a byte count shows: how far it is from the count, which unit it has, and that larger counts
-- show no less.
namespace PageLocalizer

namespace Number

variable {a b n m den bits : Nat}

section HalfEven

theorem div_le_roundHalfEven (n den : Nat) : n / den ≤ roundHalfEven n den := by
  unfold roundHalfEven
  dsimp only
  split_ifs <;> omega

private theorem roundHalfEven_le_succ (n den : Nat) : roundHalfEven n den ≤ n / den + 1 := by
  unfold roundHalfEven
  dsimp only
  split_ifs <;> omega

theorem le_roundHalfEven (hden : 0 < den) (h : m * den ≤ n) : m ≤ roundHalfEven n den :=
  ((Nat.le_div_iff_mul_le hden).mpr h).trans (div_le_roundHalfEven n den)

private theorem roundHalfEven_mul (hden : 0 < den) (m : Nat) : roundHalfEven (m * den) den = m := by
  simp [roundHalfEven, Nat.mul_div_cancel m hden, hden]

theorem roundHalfEven_mono (h : a ≤ b) : roundHalfEven a den ≤ roundHalfEven b den := by
  have hquotient : a / den ≤ b / den := Nat.div_le_div_right h
  rcases hquotient.lt_or_eq with hlt | heq
  · have hupper := roundHalfEven_le_succ a den
    have hlower := div_le_roundHalfEven b den
    omega
  · have ha := Nat.div_add_mod a den
    have hb := Nat.div_add_mod b den
    rw [heq] at ha
    unfold roundHalfEven
    rw [heq]
    dsimp only
    split_ifs <;> omega

theorem roundHalfEven_le (hden : 0 < den) (h : n ≤ m * den) : roundHalfEven n den ≤ m :=
  (roundHalfEven_mono h).trans_eq (roundHalfEven_mul hden m)

-- A rounded quotient is at most one half off.
theorem roundHalfEven_near (hden : 0 < den) (n : Nat) :
    2 * (roundHalfEven n den * den) ≤ 2 * n + den ∧
      2 * n ≤ 2 * (roundHalfEven n den * den) + den := by
  have hdecompose := Nat.div_add_mod' n den
  have hremainder := Nat.mod_lt n hden
  have hnext : (n / den + 1) * den = n / den * den + den := Nat.succ_mul _ _
  unfold roundHalfEven
  dsimp only
  split_ifs <;> omega

-- No other multiple of the unit is nearer.
theorem roundHalfEven_nearest (hden : 0 < den) (n m : Nat) :
    Nat.dist (roundHalfEven n den * den) n ≤ Nat.dist (m * den) n := by
  have hnear := roundHalfEven_near hden n
  unfold Nat.dist
  rcases Nat.lt_trichotomy m (roundHalfEven n den) with hlt | heq | hgt
  · have hstep := Nat.mul_le_mul_right den (Nat.succ_le_of_lt hlt)
    rw [Nat.succ_mul] at hstep
    omega
  · rw [heq]
  · have hstep := Nat.mul_le_mul_right den (Nat.succ_le_of_lt hgt)
    rw [Nat.succ_mul] at hstep
    omega

-- The last number of units is shown from its tie on, which goes to the even neighbour.
theorem roundHalfEven_eq_iff (hden : 0 < den) (hm : m % 2 = 1) (h : n < (m + 1) * den) :
    roundHalfEven n den = m + 1 ↔ (2 * m + 1) * den ≤ 2 * n := by
  have hodd : (2 * m + 1) * den = 2 * (m * den) + den := by ring
  have hnext : (m + 1) * den = m * den + den := Nat.succ_mul _ _
  have hnear := roundHalfEven_near hden n
  constructor
  · intro heq
    rw [heq] at hnear
    omega
  · intro hle
    have hquotient : n / den = m := by
      refine Nat.div_eq_of_lt_le ?_ h
      omega
    have hdecompose := Nat.div_add_mod' n den
    rw [hquotient] at hdecompose
    unfold roundHalfEven
    rw [hquotient]
    dsimp only
    split_ifs <;> omega

end HalfEven

section Significant

theorem twoTo_pos (k : Nat) : 0 < twoTo k := Nat.two_pow_pos k

theorem twoTo_mul (j k : Nat) : twoTo j * twoTo k = twoTo (j + k) := (Nat.pow_add 2 j k).symm

theorem twoTo_le {j k : Nat} (h : j ≤ k) : twoTo j ≤ twoTo k :=
  Nat.pow_le_pow_right (by decide) h

theorem lt_twoTo_log2 (n : Nat) : n < twoTo (n.log2 + 1) := Nat.lt_log2_self

theorem twoTo_log2_le (h : n ≠ 0) : twoTo n.log2 ≤ n := Nat.log2_self_le h

theorem log2_mono (h : a ≤ b) : a.log2 ≤ b.log2 := by
  rcases Nat.eq_zero_or_pos a with rfl | ha
  · simp
  · exact (Nat.le_log2 (by omega)).mpr ((twoTo_log2_le ha.ne').trans h)

-- The power of two that bounds a number bounds what it is rounded to.
private theorem toSignificant_le (bits n : Nat) :
    toSignificant bits n ≤ twoTo (n.log2 + 1) := by
  have hdropped : n.log2 + 1 - bits ≤ n.log2 + 1 := Nat.sub_le _ _
  have hsplit : twoTo (n.log2 + 1 - (n.log2 + 1 - bits)) * twoTo (n.log2 + 1 - bits) =
      twoTo (n.log2 + 1) := by
    rw [twoTo_mul, Nat.sub_add_cancel hdropped]
  have hround : roundHalfEven n (twoTo (n.log2 + 1 - bits)) ≤
      twoTo (n.log2 + 1 - (n.log2 + 1 - bits)) :=
    roundHalfEven_le (twoTo_pos _) (hsplit ▸ (lt_twoTo_log2 n).le)
  exact (Nat.mul_le_mul_right _ hround).trans_eq hsplit

private theorem le_toSignificant (hbits : 0 < bits) (h : n ≠ 0) :
    twoTo n.log2 ≤ toSignificant bits n := by
  have hdropped : n.log2 + 1 - bits ≤ n.log2 := by omega
  have hsplit : twoTo (n.log2 - (n.log2 + 1 - bits)) * twoTo (n.log2 + 1 - bits) =
      twoTo n.log2 := by
    rw [twoTo_mul, Nat.sub_add_cancel hdropped]
  have hround : twoTo (n.log2 - (n.log2 + 1 - bits)) ≤
      roundHalfEven n (twoTo (n.log2 + 1 - bits)) :=
    le_roundHalfEven (twoTo_pos _) (hsplit ▸ twoTo_log2_le h)
  exact hsplit.symm.trans_le (Nat.mul_le_mul_right _ hround)

theorem toSignificant_mono (hbits : 0 < bits) (h : a ≤ b) :
    toSignificant bits a ≤ toSignificant bits b := by
  rcases Nat.eq_zero_or_pos a with rfl | ha
  · simp [toSignificant, roundHalfEven]
  rcases (log2_mono h).lt_or_eq with hlt | heq
  · calc toSignificant bits a ≤ twoTo (a.log2 + 1) := toSignificant_le bits a
      _ ≤ twoTo b.log2 := twoTo_le hlt
      _ ≤ toSignificant bits b := le_toSignificant hbits (by omega)
  · unfold toSignificant
    rw [heq]
    exact Nat.mul_le_mul_right _ (roundHalfEven_mono h)

-- A number with so many significant binary digits.
def IsSignificant (bits m : Nat) : Prop := ∃ digits exponent,
  digits < twoTo bits ∧ m = digits * twoTo exponent

-- A multiple of the dropped power of two, if the power of the last digit is reached.
theorem IsSignificant.dvd {m : Nat} (h : IsSignificant bits m)
    (hm : twoTo n.log2 ≤ m) : twoTo (n.log2 + 1 - bits) ∣ m := by
  obtain ⟨digits, exponent, hdigits, rfl⟩ := h
  have hlt : twoTo n.log2 < twoTo (bits + exponent) := by
    rw [← twoTo_mul]
    exact hm.trans_lt (Nat.mul_lt_mul_of_pos_right hdigits (twoTo_pos _))
  have hexponent : n.log2 < bits + exponent := (Nat.pow_lt_pow_iff_right (by decide)).mp hlt
  exact (Nat.pow_dvd_pow 2 (by omega)).mul_left _

private theorem isSignificant_toSignificant (hbits : 0 < bits) (n : Nat) :
    IsSignificant bits (toSignificant bits n) := by
  have hround : roundHalfEven n (twoTo (n.log2 + 1 - bits)) ≤ twoTo bits := by
    refine roundHalfEven_le (twoTo_pos _) ?_
    rw [twoTo_mul]
    exact (lt_twoTo_log2 n).le.trans (twoTo_le (by omega))
  rcases hround.lt_or_eq with hlt | heq
  · exact ⟨_, _, hlt, rfl⟩
  · refine ⟨1, bits + (n.log2 + 1 - bits), Nat.one_lt_two_pow hbits.ne', ?_⟩
    rw [toSignificant, heq, twoTo_mul, Nat.one_mul]

-- No number with so many digits is nearer.
theorem toSignificant_nearest (hbits : 0 < bits) (hm : IsSignificant bits m) (n : Nat) :
    Nat.dist (toSignificant bits n) n ≤ Nat.dist m n := by
  rcases Nat.eq_zero_or_pos n with rfl | hn
  · simp [toSignificant, roundHalfEven, Nat.dist]
  have hlog := twoTo_log2_le hn.ne'
  by_cases hreach : twoTo n.log2 ≤ m
  · obtain ⟨k, rfl⟩ := hm.dvd hreach
    rw [Nat.mul_comm]
    exact roundHalfEven_nearest (twoTo_pos _) n k
  · -- The least number of as many digits as `n` is nearer than `m`.
    have hsplit : twoTo (n.log2 - (n.log2 + 1 - bits)) * twoTo (n.log2 + 1 - bits) =
        twoTo n.log2 := by
      rw [twoTo_mul, Nat.sub_add_cancel (by omega)]
    have hnearest := roundHalfEven_nearest (twoTo_pos (n.log2 + 1 - bits)) n
      (twoTo (n.log2 - (n.log2 + 1 - bits)))
    rw [hsplit] at hnearest
    refine hnearest.trans ?_
    unfold Nat.dist
    omega

end Significant

end Number

namespace ByteSize

open PageLocalizer.Number

variable {a b bytes : Nat}

section Units

theorem unitIndex_le (bytes : Nat) : unitIndex bytes ≤ 5 := Nat.min_le_right _ _

theorem held_mono (h : a ≤ b) : held a ≤ held b := toSignificant_mono (by decide) h

theorem unitIndex_mono (h : a ≤ b) : unitIndex a ≤ unitIndex b := by
  have hlog : (held a).log2 ≤ (held b).log2 := log2_mono (held_mono h)
  unfold unitIndex
  omega

-- A count that has a larger unit reaches that unit.
private theorem le_held (h : 0 < unitIndex bytes) : twoTo (10 * unitIndex bytes) ≤ held bytes := by
  have hlog : 10 * unitIndex bytes ≤ (held bytes).log2 := by
    unfold unitIndex
    omega
  have hne : held bytes ≠ 0 := by
    intro hzero
    simp [unitIndex, hzero] at h
  exact (twoTo_le hlog).trans (twoTo_log2_le hne)

-- It does not reach the next one, unless there is none.
theorem held_lt (h : unitIndex bytes < 5) : held bytes < 1024 * twoTo (10 * unitIndex bytes) := by
  have hlog : (held bytes).log2 + 1 ≤ 10 + 10 * unitIndex bytes := by
    unfold unitIndex at h ⊢
    omega
  calc held bytes < twoTo ((held bytes).log2 + 1) := lt_twoTo_log2 _
    _ ≤ twoTo (10 + 10 * unitIndex bytes) := twoTo_le hlog
    _ = 1024 * twoTo (10 * unitIndex bytes) := (twoTo_mul 10 _).symm

theorem one_le_amount (h : 0 < unitIndex bytes) : 1 ≤ amount bytes :=
  le_roundHalfEven (twoTo_pos _) ((Nat.one_mul _).trans_le (le_held h))

theorem amount_le (h : unitIndex bytes < 5) : amount bytes ≤ 1024 :=
  roundHalfEven_le (twoTo_pos _) (held_lt h).le

-- The unit is chosen before rounding, so its last half shows as one of the next.
theorem amount_eq_iff (h : unitIndex bytes < 5) :
    amount bytes = 1024 ↔ 2047 * twoTo (10 * unitIndex bytes) ≤ 2 * held bytes :=
  roundHalfEven_eq_iff (m := 1023) (twoTo_pos _) (by decide) (held_lt h)

theorem quantity_mono (h : a ≤ b) :
    amount a * twoTo (10 * unitIndex a) ≤ amount b * twoTo (10 * unitIndex b) := by
  rcases (unitIndex_mono h).lt_or_eq with hlt | heq
  · have hnext : 10 + 10 * unitIndex a ≤ 10 * unitIndex b := by omega
    have hlast := unitIndex_le b
    calc amount a * twoTo (10 * unitIndex a) ≤ 1024 * twoTo (10 * unitIndex a) :=
          Nat.mul_le_mul_right _ (amount_le (by omega))
      _ = twoTo (10 + 10 * unitIndex a) := twoTo_mul 10 _
      _ ≤ twoTo (10 * unitIndex b) := twoTo_le hnext
      _ ≤ amount b * twoTo (10 * unitIndex b) :=
          Nat.le_mul_of_pos_left _ (one_le_amount (by omega))
  · unfold amount
    rw [heq]
    exact Nat.mul_le_mul_right _ (roundHalfEven_mono (held_mono h))

end Units

section Distances

theorem abs_sub_natCast (a b : Nat) : |(a : ℚ) - b| = Nat.dist a b := by
  rcases Nat.le_total a b with h | h
  · rw [Nat.dist_eq_sub_of_le h, abs_sub_comm, Nat.cast_sub h, abs_of_nonneg]
    exact sub_nonneg.mpr (Nat.cast_le.mpr h)
  · rw [Nat.dist_eq_sub_of_le_right h, Nat.cast_sub h, abs_of_nonneg]
    exact sub_nonneg.mpr (Nat.cast_le.mpr h)

theorem held_nearest {m : Nat} (h : IsSignificant 53 m) (bytes : Nat) :
    |(held bytes : ℚ) - bytes| ≤ |(m : ℚ) - bytes| := by
  rw [abs_sub_natCast, abs_sub_natCast, Nat.cast_le]
  exact toSignificant_nearest (by decide) h bytes

-- Rounding to whole units adds at most one half.
private theorem amount_near (bytes : Nat) :
    |(amount bytes : ℚ) - bytes / twoTo (10 * unitIndex bytes)| ≤
      1 / 2 + |(held bytes : ℚ) - bytes| / twoTo (10 * unitIndex bytes) := by
  generalize hu : twoTo (10 * unitIndex bytes) = u
  have hpos : (0 : ℚ) < u := Nat.cast_pos.mpr (hu ▸ twoTo_pos _)
  have hround : |((amount bytes * u : Nat) : ℚ) - held bytes| / u ≤ 1 / 2 := by
    have hdist : Nat.dist (amount bytes * u) (held bytes) * 2 ≤ u := by
      have hnear := roundHalfEven_near (hu ▸ twoTo_pos _ : 0 < u) (held bytes)
      unfold Nat.dist amount
      rw [hu]
      omega
    rw [abs_sub_natCast, div_le_div_iff₀ hpos two_pos, one_mul]
    exact_mod_cast hdist
  have hscale : (amount bytes : ℚ) - bytes / u = (((amount bytes * u : Nat) : ℚ) - bytes) / u := by
    rw [Nat.cast_mul, sub_div, mul_div_cancel_right₀ _ hpos.ne']
  calc |(amount bytes : ℚ) - bytes / u| = |((amount bytes * u : Nat) : ℚ) - bytes| / u := by
        rw [hscale, abs_div, abs_of_pos hpos]
    _ ≤ (|((amount bytes * u : Nat) : ℚ) - held bytes| + |(held bytes : ℚ) - bytes|) / u :=
        div_le_div_of_nonneg_right (abs_sub_le _ _ _) hpos.le
    _ = |((amount bytes * u : Nat) : ℚ) - held bytes| / u + |(held bytes : ℚ) - bytes| / u :=
        add_div _ _ _
    _ ≤ 1 / 2 + |(held bytes : ℚ) - bytes| / u := by gcongr

end Distances

section Texts

theorem twoTo_ten_mul (k : Nat) : twoTo (10 * k) = 1024 ^ k := Nat.pow_mul 2 10 k

private theorem units_unitIndex (bytes : Nat) :
    units[unitIndex bytes]? = some (unitName bytes) := by
  have hle := unitIndex_le bytes
  have hin : unitIndex bytes < units.length := Nat.lt_of_le_of_lt hle (by decide)
  rw [unitName, List.getD_eq_getElem?_getD, List.getElem?_eq_getElem hin, Option.getD_some]

-- The text names a number of a unit. Below the last unit the number is at most 1024, and less than
-- that unless the count as held is in the last half of its unit. Above the first unit it is at
-- least one. It is at most one half off, but for what is lost where the count is held in 53 digits.
-- And a larger count never shows as a smaller quantity.
theorem format_measures (bytes : Nat) :
    (∃ unit, units[unitIndex bytes]? = some unit ∧
        format bytes = toString (amount bytes) ++ " " ++ unit) ∧
      (unitIndex bytes < 5 → amount bytes ≤ 1024 ∧
        (amount bytes < 1024 ↔ 2 * held bytes < 2047 * 1024 ^ unitIndex bytes)) ∧
      (0 < unitIndex bytes → 1 ≤ amount bytes) ∧
      |(amount bytes : ℚ) - bytes / 1024 ^ unitIndex bytes| ≤
        1 / 2 + |(held bytes : ℚ) - bytes| / 1024 ^ unitIndex bytes ∧
      IsSignificant 53 (held bytes) ∧
      (∀ m, IsSignificant 53 m → |(held bytes : ℚ) - bytes| ≤ |(m : ℚ) - bytes|) ∧
      ∀ larger, bytes ≤ larger →
        amount bytes * 1024 ^ unitIndex bytes ≤ amount larger * 1024 ^ unitIndex larger := by
  refine ⟨⟨_, units_unitIndex bytes, rfl⟩, fun hbelow => ⟨amount_le hbelow, ?_⟩,
    one_le_amount, ?_, isSignificant_toSignificant (by decide) bytes,
    fun m hm => held_nearest hm bytes, fun larger h => ?_⟩
  · have hfull := amount_eq_iff hbelow
    have hle := amount_le hbelow
    rw [twoTo_ten_mul] at hfull
    omega
  · have hnear := amount_near bytes
    rw [twoTo_ten_mul] at hnear
    exact_mod_cast hnear
  · rw [← twoTo_ten_mul, ← twoTo_ten_mul]
    exact quantity_mono h

-- One byte less than a mebibyte.
theorem amount_below_mebibyte : format 1048575 = "1024 KiB" ∧ units[1]? = some "KiB" ∧
    unitIndex 1048575 = 1 ∧ ¬amount 1048575 < 1024 := by decide

end Texts

end ByteSize
end PageLocalizer
