import Mathlib.Data.Int.Log
import Mathlib.Data.Rat.Floor

/-!
# Rounding to 64-bit floating point numbers

A finite number of the binary64 format is an integer times a power of two, with
53 significant bits and no bit below `2 ^ (-1074)`.  `round` gives the number
that is nearest to a rational one; of two it takes the one whose last bit is
zero.

* `round_intCast` and `round_mul_pow`: integers below `2 ^ 53`, and these times
  a power of two, are numbers of the format.
* `one_le_round` and `round_le_neg_one`: rounding keeps the sign of integers.
-/

namespace Binary64

/-- The nearest integer; of two the even one. -/
def nearest (q : ℚ) : ℤ :=
  if q - ⌊q⌋ < 1 / 2 then ⌊q⌋
  else if 1 / 2 < q - ⌊q⌋ then ⌊q⌋ + 1
  else if ⌊q⌋ % 2 = 0 then ⌊q⌋
  else ⌊q⌋ + 1

/-- The place of the last bit that is kept of `q`. -/
def lastBit (q : ℚ) : ℤ :=
  max (Int.log 2 |q| - 52) (-1074)

/-- The number of the format that is nearest to `q`. -/
def round (q : ℚ) : ℚ :=
  nearest (q / 2 ^ lastBit q) * 2 ^ lastBit q

section Nearest

variable {q : ℚ} {n : ℤ}

theorem nearest_mem (q : ℚ) : nearest q = ⌊q⌋ ∨ nearest q = ⌊q⌋ + 1 := by
  unfold nearest
  split_ifs <;> simp

theorem le_nearest (h : (n : ℚ) ≤ q) : n ≤ nearest q := by
  have hfloor : n ≤ ⌊q⌋ := Int.le_floor.mpr h
  rcases nearest_mem q with heq | heq <;> omega

theorem nearest_intCast (n : ℤ) : nearest (n : ℚ) = n := by
  rw [nearest, Int.floor_intCast, sub_self, if_pos (by norm_num)]

theorem nearest_le (h : q ≤ n) : nearest q ≤ n := by
  rcases h.lt_or_eq with hlt | rfl
  · have hfloor : ⌊q⌋ < n := Int.floor_lt.mpr hlt
    rcases nearest_mem q with heq | heq <;> omega
  · exact le_of_eq (nearest_intCast n)

end Nearest

section Integers

variable {n : ℤ}

/-- The first bit of an integer is kept. -/
theorem lastBit_intCast (n : ℤ) :
    lastBit (n : ℚ) = Nat.log 2 n.natAbs - 52 := by
  have hlog : Int.log 2 |(n : ℚ)| = Nat.log 2 n.natAbs := by
    rw [← Int.cast_abs, ← Int.natCast_natAbs, Int.cast_natCast,
      Int.log_natCast]
  rw [lastBit, hlog]
  omega

/-- The power of two below an integer, in units of its last bit. -/
theorem pow_log_div (n : ℤ) :
    (2 : ℚ) ^ Nat.log 2 n.natAbs / 2 ^ lastBit (n : ℚ) = (2 ^ 52 : ℤ) := by
  rw [lastBit_intCast, ← zpow_natCast, ← zpow_sub₀ (by norm_num)]
  norm_num

theorem pow_log_le (hn : n ≠ 0) : (2 : ℤ) ^ Nat.log 2 n.natAbs ≤ n.natAbs := by
  exact_mod_cast Nat.pow_log_le_self 2 (Int.natAbs_ne_zero.mpr hn)

/-- A positive integer is not rounded below one. -/
theorem one_le_round (hn : 0 < n) : 1 ≤ round (n : ℚ) := by
  have hunit : (0 : ℚ) < 2 ^ lastBit (n : ℚ) := zpow_pos two_pos _
  have hpow : ((2 : ℚ) ^ Nat.log 2 n.natAbs) ≤ n := by
    have hle := pow_log_le (n := n) (by omega)
    rw [Int.natAbs_of_nonneg (by omega)] at hle
    exact_mod_cast hle
  have hbits : ((2 ^ 52 : ℤ) : ℚ) ≤ n / 2 ^ lastBit (n : ℚ) := by
    rw [← pow_log_div n]
    gcongr
  have hnearest : ((2 ^ 52 : ℤ) : ℚ) ≤ nearest (n / 2 ^ lastBit (n : ℚ)) :=
    Int.cast_le.mpr (le_nearest hbits)
  calc (1 : ℚ) ≤ 2 ^ Nat.log 2 n.natAbs := one_le_pow₀ (by norm_num)
    _ = (2 ^ 52 : ℤ) * 2 ^ lastBit (n : ℚ) := by
        rw [← pow_log_div n, div_mul_cancel₀ _ hunit.ne']
    _ ≤ round (n : ℚ) := by
        rw [round]
        gcongr

/-- A negative integer is not rounded above minus one. -/
theorem round_le_neg_one (hn : n < 0) : round (n : ℚ) ≤ -1 := by
  have hunit : (0 : ℚ) < 2 ^ lastBit (n : ℚ) := zpow_pos two_pos _
  have hpow : (n : ℚ) ≤ -(2 ^ Nat.log 2 n.natAbs) := by
    have hle := pow_log_le (n := n) (by omega)
    have habs : (n.natAbs : ℤ) = -n := by omega
    rw [habs] at hle
    have hneg : n ≤ -(2 ^ Nat.log 2 n.natAbs) := by omega
    exact_mod_cast hneg
  have hbits : n / 2 ^ lastBit (n : ℚ) ≤ ((-2 ^ 52 : ℤ) : ℚ) := by
    rw [Int.cast_neg, ← pow_log_div n, ← neg_div]
    gcongr
  have hnearest : (nearest (n / 2 ^ lastBit (n : ℚ)) : ℚ) ≤ (-2 ^ 52 : ℤ) :=
    Int.cast_le.mpr (nearest_le hbits)
  calc round (n : ℚ) ≤ (-2 ^ 52 : ℤ) * 2 ^ lastBit (n : ℚ) := by
        rw [round]
        gcongr
    _ = -(2 ^ Nat.log 2 n.natAbs) := by
        rw [Int.cast_neg, ← pow_log_div n, neg_mul,
          div_mul_cancel₀ _ hunit.ne']
    _ ≤ -1 := neg_le_neg (one_le_pow₀ (by norm_num))

theorem log_mul_pow (hn : n ≠ 0) (k : ℕ) :
    Nat.log 2 (n * 2 ^ k).natAbs = Nat.log 2 n.natAbs + k := by
  induction k with
  | zero =>
      simp
  | succ k ih =>
      have hne : (n * 2 ^ k).natAbs ≠ 0 := by simp [hn]
      have hsucc : (n * 2 ^ (k + 1)).natAbs = (n * 2 ^ k).natAbs * 2 := by
        rw [pow_succ, ← mul_assoc, Int.natAbs_mul]
        rfl
      rw [hsucc, Nat.log_mul_base (by norm_num) hne, ih, add_assoc]

/-- A number whose bits from the last one on are an integer stays as it is. -/
theorem round_of_div_eq {q : ℚ} {m : ℤ} (h : q / 2 ^ lastBit q = m) :
    round q = q := by
  rw [round, h, nearest_intCast, ← h,
    div_mul_cancel₀ _ (zpow_pos two_pos _).ne']

/-- An integer of 53 bits, shifted to the left, is a number of the format. -/
theorem round_mul_pow (hn : n.natAbs < 2 ^ 53) (k : ℕ) :
    round ((n * 2 ^ k : ℤ) : ℚ) = (n * 2 ^ k : ℤ) := by
  by_cases hzero : n = 0
  · have hnone : ((n * 2 ^ k : ℤ) : ℚ) = 0 := by simp [hzero]
    exact round_of_div_eq (m := 0) (by rw [hnone, zero_div, Int.cast_zero])
  · have hlog : Nat.log 2 n.natAbs < 53 :=
      (Nat.log_lt_iff_lt_pow (by norm_num)
        (Int.natAbs_ne_zero.mpr hzero)).mpr hn
    have hlast : lastBit ((n * 2 ^ k : ℤ) : ℚ) =
        k - (52 - Nat.log 2 n.natAbs : ℕ) := by
      rw [lastBit_intCast, log_mul_pow hzero]
      omega
    apply round_of_div_eq (m := n * 2 ^ (52 - Nat.log 2 n.natAbs))
    rw [hlast, zpow_sub₀ (by norm_num), zpow_natCast, zpow_natCast]
    push_cast
    field_simp

/-- An integer of 53 bits is a number of the format. -/
theorem round_intCast (hn : n.natAbs < 2 ^ 53) : round (n : ℚ) = n := by
  simpa using round_mul_pow hn 0

end Integers

end Binary64
