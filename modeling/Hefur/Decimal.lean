import Hefur.Lib.Decimal
import Hefur.Http

/-!
# Numbers in a query

A client writes its numbers in decimal.  The readers of the C library give
them back: `strtoll_decimalInt` for numbers of 64 bits, `atoi_decimalInt` for
numbers of 32 bits.
-/

namespace Hefur

open Bytes

section Readers

theorem isDigit_decimal {n : Nat} {b : UInt8} (hb : b ∈ decimal n) :
    isDigit b = true := by
  simpa [isDigit, UInt8.le_iff_toNat_le] using digit_of_mem_decimal hb

theorem digitsValue_decimal (n : Nat) : digitsValue (decimal n) = n :=
  foldl_decimal n

theorem cStr_eq_self {t : Text} (ht : ∀ b ∈ t, b ≠ 0) : cStr t = t := by
  apply List.takeWhile_eq_self_iff.mpr
  intro b hb
  simpa using ht b hb

theorem le_of_isDigit {b : UInt8} (hb : isDigit b = true) :
    48 ≤ b.toNat := by
  simp only [isDigit, Bool.and_eq_true, decide_eq_true_eq,
    UInt8.le_iff_toNat_le] at hb
  exact hb.1

theorem ne_zero_of_isDigit {b : UInt8} (hb : isDigit b = true) : b ≠ 0 := by
  rintro rfl
  exact absurd hb (by decide)

theorem isSpace_of_isDigit {b : UInt8} (hb : isDigit b = true) :
    isSpace b = false := by
  have hlow := le_of_isDigit hb
  simp only [isSpace, Bool.or_eq_false_iff, decide_eq_false_iff_not,
    Bool.and_eq_false_imp, decide_eq_true_eq, UInt8.le_iff_toNat_le]
  refine ⟨?_, fun _ hhigh => ?_⟩
  · rintro rfl
    exact absurd hb (by decide)
  · have hthirteen : (13 : UInt8).toNat = 13 := rfl
    omega

/-- A digit is no sign. -/
theorem splitSign_of_isDigit {b : UInt8} (hb : isDigit b = true) (t : Text) :
    splitSign (b :: t) = (false, b :: t) := by
  unfold splitSign
  split
  · rename_i heq
    obtain ⟨rfl, -⟩ := List.cons.inj heq
    exact absurd hb (by decide)
  · rename_i heq
    obtain ⟨rfl, -⟩ := List.cons.inj heq
    exact absurd hb (by decide)
  · rfl

theorem cStr_decimal (n : Nat) : cStr (decimal n) = decimal n :=
  cStr_eq_self fun _ hb => ne_zero_of_isDigit (isDigit_decimal hb)

theorem takeWhile_decimal (n : Nat) :
    (decimal n).takeWhile isDigit = decimal n :=
  List.takeWhile_eq_self_iff.mpr fun _ hb => isDigit_decimal hb

/-- `strtoll` on digits. -/
theorem strtoll_decimal (n : Nat) :
    strtoll (decimal n) = min (2 ^ 63 - 1) (n : Int) := by
  have hscan : splitSign ((decimal n).dropWhile isSpace) =
      (false, decimal n) := by
    obtain ⟨b, t, hcons⟩ := List.exists_cons_of_ne_nil (decimal_ne_nil n)
    have hb : isDigit b = true := isDigit_decimal (n := n) (by simp [hcons])
    rw [hcons, List.dropWhile_cons_of_neg (by simp [isSpace_of_isDigit hb]),
      splitSign_of_isDigit hb]
  rw [strtoll, cStr_decimal, hscan]
  simp only [takeWhile_decimal, digitsValue_decimal]
  rfl

/-- `strtoll` on a minus sign and digits. -/
theorem strtoll_minus (n : Nat) :
    strtoll (45 :: decimal n) = max (-2 ^ 63) (-(n : Int)) := by
  have hscan : splitSign ((cStr (45 :: decimal n)).dropWhile isSpace) =
      (true, decimal n) := by
    have hstr : cStr (45 :: decimal n) = 45 :: decimal n := by
      rw [cStr, List.takeWhile_cons_of_pos (by decide)]
      exact congrArg _ (cStr_decimal n)
    rw [hstr, List.dropWhile_cons_of_neg (by decide)]
    rfl
  rw [strtoll, hscan]
  simp only [takeWhile_decimal, digitsValue_decimal]
  rfl

/-- `strtoll` reads back every number of 64 bits. -/
theorem strtoll_decimalInt {x : Int}
    (hlow : -2 ^ 63 ≤ x) (hhigh : x < 2 ^ 63) :
    strtoll (decimalInt x) = x := by
  cases x with
  | ofNat n =>
      rw [decimalInt, strtoll_decimal]
      exact min_eq_right (Int.le_sub_one_of_lt hhigh)
  | negSucc n =>
      rw [decimalInt, strtoll_minus]
      exact max_eq_right hlow

/-- `atoi` reads back every number of 32 bits. -/
theorem atoi_decimalInt {x : Int}
    (hlow : -2 ^ 31 ≤ x) (hhigh : x < 2 ^ 31) :
    atoi (decimalInt x) = x := by
  rw [atoi, strtoll_decimalInt (by omega) (by omega),
    wrap32_eq_self hlow hhigh]

/-- A 64-bit field keeps every number that `atoll` reads. -/
theorem ofInt_atoll_decimal {n : Nat} (hn : n < 2 ^ 63) :
    UInt64.ofInt (atoll (decimal n)) = UInt64.ofNat n := by
  have hread : atoll (decimal n) = (n : Int) :=
    strtoll_decimalInt (x := n) (by omega) (by omega)
  have hmod : ((n : Int) % 2 ^ 64).toNat = n % 2 ^ 64 := by omega
  rw [hread, UInt64.ofInt, hmod, UInt64.ofNat_mod_size]

/-- A port keeps what `atoi` reads. -/
theorem ofInt_atoi_decimal (port : UInt16) :
    UInt16.ofInt (atoi (decimal port.toNat)) = port := by
  have hlt := port.toNat_lt
  have hread : atoi (decimal port.toNat) = (port.toNat : Int) :=
    atoi_decimalInt (x := port.toNat) (by omega) (by omega)
  have hmod : ((port.toNat : Int) % 2 ^ 16).toNat = port.toNat := by omega
  rw [hread, UInt16.ofInt, hmod, UInt16.ofNat_toNat]

end Readers

end Hefur
