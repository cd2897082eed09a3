import Mathlib.Data.List.Basic
import Mathlib.Tactic.IntervalCases
import Hefur.Lib.Bytes

/-!
# Numbers in decimal

The decimal writing of a number in bytes, and what tells it from other texts:
it has only digits, at least one, and no zero in front (`head_decimal`).  The
digits give the number back (`foldl_decimal`).
-/

namespace Bytes

/-- A number in decimal. -/
def decimal (n : Nat) : List UInt8 :=
  ascii (Nat.repr n)

/-- A number in decimal, with a minus sign if it is negative. -/
def decimalInt : Int → List UInt8
  | .ofNat n => decimal n
  | .negSucc n => 45 :: decimal (n + 1)

section Digits

/-- The byte of a digit character. -/
theorem toNat_digit {c : Char} (hc : c.isDigit = true) :
    (UInt8.ofNat c.toNat).toNat = c.toNat ∧
      48 ≤ c.toNat ∧ c.toNat ≤ 57 := by
  have hrange : 48 ≤ c.toNat ∧ c.toNat ≤ 57 := by
    simpa [Char.isDigit, UInt32.le_iff_toNat_le] using hc
  refine ⟨?_, hrange⟩
  rw [UInt8.toNat_ofNat']
  omega

theorem decimal_eq (n : Nat) :
    decimal n = (Nat.toDigits 10 n).map fun c => UInt8.ofNat c.toNat := by
  rw [decimal, ascii, Nat.toList_repr]

theorem isDigit_toDigits {n : Nat} {c : Char} (hc : c ∈ Nat.toDigits 10 n) :
    c.isDigit = true :=
  Nat.isDigit_of_mem_toDigits (by omega) (by omega) hc

theorem digit_of_mem_decimal {n : Nat} {b : UInt8} (hb : b ∈ decimal n) :
    48 ≤ b.toNat ∧ b.toNat ≤ 57 := by
  rw [decimal_eq, List.mem_map] at hb
  obtain ⟨c, hc, rfl⟩ := hb
  obtain ⟨hbyte, hlow, hhigh⟩ := toNat_digit (isDigit_toDigits hc)
  omega

theorem decimal_ne_nil (n : Nat) : decimal n ≠ [] := by
  rw [decimal_eq, Ne, List.map_eq_nil_iff]
  exact Nat.toDigits_ne_nil

/-- A number starts with a digit. -/
theorem exists_cons_decimal (n : Nat) :
    ∃ b rest, decimal n = b :: rest ∧ 48 ≤ b.toNat ∧ b.toNat ≤ 57 := by
  obtain ⟨b, rest, hcons⟩ := List.exists_cons_of_ne_nil (decimal_ne_nil n)
  exact ⟨b, rest, hcons, digit_of_mem_decimal (by rw [hcons]; simp)⟩

/-- A number without a remainder, and the digit of the remainder. -/
theorem decimal_of_ten_le {n : Nat} (hn : 10 ≤ n) :
    decimal n =
      decimal (n / 10) ++ [UInt8.ofNat (Nat.digitChar (n % 10)).toNat] := by
  rw [decimal_eq, decimal_eq, Nat.toDigits_of_base_le (by omega) hn,
    List.map_append, List.map_singleton]

/-- A positive number does not start with a zero. -/
theorem head_decimal {n : Nat} (hn : 0 < n) : (decimal n).head? ≠ some 48 := by
  induction n using Nat.strongRecOn with
  | ind n ih =>
      by_cases hten : n < 10
      · interval_cases n <;> decide
      · obtain ⟨b, rest, hcons, -⟩ := exists_cons_decimal (n / 10)
        have hhead := ih (n / 10) (by omega) (by omega)
        rw [hcons] at hhead
        rw [decimal_of_ten_le (by omega), hcons]
        exact hhead

end Digits

section Value

/-- Reading the digits one by one gives the number back. -/
theorem foldl_decimal (n : Nat) :
    (decimal n).foldl (fun acc b => acc * 10 + (b.toNat - 48)) 0 = n := by
  rw [decimal_eq, List.foldl_map]
  refine Eq.trans ?_ Nat.ofDigitChars_ten_toDigits
  rw [Nat.ofDigitChars_eq_foldl]
  apply List.foldl_ext
  intro acc c hc
  rw [(toNat_digit (isDigit_toDigits hc)).1, Nat.mul_comm]
  rfl

theorem decimal_inj {n m : Nat} (h : decimal n = decimal m) : n = m := by
  rw [← foldl_decimal n, ← foldl_decimal m, h]

end Value

end Bytes
