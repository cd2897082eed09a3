import Hefur.Decimal
import Hefur.Lib.Binary64

/-!
# The numbers of the script

How `table-sorter.js` reads the cells of a table and takes their differences.

The numbers of the language are rounded to 64-bit floating point, so that large
numbers that differ may be read as one.  Two numbers that were read are told
apart by their difference all the same: it is rounded too, but never to zero
(`minus_getD`).

* `parseInt_decimal`: numbers below `2 ^ 53` are read as they are.
* `parseByteSize_unit`: the sizes in whole units are read as their bytes.
-/

namespace Hefur
namespace TableSorter

open Bytes

section Integers

/-- A string of the language: its UTF-16 units. -/
abbrev JsString := List UInt16

/-- Stands for the infinite number; the finite ones are below. -/
def infinity : Int :=
  2 ^ 1024

/-- The number of the language for an integer. -/
def number (n : Int) : Int :=
  max (-infinity) (min infinity ⌊Binary64.round n⌋)

/-- What `StrWhiteSpace` of the language skips. -/
def isWhiteSpace (c : UInt16) : Bool :=
  (9 ≤ c.toNat && c.toNat ≤ 13) || (0x2000 ≤ c.toNat && c.toNat ≤ 0x200A) ||
    [0x20, 0xA0, 0x1680, 0x2028, 0x2029, 0x202F, 0x205F, 0x3000,
      0xFEFF].contains c.toNat

/-- The value of a digit or a letter in a number; 36 if it is neither. -/
def digitOf (c : UInt16) : Nat :=
  if 48 ≤ c.toNat ∧ c.toNat ≤ 57 then c.toNat - 48
  else if 65 ≤ c.toNat ∧ c.toNat ≤ 90 then c.toNat - 55
  else if 97 ≤ c.toNat ∧ c.toNat ≤ 122 then c.toNat - 87
  else 36

def sign : JsString → Bool × JsString
  | 45 :: s => (true, s)
  | 43 :: s => (false, s)
  | s => (false, s)

def radix : JsString → Nat × JsString
  | 48 :: 120 :: s => (16, s)
  | 48 :: 88 :: s => (16, s)
  | s => (10, s)

/-- The digits in front of a string, and what follows them. -/
def digits (base : Nat) (s : JsString) : JsString × JsString :=
  s.span fun c => digitOf c < base

def valueOf (base : Nat) (ds : JsString) : Nat :=
  ds.foldl (fun acc c => acc * base + digitOf c) 0

/-- `parseInt` of a string; `none` is `NaN`. -/
def parseInt (s : JsString) : Option Int :=
  let (negative, s) := sign (s.dropWhile isWhiteSpace)
  let (base, s) := radix s
  let (ds, _) := digits base s
  if ds = [] then none
  else
    let value : Int := valueOf base ds
    some (number (if negative then -value else value))

/-- A difference; with `NaN`, and of two equal infinite numbers, it is `NaN`. -/
def minus (a b : Option Int) : Option Int :=
  match a, b with
  | some a, some b =>
      if a = infinity ∨ a = -infinity then if a = b then none else some a
      else if b = infinity ∨ b = -infinity then some (-b)
      else some (number (a - b))
  | _, _ => none

end Integers

section Sizes

/-- `String.replace`: the first place where the pattern stands. -/
def replace (pattern new : JsString) : JsString → JsString
  | [] => if pattern = [] then new else []
  | c :: s =>
      if pattern.isPrefixOf (c :: s) then new ++ (c :: s).drop pattern.length
      else c :: replace pattern new s

/-- The text of a string literal. -/
def js (s : String) : JsString :=
  (ascii s).map UInt8.toUInt16

/-- The units in the order of the replacements, each with its power. -/
def byteUnits : List (String × Nat) :=
  [("YiB", 8), ("ZiB", 7), ("EiB", 6), ("PiB", 5), ("TiB", 4), ("GiB", 3),
    ("MiB", 2), ("KiB", 1), ("B", 0)]

/-- What stands for a unit: `*1024` so many times. -/
def factors : Nat → JsString
  | 0 => []
  | k + 1 => js "*1024" ++ factors k

def expand (s : JsString) : JsString :=
  byteUnits.foldl (fun s unit => replace (js unit.1) (factors unit.2) s) s

/-- The number of the language for a rational one, if it is finite. -/
def finite (q : ℚ) : Option ℚ :=
  if Binary64.round q < infinity then some (Binary64.round q) else none

/-- A decimal literal, with blanks around it. -/
def literal (s : JsString) : Option ℚ :=
  let (whole, s) := digits 10 (s.dropWhile isWhiteSpace)
  let (fraction, s) :=
    match s with
    | 46 :: s => digits 10 s
    | s => ([], s)
  if whole = [] ∨ whole.head? = some 48 ∧ whole.length ≠ 1 ∨
      ¬ s.all isWhiteSpace then none
  else finite (valueOf 10 (whole ++ fraction) / 10 ^ fraction.length)

/-- The product with one more literal. -/
def times (p : ℚ) (s : JsString) : Option ℚ := do
  let q ← literal s
  finite (p * q)

/--
`eval` of a product of decimal literals.  It is `none` for other programs and
if the product is infinite, which reads as `NaN`.
-/
def eval (s : JsString) : Option ℚ :=
  match s.splitOn 42 with
  | [] => none
  | first :: rest => do
      let p ← literal first
      rest.foldlM times p

/--
`parseInt` of a number, which reads its text.  The text of a positive number
from `10 ^ (-6)` on and below `10 ^ 21` starts with its integer part; the others
have an exponent and are left out.
-/
def parseNumber (q : ℚ) : Option Int :=
  if q = 0 ∨ 1 / 10 ^ 6 ≤ q ∧ q < 10 ^ 21 then some ⌊q⌋ else none

def parseByteSize (s : JsString) : Option Int :=
  (eval (expand s)).bind parseNumber

end Sizes

section Differences

theorem lt_infinity : 10 ^ 21 < infinity :=
  calc (10 ^ 21 : Int) < 2 ^ 70 := by norm_num
    _ ≤ infinity := pow_le_pow_right₀ (by norm_num) (by norm_num)

/-- What a number lies between. -/
def InRange (n : Int) : Prop :=
  -infinity ≤ n ∧ n ≤ infinity

variable {n a b : Int} {s : JsString}

theorem inRange_number (n : Int) : InRange (number n) := by
  have hlarge := lt_infinity
  rw [InRange, number]
  omega

/-- Integers of 53 bits are numbers of the language. -/
theorem number_eq (hn : n.natAbs < 2 ^ 53) : number n = n := by
  have hlarge := lt_infinity
  rw [number, Binary64.round_intCast hn, Int.floor_intCast]
  omega

theorem number_pos (hn : 0 < n) : 0 < number n := by
  have hfloor : 1 ≤ ⌊Binary64.round n⌋ :=
    Int.le_floor.mpr (by exact_mod_cast Binary64.one_le_round hn)
  have hlarge := lt_infinity
  rw [number]
  omega

theorem number_neg (hn : n < 0) : number n < 0 := by
  have hfloor : ⌊Binary64.round n⌋ < 0 :=
    Int.floor_lt.mpr
      (lt_of_le_of_lt (Binary64.round_le_neg_one hn) (by norm_num))
  have hlarge := lt_infinity
  rw [number]
  omega

/-- **A difference compares two numbers.** -/
theorem minus_getD (ha : InRange a) (hb : InRange b) :
    ((minus (some a) (some b)).getD 0 < 0 ↔ a < b) ∧
      (0 < (minus (some a) (some b)).getD 0 ↔ b < a) := by
  obtain ⟨halow, hahigh⟩ := ha
  obtain ⟨hblow, hbhigh⟩ := hb
  have hlarge := lt_infinity
  simp only [minus]
  split_ifs with hainf hsame hbinf
  · simp [hsame]
  · simp only [Option.getD_some]
    omega
  · simp only [Option.getD_some]
    omega
  · simp only [Option.getD_some]
    rcases lt_trichotomy a b with hlt | rfl | hgt
    · have hneg := number_neg (n := a - b) (by omega)
      omega
    · simp [number_eq]
    · have hgreater := number_pos (n := a - b) (by omega)
      omega

theorem minus_eq (ha : a.natAbs < 2 ^ 52) (hb : b.natAbs < 2 ^ 52) :
    minus (some a) (some b) = some (a - b) := by
  have hlarge := lt_infinity
  simp only [minus]
  rw [if_neg (by omega), if_neg (by omega), number_eq (by omega)]

theorem inRange_parseInt (h : parseInt s = some n) : InRange n := by
  simp only [parseInt] at h
  split at h
  · cases h
  · obtain rfl := Option.some.inj h
    exact inRange_number _

theorem inRange_parseByteSize (h : parseByteSize s = some n) :
    InRange n := by
  have hlarge := lt_infinity
  obtain ⟨q, -, hq⟩ := Option.bind_eq_some_iff.mp h
  rw [parseNumber] at hq
  split at hq
  · rename_i hrange
    obtain rfl := Option.some.inj hq
    have hfloor : 0 ≤ ⌊q⌋ ∧ ⌊q⌋ < 10 ^ 21 := by
      rcases hrange with rfl | ⟨hlow, hhigh⟩
      · simp
      · refine ⟨Int.floor_nonneg.mpr (le_trans (by norm_num) hlow), ?_⟩
        exact Int.floor_lt.mpr (by exact_mod_cast hhigh)
    rw [InRange]
    omega
  · cases hq

end Differences

section Decimals

/-- A unit that is a decimal digit. -/
def IsDecimal (c : UInt16) : Prop :=
  48 ≤ c.toNat ∧ c.toNat ≤ 57

instance (c : UInt16) : Decidable (IsDecimal c) :=
  inferInstanceAs (Decidable (_ ∧ _))

/-- The text of a number that the server prints. -/
def decimalText (n : Nat) : JsString :=
  (decimal n).map UInt8.toUInt16

variable {c : UInt16} {s t : JsString}

theorem digitOf_decimal (hc : IsDecimal c) :
    digitOf c = c.toNat - 48 ∧ digitOf c < 10 := by
  obtain ⟨hlow, hhigh⟩ := hc
  rw [digitOf, if_pos ⟨hlow, hhigh⟩]
  omega

theorem isWhiteSpace_decimal (hc : IsDecimal c) : isWhiteSpace c = false := by
  obtain ⟨hlow, hhigh⟩ := hc
  simp [isWhiteSpace]
  omega

theorem sign_decimal (hc : IsDecimal c) : sign (c :: s) = (false, c :: s) := by
  have hlow := hc.1
  unfold sign
  split
  · rename_i heq
    obtain ⟨rfl, -⟩ := List.cons.inj heq
    exact absurd hlow (by decide)
  · rename_i heq
    obtain ⟨rfl, -⟩ := List.cons.inj heq
    exact absurd hlow (by decide)
  · rfl

/-- Digits have no mark of another base. -/
theorem radix_decimal (hs : ∀ c ∈ s, IsDecimal c) : radix s = (10, s) := by
  unfold radix
  split
  · exact absurd (hs 120 (by simp)).2 (by decide)
  · exact absurd (hs 88 (by simp)).2 (by decide)
  · rfl

/-- Digits are read up to their end. -/
theorem digits_decimal (hs : ∀ c ∈ s, IsDecimal c) : digits 10 s = (s, []) := by
  have hall : ∀ c ∈ s, decide (digitOf c < 10) = true := fun c hc => by
    simpa using (digitOf_decimal (hs c hc)).2
  rw [digits, List.span_eq_takeWhile_dropWhile,
    List.takeWhile_eq_self_iff.mpr hall, List.dropWhile_eq_nil_iff.mpr hall]

theorem isDecimal_decimalText {n : Nat} (hc : c ∈ decimalText n) :
    IsDecimal c := by
  obtain ⟨b, hb, rfl⟩ := List.mem_map.mp hc
  simpa [IsDecimal] using digit_of_mem_decimal hb

theorem valueOf_decimalText (n : Nat) : valueOf 10 (decimalText n) = n := by
  rw [valueOf, decimalText, List.foldl_map]
  refine Eq.trans (List.foldl_ext _ _ 0 fun acc b hb => ?_) (foldl_decimal n)
  have hdecimal : IsDecimal b.toUInt16 :=
    isDecimal_decimalText (List.mem_map_of_mem hb)
  rw [(digitOf_decimal hdecimal).1, UInt8.toNat_toUInt16]

theorem decimalText_ne_nil (n : Nat) : decimalText n ≠ [] := by
  simpa [decimalText] using decimal_ne_nil n

theorem dropWhile_decimalText (n : Nat) :
    (decimalText n).dropWhile isWhiteSpace = decimalText n := by
  obtain ⟨c, s, hcons⟩ := List.exists_cons_of_ne_nil (decimalText_ne_nil n)
  have hc : IsDecimal c := isDecimal_decimalText (n := n) (by simp [hcons])
  rw [hcons, List.dropWhile_cons_of_neg (by simp [isWhiteSpace_decimal hc])]

theorem sign_decimalText (n : Nat) :
    sign (decimalText n) = (false, decimalText n) := by
  obtain ⟨c, s, hcons⟩ := List.exists_cons_of_ne_nil (decimalText_ne_nil n)
  rw [hcons]
  exact sign_decimal (isDecimal_decimalText (n := n) (by simp [hcons]))

/-- `parseInt` reads the number of the language for what the server prints. -/
theorem parseInt_decimalText (n : Nat) :
    parseInt (decimalText n) = some (number n) := by
  have hdecimal : ∀ c ∈ decimalText n, IsDecimal c :=
    fun c hc => isDecimal_decimalText hc
  simp only [parseInt, dropWhile_decimalText, sign_decimalText,
    radix_decimal hdecimal, digits_decimal hdecimal, valueOf_decimalText]
  rw [if_neg (decimalText_ne_nil n)]
  rfl

/-- `parseInt` reads numbers of 53 bits as they are. -/
theorem parseInt_decimal {n : Nat} (hn : n < 2 ^ 53) :
    parseInt (decimalText n) = some (n : Int) := by
  rw [parseInt_decimalText, number_eq (by omega)]

/-- Above 53 bits two numbers may be read as one. -/
example : parseInt (decimalText 9007199254740993) =
    parseInt (decimalText 9007199254740992) := by
  rw [parseInt_decimalText, parseInt_decimalText]
  decide +kernel

end Decimals

section Units

variable {c : UInt16} {p s t : JsString}

theorem replace_absent {new : JsString} (hc : c ∉ s) :
    replace (c :: p) new s = s := by
  induction s with
  | nil =>
      rfl
  | cons d s ih =>
      obtain ⟨hne, hrest⟩ := not_or.mp (mt List.mem_cons.mpr hc)
      rw [replace, if_neg (by simp [hne]), ih hrest]

theorem replace_append {new : JsString} (hc : c ∉ s) :
    replace (c :: p) new (s ++ c :: p) = s ++ new := by
  induction s with
  | nil =>
      simp [replace]
  | cons d s ih =>
      obtain ⟨hne, hrest⟩ := not_or.mp (mt List.mem_cons.mpr hc)
      rw [List.cons_append, replace, if_neg (by simp [hne]), ih hrest]
      rfl

theorem not_mem_decimalText {n : Nat} (hc : ¬ IsDecimal c) :
    c ∉ decimalText n :=
  fun hmem => hc (isDecimal_decimalText hmem)

theorem not_mem_factors (hc : c ∉ js "*1024") (k : Nat) : c ∉ factors k := by
  induction k with
  | zero =>
      simp [factors]
  | succ k ih =>
      simp [factors, hc, ih]

/-- The first letter of a unit. -/
def letter (unit : String × Nat) : UInt16 :=
  (js unit.1).headD 0

/-- A unit starts with a letter that stands in no unit after it. -/
theorem pairwise_byteUnits :
    byteUnits.Pairwise fun u v => letter u ∉ js v.1 := by
  decide

theorem letter_byteUnits : ∀ u ∈ byteUnits,
    js u.1 ≠ [] ∧ ¬ IsDecimal (letter u) ∧ letter u ∉ js "*1024" := by
  decide

theorem js_eq_cons {unit : String × Nat} (hne : js unit.1 ≠ []) :
    ∃ p, js unit.1 = letter unit :: p := by
  obtain ⟨c, p, hcons⟩ := List.exists_cons_of_ne_nil hne
  exact ⟨p, by rw [letter, hcons, List.headD_cons]⟩

/-- Units that do not stand behind a number replace nothing. -/
theorem foldl_replace_absent {us : List (String × Nat)} {n : Nat}
    (h : ∀ u ∈ us, js u.1 ≠ [] ∧ ¬ IsDecimal (letter u) ∧ letter u ∉ s) :
    us.foldl (fun s u => replace (js u.1) (factors u.2) s)
      (decimalText n ++ s) = decimalText n ++ s := by
  induction us with
  | nil =>
      rfl
  | cons u us ih =>
      obtain ⟨hne, hnumber, hs⟩ := h u List.mem_cons_self
      obtain ⟨p, hcons⟩ := js_eq_cons hne
      have habsent : letter u ∉ decimalText n ++ s := by
        simp [not_mem_decimalText hnumber, hs]
      rw [List.foldl_cons, hcons, replace_absent habsent]
      exact ih fun v hv => h v (List.mem_cons_of_mem u hv)

/-- What the replacements make of a whole number of a unit. -/
theorem expand_unit {unit : String × Nat} (hunit : unit ∈ byteUnits) (n : Nat) :
    expand (decimalText n ++ js unit.1) = decimalText n ++ factors unit.2 := by
  obtain ⟨hne, hnumber, -⟩ := letter_byteUnits unit hunit
  obtain ⟨p, hcons⟩ := js_eq_cons hne
  have hletter := letter_byteUnits
  have hpairwise := pairwise_byteUnits
  obtain ⟨before, after, hsplit⟩ := List.append_of_mem hunit
  rw [hsplit] at hletter hpairwise
  have hbefore : ∀ u ∈ before,
      js u.1 ≠ [] ∧ ¬ IsDecimal (letter u) ∧ letter u ∉ js unit.1 := by
    intro u hu
    obtain ⟨hne, hnumber, -⟩ := hletter u (by simp [hu])
    exact ⟨hne, hnumber,
      (List.pairwise_append.mp hpairwise).2.2 u hu unit (by simp)⟩
  have hafter : ∀ u ∈ after,
      js u.1 ≠ [] ∧ ¬ IsDecimal (letter u) ∧ letter u ∉ factors unit.2 := by
    intro u hu
    obtain ⟨hne, hnumber, hfactor⟩ := hletter u (by simp [hu])
    exact ⟨hne, hnumber, not_mem_factors hfactor _⟩
  rw [expand, hsplit, List.foldl_append, foldl_replace_absent hbefore,
    List.foldl_cons, hcons, replace_append (not_mem_decimalText hnumber),
    foldl_replace_absent hafter]

theorem splitOn_factors (hs : 42 ∉ s) (k : Nat) :
    (s ++ factors k).splitOn 42 = s :: List.replicate k (js "1024") := by
  induction k generalizing s with
  | zero =>
      rw [factors, List.append_nil, List.splitOn_eq_singleton hs]
      rfl
  | succ k ih =>
      have hfactors : factors (k + 1) = 42 :: (js "1024" ++ factors k) := rfl
      rw [hfactors, List.splitOn_append_cons_self_of_not_mem hs,
        ih (by decide)]
      rfl

/-- A printed number is a literal, as it has no zero in front. -/
theorem literal_decimalText (n : Nat) : literal (decimalText n) = finite n := by
  have hdigits := digits_decimal fun c (hc : c ∈ decimalText n) =>
    isDecimal_decimalText hc
  have hzero : ¬ ((decimalText n).head? = some 48 ∧
      (decimalText n).length ≠ 1) := by
    rintro ⟨hhead, hlength⟩
    rcases Nat.eq_zero_or_pos n with rfl | hn
    · exact hlength rfl
    · rw [decimalText, List.head?_map, Option.map_eq_some_iff] at hhead
      obtain ⟨b, hb, hbyte⟩ := hhead
      have hb48 : b = 48 := UInt8.toUInt16_inj.mp hbyte
      exact head_decimal hn (hb48 ▸ hb)
  simp only [literal, dropWhile_decimalText, hdigits]
  rw [if_neg (by simp [decimalText_ne_nil, hzero]), List.append_nil,
    valueOf_decimalText]
  simp

/-- A number of 53 bits times a power of 1024 is a number of the language. -/
theorem finite_pow {n k : Nat} (hn : n < 2 ^ 53)
    (hsize : n * 1024 ^ k < 10 ^ 21) :
    finite (n * 1024 ^ k : Nat) = some ((n * 1024 ^ k : Nat) : ℚ) := by
  have hpow : ((n * 1024 ^ k : Nat) : ℚ) = ((n * 2 ^ (10 * k) : Int) : ℚ) := by
    rw [pow_mul]
    norm_num
  have hround : Binary64.round ((n * 1024 ^ k : Nat) : ℚ) =
      (n * 1024 ^ k : Nat) := by
    rw [hpow]
    exact Binary64.round_mul_pow (by omega) _
  have hfinite : ((n * 1024 ^ k : Nat) : ℚ) < infinity := by
    have hlarge := lt_infinity
    have hlt : ((n * 1024 ^ k : Nat) : Int) < infinity := by omega
    exact_mod_cast hlt
  rw [finite, hround, if_pos hfinite]

/-- The factors of a unit multiply a number. -/
theorem foldlM_factors {n j : Nat} (hn : n < 2 ^ 53) (k : Nat)
    (hsize : n * 1024 ^ (j + k) < 10 ^ 21) :
    (List.replicate k (js "1024")).foldlM times ((n * 1024 ^ j : Nat) : ℚ) =
      some ((n * 1024 ^ (j + k) : Nat) : ℚ) := by
  induction k generalizing j with
  | zero =>
      rfl
  | succ k ih =>
      have hj : j + (k + 1) = j + 1 + k := by omega
      rw [hj] at hsize ⊢
      have hone : literal (js "1024") = some 1024 := by
        have hfinite := finite_pow (n := 1024) (k := 0) (by norm_num)
          (by norm_num)
        exact (literal_decimalText 1024).trans (by simpa using hfinite)
      have hle : n * 1024 ^ (j + 1) ≤ n * 1024 ^ (j + 1 + k) :=
        Nat.mul_le_mul_left n (Nat.pow_le_pow_right (by norm_num) (by omega))
      have hproduct : ((n * 1024 ^ j : Nat) : ℚ) * 1024 =
          (n * 1024 ^ (j + 1) : Nat) := by
        push_cast
        ring
      have htimes : times (n * 1024 ^ j : Nat) (js "1024") =
          some ((n * 1024 ^ (j + 1) : Nat) : ℚ) := by
        rw [times, hone, Option.bind_eq_bind, Option.bind_some, hproduct,
          finite_pow hn (by omega)]
      rw [List.replicate_succ, List.foldlM_cons, htimes]
      exact ih hsize

/-- **Sizes.**  A whole number of a unit is read as so many bytes. -/
theorem parseByteSize_unit {unit : String × Nat} (hunit : unit ∈ byteUnits)
    {n : Nat} (hn : n < 2 ^ 53) (hsize : n * 1024 ^ unit.2 < 10 ^ 21) :
    parseByteSize (decimalText n ++ js unit.1) =
      some ((n * 1024 ^ unit.2 : Nat) : Int) := by
  have hstar : 42 ∉ decimalText n := not_mem_decimalText (by decide)
  have hle : n * 1024 ^ 0 ≤ n * 1024 ^ unit.2 :=
    Nat.mul_le_mul_left n (Nat.pow_le_pow_right (by norm_num) (by omega))
  have hfirst := finite_pow (k := 0) hn (by omega)
  have hproduct := foldlM_factors (j := 0) hn unit.2 (by simpa using hsize)
  rw [Nat.pow_zero, Nat.mul_one] at hfirst hproduct
  rw [Nat.zero_add] at hproduct
  have heval : eval (decimalText n ++ factors unit.2) =
      some ((n * 1024 ^ unit.2 : Nat) : ℚ) := by
    simp only [eval, splitOn_factors hstar, literal_decimalText, hfirst]
    exact hproduct
  rw [parseByteSize, expand_unit hunit, heval, Option.bind_some, parseNumber,
    Int.floor_natCast]
  refine if_pos ?_
  rcases Nat.eq_zero_or_pos (n * 1024 ^ unit.2) with hzero | hpos
  · exact Or.inl (by rw [hzero, Nat.cast_zero])
  · have hone : (1 : ℚ) ≤ (n * 1024 ^ unit.2 : Nat) := by exact_mod_cast hpos
    exact Or.inr ⟨le_trans (by norm_num) hone, by exact_mod_cast hsize⟩

end Units

end TableSorter
end Hefur
