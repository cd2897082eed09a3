import Hefur.Lib.Decimal

/-!
# Bencode

The bencode format: integers, byte strings, lists and dictionaries.

* `Value.encode`: the bytes of a value.
* `Value.Canonical`: every dictionary of the value has strictly increasing
  keys, in the lexicographic order of bytes, as the format requires.
* `WellFormed`: the bytes are those of one canonical value.
* `Denotes`: the value that bytes encode.

`encode_append_inj`: no encoding is the first part of another, so that bytes
are the encoding of one value at most.  By `wellFormed_encode_iff` they are
well formed exactly if that value is canonical.
-/

namespace Bencoding

open Bytes

inductive Value where
  | int (n : Int)
  | data (bytes : List UInt8)
  | list (items : List Value)
  | dict (entries : List (List UInt8 × Value))

section Encoding

/-- The length of a byte string, a colon, and the bytes. -/
def encodeData (bytes : List UInt8) : List UInt8 :=
  decimal bytes.length ++ 58 :: bytes

mutual

/-- `i…e`, `n:…`, `l…e` and `d…e`. -/
def Value.encode : Value → List UInt8
  | .int n => 105 :: (decimalInt n ++ [101])
  | .data bytes => encodeData bytes
  | .list items => 108 :: (encodeItems items ++ [101])
  | .dict entries => 100 :: (encodeEntries entries ++ [101])

def encodeItems : List Value → List UInt8
  | [] => []
  | v :: items => v.encode ++ encodeItems items

def encodeEntries : List (List UInt8 × Value) → List UInt8
  | [] => []
  | (k, v) :: entries =>
      encodeData k ++ (v.encode ++ encodeEntries entries)

end

end Encoding

/-- The keys of every dictionary are strictly increasing. -/
inductive Value.Canonical : Value → Prop where
  | int (n : Int) : Canonical (.int n)
  | data (bytes : List UInt8) : Canonical (.data bytes)
  | list {items : List Value} (hitems : ∀ v ∈ items, Canonical v) :
      Canonical (.list items)
  | dict {entries : List (List UInt8 × Value)}
      (hkeys : (entries.map Prod.fst).Pairwise (· < ·))
      (hvalues : ∀ entry ∈ entries, Canonical entry.2) :
      Canonical (.dict entries)

/-- Exactly one value, with sorted dictionaries. -/
def WellFormed (bytes : List UInt8) : Prop :=
  ∃ v : Value, v.Canonical ∧ bytes = v.encode

section Numbers

/-- Texts without a separator can be cut off in front of the separator. -/
theorem append_cons_inj {p : UInt8 → Prop} {a b r s : List UInt8}
    {t t' : UInt8} (ha : ∀ x ∈ a, p x) (hb : ∀ x ∈ b, p x)
    (ht : ¬ p t) (ht' : ¬ p t') (h : a ++ t :: r = b ++ t' :: s) :
    a = b ∧ r = s := by
  induction a generalizing b with
  | nil =>
      cases b with
      | nil =>
          exact ⟨rfl, (List.cons.inj h).2⟩
      | cons y b =>
          exact (ht ((List.cons.inj h).1 ▸ hb y (by simp))).elim
  | cons x a ih =>
      cases b with
      | nil =>
          exact (ht' ((List.cons.inj h).1 ▸ ha x (by simp))).elim
      | cons y b =>
          obtain ⟨rfl, hrest⟩ := List.cons.inj h
          obtain ⟨rfl, hend⟩ := ih
            (fun z hz => ha z (List.mem_cons_of_mem x hz))
            (fun z hz => hb z (List.mem_cons_of_mem x hz)) hrest
          exact ⟨rfl, hend⟩

/-- A number ends where its digits end. -/
theorem decimal_append_inj {n m : Nat} {t : UInt8} {r s : List UInt8}
    (ht : 57 < t.toNat) (h : decimal n ++ t :: r = decimal m ++ t :: s) :
    n = m ∧ r = s := by
  have hdigit : ∀ {n : Nat}, ∀ b ∈ decimal n, b.toNat ≤ 57 :=
    fun b hb => (digit_of_mem_decimal hb).2
  obtain ⟨hdecimal, hrest⟩ := append_cons_inj (p := fun b => b.toNat ≤ 57)
    hdigit hdigit (Nat.not_le.mpr ht) (Nat.not_le.mpr ht) h
  exact ⟨decimal_inj hdecimal, hrest⟩

theorem decimalInt_append_inj {n m : Int} {r s : List UInt8}
    (h : decimalInt n ++ 101 :: r = decimalInt m ++ 101 :: s) :
    n = m ∧ r = s := by
  have hend : 57 < (101 : UInt8).toNat := by decide
  have hminus : ∀ (n : Nat) (u v : List UInt8),
      decimal n ++ u ≠ 45 :: v := by
    intro n u v hsign
    obtain ⟨b, rest, hcons, hlow, -⟩ := exists_cons_decimal n
    rw [hcons] at hsign
    rw [(List.cons.inj hsign).1] at hlow
    revert hlow
    decide
  cases n with
  | ofNat n =>
      cases m with
      | ofNat m =>
          obtain ⟨rfl, hrest⟩ := decimal_append_inj hend h
          exact ⟨rfl, hrest⟩
      | negSucc m =>
          exact (hminus _ _ _ h).elim
  | negSucc n =>
      cases m with
      | ofNat m =>
          exact (hminus _ _ _ h.symm).elim
      | negSucc m =>
          obtain ⟨hsucc, hrest⟩ := decimal_append_inj hend (List.cons.inj h).2
          exact ⟨by rw [Nat.succ.inj hsucc], hrest⟩

theorem encodeData_append_inj {d e r s : List UInt8}
    (h : encodeData d ++ r = encodeData e ++ s) : d = e ∧ r = s := by
  rw [encodeData, encodeData, List.append_assoc, List.append_assoc,
    List.cons_append, List.cons_append] at h
  obtain ⟨hlength, hrest⟩ := decimal_append_inj (by decide) h
  exact List.append_inj hrest hlength

end Numbers

section PrefixFree

/-- The first byte tells what kind of value follows. -/
theorem exists_cons_encodeData (d : List UInt8) :
    ∃ b rest, encodeData d = b :: rest ∧ b.toNat ≤ 57 := by
  obtain ⟨b, rest, hcons, -, hhigh⟩ := exists_cons_decimal d.length
  exact ⟨b, rest ++ 58 :: d, by rw [encodeData, hcons]; rfl, hhigh⟩

theorem encodeData_append_ne {d u v : List UInt8} {b : UInt8}
    (hb : 57 < b.toNat) : encodeData d ++ u ≠ b :: v := by
  intro h
  obtain ⟨c, rest, hcons, hlow⟩ := exists_cons_encodeData d
  rw [hcons] at h
  rw [(List.cons.inj h).1] at hlow
  omega

/-- No value starts with the byte that ends a list. -/
theorem encode_append_ne (v : Value) (u w : List UInt8) :
    v.encode ++ u ≠ 101 :: w := by
  cases v with
  | int n => simp [Value.encode]
  | data d => exact encodeData_append_ne (by decide)
  | list items => simp [Value.encode]
  | dict entries => simp [Value.encode]

mutual

/-- **The encoding of a value is no first part of another encoding.** -/
theorem encode_append_inj : ∀ {v w : Value} {r s : List UInt8},
    v.encode ++ r = w.encode ++ s → v = w ∧ r = s
  | .int n, w, r, s, h => by
      cases w with
      | int m =>
          simp only [Value.encode, List.cons_append, List.append_assoc,
            List.nil_append, List.cons.injEq, true_and] at h
          obtain ⟨rfl, hrest⟩ := decimalInt_append_inj h
          exact ⟨rfl, hrest⟩
      | data e => exact (encodeData_append_ne (by decide) h.symm).elim
      | list items => simp [Value.encode] at h
      | dict entries => simp [Value.encode] at h
  | .data d, w, r, s, h => by
      cases w with
      | int m => exact (encodeData_append_ne (by decide) h).elim
      | data e =>
          obtain ⟨rfl, hrest⟩ := encodeData_append_inj h
          exact ⟨rfl, hrest⟩
      | list items => exact (encodeData_append_ne (by decide) h).elim
      | dict entries => exact (encodeData_append_ne (by decide) h).elim
  | .list items, w, r, s, h => by
      cases w with
      | int m => simp [Value.encode] at h
      | data e => exact (encodeData_append_ne (by decide) h.symm).elim
      | list items' =>
          simp only [Value.encode, List.cons_append, List.append_assoc,
            List.nil_append, List.cons.injEq, true_and] at h
          obtain ⟨rfl, hrest⟩ := encodeItems_append_inj h
          exact ⟨rfl, hrest⟩
      | dict entries => simp [Value.encode] at h
  | .dict entries, w, r, s, h => by
      cases w with
      | int m => simp [Value.encode] at h
      | data e => exact (encodeData_append_ne (by decide) h.symm).elim
      | list items => simp [Value.encode] at h
      | dict entries' =>
          simp only [Value.encode, List.cons_append, List.append_assoc,
            List.nil_append, List.cons.injEq, true_and] at h
          obtain ⟨rfl, hrest⟩ := encodeEntries_append_inj h
          exact ⟨rfl, hrest⟩

theorem encodeItems_append_inj : ∀ {xs ys : List Value} {r s : List UInt8},
    encodeItems xs ++ 101 :: r = encodeItems ys ++ 101 :: s →
      xs = ys ∧ r = s
  | [], ys, r, s, h => by
      cases ys with
      | nil => exact ⟨rfl, (List.cons.inj h).2⟩
      | cons y ys =>
          rw [encodeItems, encodeItems, List.append_assoc] at h
          exact (encode_append_ne y _ _ h.symm).elim
  | x :: xs, ys, r, s, h => by
      cases ys with
      | nil =>
          rw [encodeItems, encodeItems, List.append_assoc] at h
          exact (encode_append_ne x _ _ h).elim
      | cons y ys =>
          rw [encodeItems, encodeItems, List.append_assoc,
            List.append_assoc] at h
          obtain ⟨rfl, hrest⟩ := encode_append_inj h
          obtain ⟨rfl, hend⟩ := encodeItems_append_inj hrest
          exact ⟨rfl, hend⟩

theorem encodeEntries_append_inj :
    ∀ {xs ys : List (List UInt8 × Value)} {r s : List UInt8},
    encodeEntries xs ++ 101 :: r = encodeEntries ys ++ 101 :: s →
      xs = ys ∧ r = s
  | [], ys, r, s, h => by
      cases ys with
      | nil => exact ⟨rfl, (List.cons.inj h).2⟩
      | cons y ys =>
          rw [encodeEntries, encodeEntries, List.append_assoc] at h
          exact (encodeData_append_ne (by decide) h.symm).elim
  | (k, v) :: xs, ys, r, s, h => by
      cases ys with
      | nil =>
          rw [encodeEntries, encodeEntries, List.append_assoc] at h
          exact (encodeData_append_ne (by decide) h).elim
      | cons y ys =>
          obtain ⟨l, w⟩ := y
          rw [encodeEntries, encodeEntries, List.append_assoc,
            List.append_assoc, List.append_assoc, List.append_assoc] at h
          obtain ⟨rfl, hvalue⟩ := encodeData_append_inj h
          obtain ⟨rfl, hrest⟩ := encode_append_inj hvalue
          obtain ⟨rfl, hend⟩ := encodeEntries_append_inj hrest
          exact ⟨rfl, hend⟩

end

/-- The bytes are the encoding of this value and of no other. -/
def Denotes (bytes : List UInt8) (v : Value) : Prop :=
  bytes = v.encode ∧ ∀ w : Value, bytes = w.encode → w = v

theorem denotes_encode (v : Value) : Denotes v.encode v := by
  refine ⟨rfl, ?_⟩
  intro w hbytes
  exact (encode_append_inj (r := []) (s := [])
    (congrArg (· ++ []) hbytes)).1.symm

/-- Encoded bytes are well formed exactly if their value is canonical. -/
theorem wellFormed_encode_iff {v : Value} :
    WellFormed v.encode ↔ v.Canonical := by
  constructor
  · rintro ⟨w, hw, hbytes⟩
    have hvalue := (denotes_encode v).2 w hbytes
    exact hvalue ▸ hw
  · intro hv
    exact ⟨v, hv, rfl⟩

end PrefixFree

end Bencoding
