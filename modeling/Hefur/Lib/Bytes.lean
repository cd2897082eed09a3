import Mathlib.Data.List.Induction
import Mathlib.Data.List.TakeDrop
import Mathlib.Data.List.TakeWhile
import Mathlib.Tactic.Ring

/-!
# Bytes, words and flat memory

* `Block n`: exactly `n` bytes.
* `ofBE`, `toBE`: a number and its `n` bytes, most significant byte first.
* `peek`, `poke`: a read and a write of consecutive bytes in a flat memory,
  the two operations that copying to and from packed structures comes down to.
* `pokeArray`: a write slot by slot; `entries` reads such an array back.

The host is little-endian: `toLE` gives the bytes of a word in memory.
-/

namespace Bytes

/-- Exactly `n` bytes. -/
abbrev Block (n : Nat) :=
  { bs : List UInt8 // bs.length = n }

/-- The bytes of an ASCII text. -/
def ascii (s : String) : List UInt8 :=
  s.toList.map (fun c => UInt8.ofNat c.toNat)

/-- `n` zero bytes. -/
def zeros (n : Nat) : Block n :=
  ⟨List.replicate n 0, List.length_replicate⟩

section Words

/-- The number whose bytes are `bs`, most significant first. -/
def ofBE (bs : List UInt8) : Nat :=
  bs.foldl (fun acc b => acc * 256 + b.toNat) 0

/-- The `n` low bytes of `x`, most significant first. -/
def bytesBE : Nat → Nat → List UInt8
  | 0, _ => []
  | n + 1, x => bytesBE n (x / 256) ++ [UInt8.ofNat x]

@[simp] theorem length_bytesBE (n x : Nat) :
    (bytesBE n x).length = n := by
  induction n generalizing x with
  | zero =>
      rfl
  | succ n ih =>
      simp [bytesBE, ih]

def toBE (n x : Nat) : Block n :=
  ⟨bytesBE n x, length_bytesBE n x⟩

/-- The bytes of an `n`-byte word in the memory of the host. -/
def toLE (n x : Nat) : Block n :=
  ⟨(bytesBE n x).reverse, by simp⟩

/-- The word that the host reads from these bytes. -/
def ofLE (bs : List UInt8) : Nat :=
  ofBE bs.reverse

theorem ofBE_concat (bs : List UInt8) (b : UInt8) :
    ofBE (bs ++ [b]) = ofBE bs * 256 + b.toNat := by
  simp [ofBE]

theorem ofBE_lt (bs : List UInt8) : ofBE bs < 256 ^ bs.length := by
  induction bs using List.reverseRecOn with
  | nil =>
      exact Nat.one_pos
  | append_singleton bs b ih =>
      have hbyte := b.toNat_lt
      rw [ofBE_concat, List.length_append, List.length_singleton, pow_succ]
      omega

theorem ofBE_bytesBE (n x : Nat) :
    ofBE (bytesBE n x) = x % 256 ^ n := by
  induction n generalizing x with
  | zero =>
      simp [bytesBE, ofBE, Nat.mod_one]
  | succ n ih =>
      have hsplit :
          x % 256 ^ (n + 1) = x % 256 + 256 * (x / 256 % 256 ^ n) := by
        rw [pow_succ, Nat.mul_comm, Nat.mod_mul]
      rw [bytesBE, ofBE_concat, ih, hsplit, UInt8.toNat_ofNat']
      omega

theorem ofBE_toBE {n x : Nat} (hx : x < 256 ^ n) :
    ofBE (toBE n x).val = x := by
  rw [toBE, ofBE_bytesBE, Nat.mod_eq_of_lt hx]

theorem ofLE_toLE {n x : Nat} (hx : x < 256 ^ n) :
    ofLE (toLE n x).val = x := by
  rw [ofLE, toLE, List.reverse_reverse, ofBE_bytesBE, Nat.mod_eq_of_lt hx]

end Words

section Memory

/-- The `len` bytes at offset `off` (zeros past the end). -/
def peek (off len : Nat) (m : List UInt8) : Block len :=
  ⟨(m.drop off).takeD len 0, List.takeD_length ..⟩

/-- Overwrite the bytes from offset `off` on. -/
def poke (off : Nat) (bs m : List UInt8) : List UInt8 :=
  m.take off ++ bs ++ m.drop (off + bs.length)

/-- Write the entries of a packed array of `size`-byte slots. -/
def pokeArray {α : Type} (write : Nat → α → List UInt8 → List UInt8)
    (size : Nat) : Nat → List α → List UInt8 → List UInt8
  | _, [], m => m
  | off, x :: xs, m =>
      pokeArray write size (off + size) xs (write off x m)

theorem peek_val
    {off len : Nat} {m : List UInt8}
    (hin : off + len ≤ m.length) :
    (peek off len m).val = (m.drop off).take len := by
  apply List.takeD_eq_take
  rw [List.length_drop]
  omega

theorem length_poke
    {off : Nat} {bs m : List UInt8}
    (hin : off + bs.length ≤ m.length) :
    (poke off bs m).length = m.length := by
  simp only [poke, List.length_append, List.length_take,
    List.length_drop]
  omega

/-- Writes of blocks keep the length, one after the other. -/
theorem length_poke_block
    {off n len : Nat} {b : Block n} {m : List UInt8}
    (hm : m.length = len) (hin : off + n ≤ len) :
    (poke off b.val m).length = len := by
  rw [length_poke (by rw [b.property, hm]; exact hin), hm]

/-- A read inside the bytes that were written reads these. -/
theorem peek_poke_inside
    {off off' len : Nat} {bs m : List UInt8}
    (hlow : off ≤ off') (hhigh : off' + len ≤ off + bs.length)
    (hin : off + bs.length ≤ m.length) :
    peek off' len (poke off bs m) = peek (off' - off) len bs := by
  apply Subtype.ext
  rw [peek_val (by rw [length_poke hin]; omega), peek_val (by omega)]
  have hoff : (m.take off).length = off := by
    rw [List.length_take]
    omega
  rw [poke, List.append_assoc, List.drop_append,
    List.drop_of_length_le (by omega), List.nil_append, hoff,
    List.drop_append_of_le_length (by omega),
    List.take_append_of_le_length (by rw [List.length_drop]; omega)]

/-- A read returns what was written there. -/
theorem peek_poke_same
    {off len : Nat} {bs m : List UInt8}
    (hlen : bs.length = len)
    (hin : off + len ≤ m.length) :
    (peek off len (poke off bs m)).val = bs := by
  subst hlen
  rw [peek_poke_inside (Nat.le_refl off) (Nat.le_refl _) hin,
    peek_val (by omega), Nat.sub_self, List.drop_zero, List.take_length]

/-- A write leaves the bytes in front of it as they were. -/
theorem peek_poke_before
    {off off' len : Nat} {bs m : List UInt8}
    (hbefore : off' + len ≤ off)
    (hin : off + bs.length ≤ m.length) :
    peek off' len (poke off bs m) = peek off' len m := by
  apply Subtype.ext
  rw [peek_val (by rw [length_poke hin]; omega), peek_val (by omega)]
  have hoff : (m.take off).length = off := by
    rw [List.length_take]
    omega
  rw [poke, List.append_assoc, List.drop_append_of_le_length (by omega),
    List.take_append_of_le_length (by rw [List.length_drop]; omega),
    List.drop_take, List.take_take]
  congr 1
  omega

/-- A write leaves the bytes behind it as they were. -/
theorem peek_poke_after
    {off off' len : Nat} {bs m : List UInt8}
    (hafter : off + bs.length ≤ off')
    (hin : off + bs.length ≤ m.length) :
    peek off' len (poke off bs m) = peek off' len m := by
  apply Subtype.ext
  show ((poke off bs m).drop off').takeD len 0 =
    (m.drop off').takeD len 0
  have hfront : (m.take off ++ bs).length = off + bs.length := by
    rw [List.length_append, List.length_take]
    omega
  have hdrop : (poke off bs m).drop off' = m.drop off' := by
    rw [poke, List.drop_append, List.drop_of_length_le (by omega),
      List.nil_append, List.drop_drop, hfront]
    congr 1
    omega
  rw [hdrop]

/-- A read depends on the bytes that it reads. -/
theorem peek_congr
    {off len : Nat} {m m' : List UInt8}
    (hsame : ∀ i, off ≤ i → i < off + len → m[i]? = m'[i]?) :
    peek off len m = peek off len m' := by
  apply Subtype.ext
  show (m.drop off).takeD len 0 = (m'.drop off).takeD len 0
  induction len generalizing off with
  | zero =>
      rfl
  | succ len ih =>
      have hhead := hsame off (Nat.le_refl off) (by omega)
      have htail := @ih (off + 1) fun i hlow hhigh =>
        hsame i (by omega) (by omega)
      rw [List.takeD_succ, List.takeD_succ, List.head?_drop, List.head?_drop,
        List.tail_drop, List.tail_drop, hhead, htail]

/-- A read reads the bytes of a first part of the memory that holds it. -/
theorem peek_take
    {off len n : Nat} {m : List UInt8}
    (hn : off + len ≤ n) (hin : off + len ≤ m.length) :
    peek off len (m.take n) = peek off len m := by
  apply Subtype.ext
  rw [peek_val (by rw [List.length_take]; omega), peek_val hin,
    List.drop_take, List.take_take]
  congr 1
  omega

/-- Two writes next to each other are one write. -/
theorem poke_append
    {off : Nat} {bs bs' m : List UInt8} (hoff : off ≤ m.length) :
    poke off (bs ++ bs') m =
      poke (off + bs.length) bs' (poke off bs m) := by
  have hfront : (m.take off).length = off := by
    rw [List.length_take]
    omega
  have htake : (poke off bs m).take (off + bs.length) = m.take off ++ bs :=
    List.take_left' (by rw [List.length_append, hfront])
  have hdrop : (poke off bs m).drop (off + bs.length + bs'.length) =
      m.drop (off + bs.length + bs'.length) := by
    rw [poke, ← List.drop_drop,
      List.drop_left' (by rw [List.length_append, hfront]), List.drop_drop]
  rw [poke, List.length_append, ← Nat.add_assoc]
  conv_rhs => rw [poke, htake, hdrop]
  rw [List.append_assoc, List.append_assoc, List.append_assoc,
    List.append_assoc]

/-- The bytes from the offset of a write on. -/
theorem drop_poke
    {off : Nat} {bs m : List UInt8} (hoff : off ≤ m.length) :
    (poke off bs m).drop off = bs ++ m.drop (off + bs.length) := by
  rw [poke, List.append_assoc, List.drop_left' (by
    rw [List.length_take]
    omega)]

/-- The bytes behind a write are those that were there. -/
theorem drop_poke_after
    {off n : Nat} {bs m : List UInt8}
    (hn : off + bs.length ≤ n) (hin : off + bs.length ≤ m.length) :
    (poke off bs m).drop n = m.drop n := by
  have hfront : (m.take off ++ bs).length = off + bs.length := by
    rw [List.length_append, List.length_take]
    omega
  have hbehind : (poke off bs m).drop (off + bs.length) =
      m.drop (off + bs.length) := by
    rw [poke, List.drop_left' hfront]
  obtain ⟨k, rfl⟩ := Nat.exists_eq_add_of_le hn
  rw [← List.drop_drop, hbehind, List.drop_drop]

end Memory

section Arrays

variable {α : Type} {write : Nat → α → List UInt8 → List UInt8} {size : Nat}

/-- `write` stays inside its slot of `size` bytes. -/
structure WritesSlot (write : Nat → α → List UInt8 → List UInt8)
    (size : Nat) : Prop where
  length : ∀ (off : Nat) (x : α) {m : List UInt8},
    off + size ≤ m.length → (write off x m).length = m.length
  before : ∀ {off off' len : Nat} (x : α) {m : List UInt8},
    off' + len ≤ off → off + size ≤ m.length →
      peek off' len (write off x m) = peek off' len m

theorem length_pokeArray (hw : WritesSlot write size) (xs : List α) :
    ∀ {off : Nat} {m : List UInt8}, off + size * xs.length ≤ m.length →
      (pokeArray write size off xs m).length = m.length := by
  induction xs with
  | nil =>
      intro off m _
      rfl
  | cons x xs ih =>
      intro off m hin
      rw [List.length_cons, Nat.mul_succ] at hin
      have hslot := hw.length off x (m := m) (by omega)
      rw [pokeArray, ih (by rw [hslot]; omega), hslot]

/-- An array leaves the bytes in front of it as they were. -/
theorem peek_pokeArray_before
    (hw : WritesSlot write size) (xs : List α) {off' len : Nat} :
    ∀ {off : Nat} {m : List UInt8}, off' + len ≤ off →
      off + size * xs.length ≤ m.length →
      peek off' len (pokeArray write size off xs m) = peek off' len m := by
  induction xs with
  | nil =>
      intro off m _ _
      rfl
  | cons x xs ih =>
      intro off m hbefore hin
      rw [List.length_cons, Nat.mul_succ] at hin
      have hslot := hw.length off x (m := m) (by omega)
      rw [pokeArray, ih (by omega) (by rw [hslot]; omega),
        hw.before x hbefore (by omega)]

/-- A part of a slot holds what was written for its entry. -/
theorem peek_pokeArray_slot
    (hw : WritesSlot write size) {a len : Nat} {part : α → List UInt8}
    (hpart : a + len ≤ size)
    (hread : ∀ {off : Nat} (x : α) {m : List UInt8},
      off + size ≤ m.length →
        (peek (off + a) len (write off x m)).val = part x)
    (xs : List α) :
    ∀ {off i : Nat} {x : α} {m : List UInt8}, xs[i]? = some x →
      off + size * xs.length ≤ m.length →
      (peek (off + size * i + a) len (pokeArray write size off xs m)).val =
        part x := by
  induction xs with
  | nil =>
      intro off i x m hx _
      simp at hx
  | cons y xs ih =>
      intro off i x m hx hin
      rw [List.length_cons, Nat.mul_succ] at hin
      have hslot := hw.length off y (m := m) (by omega)
      cases i with
      | zero =>
          rw [List.getElem?_cons_zero] at hx
          obtain rfl := Option.some.inj hx
          rw [pokeArray, Nat.mul_zero, Nat.add_zero,
            peek_pokeArray_before hw xs (by omega) (by rw [hslot]; omega)]
          exact hread y (by omega)
      | succ i =>
          rw [List.getElem?_cons_succ] at hx
          have hnext := @ih (off + size) i x (write off y m) hx
            (by rw [hslot]; omega)
          have hoff : off + size * (i + 1) + a =
              off + size + size * i + a := by
            rw [Nat.mul_succ]
            omega
          rw [pokeArray, hoff]
          exact hnext

/-- An array whose slots are filled is one write of all its entries. -/
theorem pokeArray_eq_poke {bytes : α → List UInt8} (xs : List α)
    (hwrite : ∀ x ∈ xs, (bytes x).length = size ∧
      ∀ {off : Nat} {m : List UInt8}, off + size ≤ m.length →
        write off x m = poke off (bytes x) m) :
    ∀ {off : Nat} {m : List UInt8}, off + size * xs.length ≤ m.length →
      pokeArray write size off xs m = poke off (xs.flatMap bytes) m := by
  induction xs with
  | nil =>
      intro off m _
      simp [pokeArray, poke]
  | cons x xs ih =>
      intro off m hin
      obtain ⟨hsize, hslot⟩ := hwrite x (by simp)
      rw [List.length_cons, Nat.mul_succ] at hin
      rw [pokeArray, hslot (by omega),
        ih (fun y hy => hwrite y (List.mem_cons_of_mem x hy))
          (by rw [length_poke (by omega)]; omega),
        List.flatMap_cons, poke_append (by omega), hsize]

end Arrays

section Entries

/-- The bytes as entries of `n` bytes, if none are left over. -/
def entries (n : Nat) (bs : List UInt8) : Option (List (Block n)) :=
  if bs.length % n = 0 then
    some ((List.range (bs.length / n)).map fun i => peek (n * i) n bs)
  else none

theorem length_flatMap_blocks {n : Nat} (blocks : List (Block n)) :
    (blocks.flatMap Subtype.val).length = n * blocks.length := by
  induction blocks with
  | nil =>
      rfl
  | cons b blocks ih =>
      rw [List.flatMap_cons, List.length_append, ih, b.property,
        List.length_cons, Nat.mul_succ, Nat.add_comm]

theorem peek_flatMap_blocks {n : Nat} (blocks : List (Block n)) :
    ∀ {i : Nat} {b : Block n}, blocks[i]? = some b →
      peek (n * i) n (blocks.flatMap Subtype.val) = b := by
  induction blocks with
  | nil =>
      intro i b hb
      simp at hb
  | cons c blocks ih =>
      intro i b hb
      apply Subtype.ext
      cases i with
      | zero =>
          obtain rfl := Option.some.inj hb
          have hin : n * 0 + n ≤ ((c :: blocks).flatMap Subtype.val).length := by
            rw [length_flatMap_blocks, List.length_cons, Nat.mul_succ]
            omega
          rw [peek_val hin, Nat.mul_zero, List.drop_zero, List.flatMap_cons,
            List.take_left' c.property]
      | succ i =>
          have hdrop : ((c :: blocks).flatMap Subtype.val).drop
              (n * (i + 1)) = (blocks.flatMap Subtype.val).drop (n * i) := by
            rw [List.flatMap_cons, Nat.mul_succ, Nat.add_comm,
              ← List.drop_drop, List.drop_left' c.property]
          show (((c :: blocks).flatMap Subtype.val).drop
            (n * (i + 1))).takeD n 0 = b.val
          rw [hdrop]
          exact congrArg Subtype.val (ih hb)

/-- Blocks that were written one after the other are read back. -/
theorem entries_flatMap {n : Nat} (hn : 0 < n) (blocks : List (Block n)) :
    entries n (blocks.flatMap Subtype.val) = some blocks := by
  rw [entries, length_flatMap_blocks, if_pos (Nat.mul_mod_right n _),
    Nat.mul_div_cancel_left _ hn, Option.some.injEq]
  apply List.ext_getElem?
  intro i
  rw [List.getElem?_map]
  cases hb : blocks[i]? with
  | none =>
      have hout := List.getElem?_eq_none_iff.mp hb
      rw [List.getElem?_eq_none (by rw [List.length_range]; omega)]
      rfl
  | some b =>
      obtain ⟨hin, -⟩ := List.getElem?_eq_some_iff.mp hb
      rw [List.getElem?_range hin]
      exact congrArg some (peek_flatMap_blocks blocks hb)

end Entries

end Bytes
