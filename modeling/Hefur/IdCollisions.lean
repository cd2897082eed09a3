import Mathlib.Combinatorics.Pigeonhole
import Hefur.ConnectionLifetime

/-!
# Connection ids of different addresses

The id of an IPv4 address is the sum of four terms, one for each of its bytes,
none of which exceeds 16 bits.  The sum never wraps (`toNat_id4`) and
has 18 bits at most, so that an id is shared by many addresses under every
secret (`exists_shared_total`).

What the sum does tell apart are addresses that differ in one byte only, as long
as the secret byte that multiplies it is not zero (`id4_ne_iff`).
-/

namespace Hefur
namespace UdpServer

open Bytes

section Sum

/-- The id of an IPv4 address. -/
def id4 (secret : Secret) (addr : Block 4) : UInt64 :=
  connectionId secret (.inet ⟨0, addr⟩)

/-- The port of a socket address plays no part. -/
theorem connectionId_eq_id4 (secret : Secret) (sin : SockaddrIn) :
    connectionId secret (.inet sin) = id4 secret sin.sinAddr := by
  rfl

/-- A term is the exclusive or of a product of bytes and a byte. -/
theorem mix_lt (secret : Secret) (ip : List UInt8) (j : Nat) :
    mix secret ip j < 2 ^ 16 := by
  have hbyte : ∀ b : UInt8, b.toNat < 2 ^ 8 := fun b => b.toNat_lt
  apply Nat.xor_lt_two_pow
  · have hprod := Nat.mul_lt_mul'' (hbyte (ip.getD j 0))
      (hbyte (secret.val.getD j 0))
    omega
  · have hmask := hbyte (secret.val.getD (j + 1) 0)
    omega

/-- The four terms added up. -/
def total (secret : Secret) (addr : Block 4) : Nat :=
  mix secret addr.val 0 + mix secret addr.val 1 + mix secret addr.val 2 +
    mix secret addr.val 3

theorem total_lt (secret : Secret) (addr : Block 4) :
    total secret addr < 2 ^ 18 := by
  have h0 := mix_lt secret addr.val 0
  have h1 := mix_lt secret addr.val 1
  have h2 := mix_lt secret addr.val 2
  have h3 := mix_lt secret addr.val 3
  unfold total
  omega

/-- The sum fits the 64 bits of an id. -/
theorem toNat_id4 (secret : Secret) (addr : Block 4) :
    (id4 secret addr).toNat = total secret addr := by
  have hlt := total_lt secret addr
  have hsum : id4 secret addr = UInt64.ofNat (total secret addr) := by
    show connectionIdOf secret addr.val = _
    rw [connectionIdOf, addr.property]
    simp only [List.range_succ, List.range_zero, List.nil_append,
      List.foldl_append, List.foldl_cons, List.foldl_nil, total,
      UInt64.ofNat_add, UInt64.zero_add]
  rw [hsum, UInt64.toNat_ofNat']
  omega

theorem id4_eq_iff {secret : Secret} {addr addr' : Block 4} :
    id4 secret addr = id4 secret addr' ↔
      total secret addr = total secret addr' := by
  rw [← UInt64.toNat_inj, toNat_id4, toNat_id4]

end Sum

section OneByte

/-- The two addresses differ in the byte at `j` and nowhere else. -/
def DifferAt (j : Nat) (addr addr' : Block 4) : Prop :=
  addr.val.getD j 0 ≠ addr'.val.getD j 0 ∧
    ∀ i, i ≠ j → addr.val.getD i 0 = addr'.val.getD i 0

/-- With a factor that is not zero, a term tells two bytes apart. -/
theorem mix_inj {secret : Secret} {ip ip' : List UInt8} {j : Nat}
    (hfactor : secret.val.getD j 0 ≠ 0)
    (hmix : mix secret ip j = mix secret ip' j) :
    ip.getD j 0 = ip'.getD j 0 := by
  have hpos : 0 < (secret.val.getD j 0).toNat := by
    apply Nat.pos_of_ne_zero
    intro hzero
    exact hfactor (UInt8.toNat_inj.mp hzero)
  have hprod := congrArg (· ^^^ (secret.val.getD (j + 1) 0).toNat) hmix
  simp only [mix, Nat.xor_assoc, Nat.xor_self, Nat.xor_zero] at hprod
  exact UInt8.toNat_inj.mp (Nat.eq_of_mul_eq_mul_right hpos hprod)

/-- With a factor of zero, a term is the same for every byte. -/
theorem mix_of_zero {secret : Secret} (ip ip' : List UInt8) {j : Nat}
    (hfactor : secret.val.getD j 0 = 0) :
    mix secret ip j = mix secret ip' j := by
  rw [mix, mix, hfactor]
  rfl

theorem mix_congr {ip ip' : List UInt8} (secret : Secret) {j : Nat}
    (hbyte : ip.getD j 0 = ip'.getD j 0) :
    mix secret ip j = mix secret ip' j := by
  rw [mix, mix, hbyte]

/-- If all terms but one agree, the sums agree exactly if this one does. -/
theorem total_eq_iff {secret : Secret} {addr addr' : Block 4} {j : Nat}
    (hj : j < 4)
    (hrest : ∀ i, i ≠ j → mix secret addr.val i = mix secret addr'.val i) :
    total secret addr = total secret addr' ↔
      mix secret addr.val j = mix secret addr'.val j := by
  have h0 := hrest 0
  have h1 := hrest 1
  have h2 := hrest 2
  have h3 := hrest 3
  unfold total
  match j, hj with
  | 0, _ => omega
  | 1, _ => omega
  | 2, _ => omega
  | 3, _ => omega

/-- Only the four bytes of an address can differ. -/
theorem DifferAt.lt {j : Nat} {addr addr' : Block 4}
    (h : DifferAt j addr addr') : j < 4 := by
  by_contra hout
  have hpast : ∀ a : Block 4, a.val.getD j 0 = 0 := by
    intro a
    rw [List.getD_eq_getElem?_getD,
      List.getElem?_eq_none (by rw [a.property]; omega)]
    rfl
  exact h.1 ((hpast addr).trans (hpast addr').symm)

/-- One byte is told apart exactly if its secret byte is not zero. -/
theorem id4_ne_iff {secret : Secret} {addr addr' : Block 4} {j : Nat}
    (h : DifferAt j addr addr') :
    id4 secret addr ≠ id4 secret addr' ↔ secret.val.getD j 0 ≠ 0 := by
  have hrest : ∀ i, i ≠ j →
      mix secret addr.val i = mix secret addr'.val i :=
    fun i hi => mix_congr secret (h.2 i hi)
  rw [Ne, id4_eq_iff, total_eq_iff h.lt hrest, not_iff_not]
  constructor
  · intro hmix
    by_contra hfactor
    exact h.1 (mix_inj hfactor hmix)
  · exact mix_of_zero addr.val addr'.val

end OneByte

section Shared

/-- The address with these bytes. -/
def addressOf (bytes : Fin 4 → Fin 256) : Block 4 :=
  ⟨List.ofFn fun i => UInt8.ofNat (bytes i), List.length_ofFn⟩

theorem addressOf_injective : Function.Injective addressOf := by
  intro bytes bytes' h
  funext i
  have hlists : List.ofFn (fun i => UInt8.ofNat (bytes i)) =
      List.ofFn fun i => UInt8.ofNat (bytes' i) := congrArg Subtype.val h
  have hbyte := congrFun (List.ofFn_injective hlists) i
  have hi := (bytes i).isLt
  have hi' := (bytes' i).isLt
  have hval := congrArg UInt8.toNat hbyte
  rw [UInt8.toNat_ofNat_of_lt' hi, UInt8.toNat_ofNat_of_lt' hi'] at hval
  exact Fin.ext hval

/-- There are `2 ^ 32` addresses, but only `2 ^ 18` sums. -/
theorem exists_shared_total (secret : Secret) :
    ∃ n, ∃ addrs : List (Block 4), addrs.Nodup ∧ 2 ^ 14 ≤ addrs.length ∧
      ∀ addr ∈ addrs, total secret addr = n := by
  have hcard : (Finset.range (2 ^ 18)).card * 2 ^ 14 ≤
      (Finset.univ : Finset (Fin 4 → Fin 256)).card := by
    rw [Finset.card_range, Finset.card_univ, Fintype.card_fun,
      Fintype.card_fin, Fintype.card_fin]
    norm_num
  obtain ⟨n, -, hfiber⟩ :=
    Finset.exists_le_card_fiber_of_mul_le_card_of_maps_to
      (f := fun bytes => total secret (addressOf bytes))
      (fun bytes _ => Finset.mem_range.mpr (total_lt secret (addressOf bytes)))
      ⟨0, Finset.mem_range.mpr (by norm_num)⟩ hcard
  let fiber : Finset (Fin 4 → Fin 256) :=
    {bytes | total secret (addressOf bytes) = n}
  refine ⟨n, fiber.toList.map addressOf,
    fiber.nodup_toList.map addressOf_injective, ?_, ?_⟩
  · rw [List.length_map, Finset.length_toList]
    exact hfiber
  · intro addr haddr
    obtain ⟨bytes, hbytes, rfl⟩ := List.mem_map.mp haddr
    simpa [fiber] using hbytes

/--
**What the id of an IPv4 address tells.**  Two addresses have the same id
exactly if their sums agree.  Addresses that differ in one byte have different
ids exactly if the secret byte at its place is not zero.  An id has 18 bits, and
some `2 ^ 14` addresses share one.
-/
theorem connectionId_inet (secret : Secret) :
    (∀ sin sin' : SockaddrIn,
      connectionId secret (.inet sin) = connectionId secret (.inet sin') ↔
        total secret sin.sinAddr = total secret sin'.sinAddr) ∧
    (∀ (sin sin' : SockaddrIn) (j : Nat),
      DifferAt j sin.sinAddr sin'.sinAddr →
        (connectionId secret (.inet sin) ≠ connectionId secret (.inet sin') ↔
          secret.val.getD j 0 ≠ 0)) ∧
    (∀ sin : SockaddrIn,
      (connectionId secret (.inet sin)).toNat < 2 ^ 18) ∧
    ∃ connId, ∃ addrs : List (Block 4),
      addrs.Nodup ∧ 2 ^ 14 ≤ addrs.length ∧
        ∀ addr ∈ addrs, ∀ port,
          connectionId secret (.inet ⟨port, addr⟩) = connId := by
  refine ⟨?_, ?_, ?_, ?_⟩
  · intro sin sin'
    rw [connectionId_eq_id4, connectionId_eq_id4]
    exact id4_eq_iff
  · intro sin sin' j hdiffer
    rw [connectionId_eq_id4, connectionId_eq_id4]
    exact id4_ne_iff hdiffer
  · intro sin
    rw [connectionId_eq_id4, toNat_id4]
    exact total_lt secret sin.sinAddr
  · obtain ⟨n, addrs, hnodup, hmany, hsame⟩ := exists_shared_total secret
    refine ⟨UInt64.ofNat n, addrs, hnodup, hmany, ?_⟩
    intro addr haddr port
    rw [connectionId_eq_id4, ← hsame addr haddr, ← toNat_id4,
      UInt64.ofNat_toNat]

/-- `10.0.0.1` and `1.0.0.10` share an id under a secret of equal bytes. -/
theorem connectionId_shared :
    ¬ ∀ (secret : Secret) (sin sin' : SockaddrIn),
      sin.sinAddr ≠ sin'.sinAddr →
        connectionId secret (.inet sin) ≠ connectionId secret (.inet sin') := by
  intro h
  apply h (plainSecret 7) ⟨6881, sampleIp⟩ ⟨6881, ⟨[1, 0, 0, 10], rfl⟩⟩
  · decide
  · decide

end Shared

end UdpServer
end Hefur
