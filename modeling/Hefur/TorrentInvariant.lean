import Hefur.Torrent
import Hefur.Lib.Recency

/-!
# The representation of a torrent's peers

`Rep t` says that the three forms in which a torrent keeps its peers agree: the
list `timeouts` has no duplicates, the trie indexes exactly the listed peers
under their current keys, and the counters count them, as far as 32-bit
counters can.

Each function of `torrent.cc` gets one specification lemma.  It says that the
function keeps `Rep` and what it does to the list of peers, `swarm`, in the
vocabulary of recency queues.  Together they make a torrent a refinement of a
recency queue that pops when it is `overfull` (`refines_step`, `refines_run`).

For `MAX_PEERS < 2^32 - 1` the swarm never outgrows `MAX_PEERS`, so the
counters are exact and never underflow (`peersAgree_throughout`).
-/

namespace Hefur
namespace Torrent

open Recency

/-- The peers, oldest announce first. -/
def swarm (t : Torrent) : List Peer :=
  t.timeouts.map t.mem

/-- The counters of `t` count the peers of `peers`, modulo `2^32`. -/
structure Counts (t : Torrent) (peers : List Peer) : Prop where
  seeders : t.seeders = UInt32.ofNat (peers.countP Peer.isSeeder)
  leechers : t.leechers = UInt32.ofNat (peers.countP (fun p => !p.isSeeder))

/-- The list, the index and the counters hold the same peers. -/
structure Rep (t : Torrent) : Prop where
  nodup : t.timeouts.Nodup
  live : ∀ p ∈ t.timeouts, p < t.brk
  indexed : ∀ k p,
    t.peers.lookup k = some p ↔ p ∈ t.timeouts ∧ (t.mem p).key = k
  counts : Counts t t.swarm

/-- The peer that an announce heard at `now` leaves behind. -/
def peerOf (opt : Options) (now : Int) (request : AnnounceRequest) : Peer where
  addr := request.addr
  left := request.left
  downloaded := request.downloaded
  uploaded := request.uploaded
  timeoutTs := timeoutAt opt now
  peerid := request.peerid

@[simp] theorem key_peerOf
    (opt : Options) (now : Int) (request : AnnounceRequest) :
    (peerOf opt now request).key = request.addr.key := by
  rfl

section Counters

@[simp] theorem decrement_mem (left : UInt64) (t : Torrent) :
    (t.decrement left).mem = t.mem := by
  unfold decrement; split <;> rfl

@[simp] theorem decrement_timeouts (left : UInt64) (t : Torrent) :
    (t.decrement left).timeouts = t.timeouts := by
  unfold decrement; split <;> rfl

@[simp] theorem decrement_peers (left : UInt64) (t : Torrent) :
    (t.decrement left).peers = t.peers := by
  unfold decrement; split <;> rfl

@[simp] theorem decrement_brk (left : UInt64) (t : Torrent) :
    (t.decrement left).brk = t.brk := by
  unfold decrement; split <;> rfl

@[simp] theorem increment_peers (left : UInt64) (t : Torrent) :
    (t.increment left).peers = t.peers := by
  unfold increment; split <;> rfl

@[simp] theorem increment_brk (left : UInt64) (t : Torrent) :
    (t.increment left).brk = t.brk := by
  unfold increment; split <;> rfl

@[simp] theorem increment_underflow (left : UInt64) (t : Torrent) :
    (t.increment left).underflow = t.underflow := by
  unfold increment; split <;> rfl

/-- The peers of a list are its seeders and its leechers. -/
theorem countP_seeders_add_leechers (peers : List Peer) :
    peers.countP Peer.isSeeder + peers.countP (fun p => !p.isSeeder) =
      peers.length := by
  induction peers with
  | nil =>
      rfl
  | cons p peers ih =>
      cases hp : p.isSeeder <;> simp [hp] <;> omega

/-- The two counters together count every peer. -/
theorem Counts.total {t : Torrent} {peers : List Peer}
    (h : Counts t peers) :
    (t.leechers + t.seeders).toNat = peers.length % 2 ^ 32 := by
  rw [h.seeders, h.leechers, ← UInt32.ofNat_add, UInt32.toNat_ofNat',
    Nat.add_comm, countP_seeders_add_leechers]

theorem Counts.perm {t : Torrent} {peers peers' : List Peer}
    (hperm : peers.Perm peers') (h : Counts t peers) :
    Counts t peers' :=
  ⟨by rw [h.seeders, hperm.countP_eq], by rw [h.leechers, hperm.countP_eq]⟩

/-- Counting one peer off, when it is counted. -/
theorem Counts.decrement {t : Torrent} {p : Peer} {peers : List Peer}
    (h : Counts t (p :: peers)) :
    Counts (t.decrement p.left) peers := by
  obtain ⟨hs, hl⟩ := h
  unfold Torrent.decrement
  by_cases hp : p.left = 0
  · have hseeder : p.isSeeder = true := by simp [Peer.isSeeder, hp]
    rw [List.countP_cons_of_pos hseeder, UInt32.ofNat_add] at hs
    rw [List.countP_cons_of_neg (by simp [hseeder])] at hl
    rw [if_pos hp]
    refine ⟨?_, hl⟩
    show t.seeders - 1 = _
    rw [hs]
    exact UInt32.add_sub_cancel _ _
  · have hseeder : p.isSeeder = false := by simp [Peer.isSeeder, hp]
    rw [List.countP_cons_of_neg (by simp [hseeder])] at hs
    rw [List.countP_cons_of_pos (by simp [hseeder]), UInt32.ofNat_add] at hl
    rw [if_neg hp]
    refine ⟨hs, ?_⟩
    show t.leechers - 1 = _
    rw [hl]
    exact UInt32.add_sub_cancel _ _

/-- Counting one more peer. -/
theorem Counts.increment {t : Torrent} {p : Peer} {peers : List Peer}
    (h : Counts t peers) :
    Counts (t.increment p.left) (p :: peers) := by
  obtain ⟨hs, hl⟩ := h
  unfold Torrent.increment
  by_cases hp : p.left = 0
  · have hseeder : p.isSeeder = true := by simp [Peer.isSeeder, hp]
    rw [if_pos hp]
    exact ⟨by simp [hseeder, hs, UInt32.ofNat_add], by simp [hseeder, hl]⟩
  · have hseeder : p.isSeeder = false := by simp [Peer.isSeeder, hp]
    rw [if_neg hp]
    exact ⟨by simp [hseeder, hs], by simp [hseeder, hl, UInt32.ofNat_add]⟩

/-- A counter that counts a peer is not decremented at zero. -/
theorem Counts.decrement_underflow {t : Torrent} {p : Peer}
    {peers : List Peer}
    (hfit : peers.length + 1 < 2 ^ 32) (h : Counts t (p :: peers)) :
    (t.decrement p.left).underflow = t.underflow := by
  obtain ⟨hs, hl⟩ := h
  have htotal := countP_seeders_add_leechers peers
  unfold Torrent.decrement
  by_cases hp : p.left = 0
  · have hseeder : p.isSeeder = true := by simp [Peer.isSeeder, hp]
    have hne : t.seeders ≠ 0 := by
      rw [hs, ← UInt32.toNat_inj.ne, List.countP_cons_of_pos hseeder,
        UInt32.toNat_ofNat_of_lt' (by show _ < 2 ^ 32; omega)]
      simp
    simp [hp, hne]
  · have hseeder : p.isSeeder = false := by simp [Peer.isSeeder, hp]
    have hne : t.leechers ≠ 0 := by
      rw [hl, ← UInt32.toNat_inj.ne,
        List.countP_cons_of_pos (by simp [hseeder]),
        UInt32.toNat_ofNat_of_lt' (by show _ < 2 ^ 32; omega)]
      simp
    simp [hp, hne]

end Counters

section Lists

variable {f : Ptr → Peer} {p : Ptr} {l : List Ptr}

/-- Changing a peer that is not listed does not change the listed peers. -/
theorem map_update_of_not_mem (v : Peer) (hp : p ∉ l) :
    l.map (Function.update f p v) = l.map f := by
  apply List.map_congr_left
  intro q hq
  apply Function.update_of_ne
  rintro rfl
  exact hp hq

/-- Unlinking a pointer drops the peer with that pointer's key. -/
theorem map_erase
    (hnodup : l.Nodup)
    (hinj : ∀ q ∈ l, (f q).key = (f p).key → q = p) :
    (l.erase p).map f = without Peer.key (f p).key (l.map f) := by
  rw [hnodup.erase_eq_filter, without, List.filter_map]
  congr 1
  apply List.filter_congr
  intro q hq
  by_cases hqp : q = p
  · simp [hqp]
  · have hkey : (f q).key ≠ (f p).key := fun h => hqp (hinj q hq h)
    simp [hqp, hkey]

end Lists

section Specs

variable {t : Torrent}

namespace Rep

/-- Two listed peers with one key are the same peer. -/
theorem key_injective (h : Rep t) {p q : Ptr}
    (hp : p ∈ t.timeouts) (hq : q ∈ t.timeouts)
    (hkey : (t.mem p).key = (t.mem q).key) : p = q := by
  have hp' := (h.indexed _ p).mpr ⟨hp, hkey⟩
  have hq' := (h.indexed _ q).mpr ⟨hq, rfl⟩
  rw [hp'] at hq'
  exact Option.some.inj hq'

theorem nodup_keys (h : Rep t) :
    (t.swarm.map Peer.key).Nodup := by
  rw [swarm, List.map_map]
  apply List.Nodup.map_on _ h.nodup
  intro p hp q hq hkey
  exact h.key_injective hp hq hkey

/-- The peers as a recency queue. -/
def queue (h : Rep t) : Queue Peer.key where
  items := t.swarm
  nodup := h.nodup_keys

theorem mem_swarm (_h : Rep t) {p : Ptr} (hp : p ∈ t.timeouts) :
    t.mem p ∈ t.swarm :=
  List.mem_map_of_mem hp

/-- A key that the index does not have is the key of no peer. -/
theorem key_ne_of_lookup_none (h : Rep t) {k : List UInt8}
    (hk : t.peers.lookup k = none) :
    ∀ x ∈ t.swarm, x.key ≠ k := by
  intro x hx hkey
  obtain ⟨p, hp, rfl⟩ := List.mem_map.mp hx
  rw [(h.indexed k p).mpr ⟨hp, hkey⟩] at hk
  cases hk

end Rep

@[simp] theorem removePeer_mem (p : Ptr) (t : Torrent) :
    (t.removePeer p).mem = Function.update t.mem p Peer.default := by
  simp [removePeer, write]

@[simp] theorem removePeer_timeouts (p : Ptr) (t : Torrent) :
    (t.removePeer p).timeouts = t.timeouts.erase p := by
  simp [removePeer, write]

@[simp] theorem removePeer_peers (p : Ptr) (t : Torrent) :
    (t.removePeer p).peers = t.peers.erase (t.mem p).key := by
  simp [removePeer, write]

@[simp] theorem removePeer_brk (p : Ptr) (t : Torrent) :
    (t.removePeer p).brk = t.brk := by
  simp [removePeer, write]

theorem swarm_removePeer (h : Rep t) {p : Ptr} (hp : p ∈ t.timeouts) :
    (t.removePeer p).swarm = without Peer.key (t.mem p).key t.swarm := by
  have hnot : p ∉ t.timeouts.erase p := h.nodup.not_mem_erase
  rw [swarm, removePeer_mem, removePeer_timeouts,
    map_update_of_not_mem _ hnot,
    map_erase h.nodup (fun q hq hkey => h.key_injective hq hp hkey)]
  rfl

/-- Removing a listed peer. -/
theorem rep_removePeer (h : Rep t) {p : Ptr} (hp : p ∈ t.timeouts) :
    Rep (t.removePeer p) where
  nodup := by
    rw [removePeer_timeouts]
    exact h.nodup.erase p
  live := by
    intro q hq
    rw [removePeer_timeouts] at hq
    rw [removePeer_brk]
    exact h.live q (List.mem_of_mem_erase hq)
  indexed := by
    intro k q
    rw [removePeer_peers, removePeer_timeouts, removePeer_mem,
      ExactMap.lookup_erase, h.nodup.mem_erase_iff]
    by_cases hqp : q = p
    · subst hqp
      constructor
      · intro hlookup
        split at hlookup
        · cases hlookup
        · rename_i hk
          exact (hk ((h.indexed k q).mp hlookup).2.symm).elim
      · rintro ⟨⟨hne, -⟩, -⟩
        exact (hne rfl).elim
    · rw [Function.update_of_ne hqp]
      constructor
      · intro hlookup
        split at hlookup
        · cases hlookup
        · obtain ⟨hq, hkey⟩ := (h.indexed k q).mp hlookup
          exact ⟨⟨hqp, hq⟩, hkey⟩
      · rintro ⟨⟨-, hq⟩, rfl⟩
        rw [if_neg (fun hkey => hqp (h.key_injective hq hp hkey))]
        exact (h.indexed _ q).mpr ⟨hq, rfl⟩
  counts := by
    have hperm := perm_cons_without Peer.key (h.mem_swarm hp) h.nodup_keys
    have hcounts := (h.counts.perm hperm).decrement
    rw [swarm_removePeer h hp]
    exact ⟨hcounts.seeders, hcounts.leechers⟩

theorem underflow_removePeer (h : Rep t) {p : Ptr} (hp : p ∈ t.timeouts)
    (hfit : t.swarm.length < 2 ^ 32) :
    (t.removePeer p).underflow = t.underflow := by
  have hperm := perm_cons_without Peer.key (h.mem_swarm hp) h.nodup_keys
  rw [hperm.length_eq, List.length_cons] at hfit
  exact (h.counts.perm hperm).decrement_underflow hfit

/-- The state after a new peer has been linked, indexed and counted. -/
theorem createOrUpdatePeer_none
    (opt : Options) (now : Int) (request : AnnounceRequest) (t : Torrent) :
    t.createOrUpdatePeer opt now request none =
      (some t.brk,
        { t.increment request.left with
          mem := Function.update t.mem t.brk (peerOf opt now request)
          brk := t.brk + 1
          timeouts := t.timeouts ++ [t.brk]
          peers := ExactMap.insertNew request.addr.key t.brk t.peers }) := by
  simp only [createOrUpdatePeer, newPeer, write, updateTimeout, increment]
  by_cases hleft : request.left = 0
  all_goals
    simp [assignPeer, peerOf, Peer.key, hleft]

/-- The state after a peer has been updated and moved to the back. -/
theorem createOrUpdatePeer_some
    (opt : Options) (now : Int) (request : AnnounceRequest)
    (p : Ptr) (t : Torrent) :
    t.createOrUpdatePeer opt now request (some p) =
      (some p,
        { (t.decrement (t.mem p).left).increment request.left with
          mem := Function.update t.mem p (peerOf opt now request)
          timeouts := t.timeouts.erase p ++ [p] }) := by
  simp only [createOrUpdatePeer, write, updateTimeout, increment]
  by_cases hleft : request.left = 0
  all_goals
    simp [assignPeer, peerOf, hleft]

/-- Registering a peer puts it at the back of the swarm. -/
theorem swarm_createOrUpdatePeer
    (h : Rep t) (opt : Options) (now : Int) (request : AnnounceRequest) :
    (t.createOrUpdatePeer opt now request
        (t.peers.lookup request.addr.key)).2.swarm =
      without Peer.key request.addr.key t.swarm ++
        [peerOf opt now request] := by
  cases hk : t.peers.lookup request.addr.key with
  | none =>
      have hfresh : t.brk ∉ t.timeouts := fun hmem =>
        Nat.lt_irrefl _ (h.live _ hmem)
      rw [createOrUpdatePeer_none,
        without_eq_self Peer.key (h.key_ne_of_lookup_none hk)]
      simp [swarm, map_update_of_not_mem _ hfresh]
  | some p =>
      obtain ⟨hp, hkey⟩ := (h.indexed _ p).mp hk
      have hnot : p ∉ t.timeouts.erase p := h.nodup.not_mem_erase
      rw [createOrUpdatePeer_some, ← hkey]
      simp only [swarm, List.map_append, map_update_of_not_mem _ hnot]
      rw [map_erase h.nodup (fun q hq hkey => h.key_injective hq hp hkey)]
      simp

/-- A new peer is found under its key, and the others where they were. -/
theorem indexed_createPeer
    (h : Rep t) (opt : Options) (now : Int) {request : AnnounceRequest}
    (hk : t.peers.lookup request.addr.key = none) (k : List UInt8) (p : Ptr) :
    (t.peers.insertNew request.addr.key t.brk).lookup k = some p ↔
      p ∈ t.timeouts ++ [t.brk] ∧
        (Function.update t.mem t.brk (peerOf opt now request) p).key = k := by
  have hfresh : t.brk ∉ t.timeouts := fun hmem =>
    Nat.lt_irrefl _ (h.live _ hmem)
  rw [ExactMap.lookup_insertNew, hk]
  by_cases hp : p = t.brk
  · subst hp
    simp only [Function.update_self, key_peerOf, List.mem_append,
      List.mem_singleton, or_true, true_and, and_true]
    constructor
    · intro hlookup
      split at hlookup
      · rename_i hkey
        exact hkey.symm
      · exact (hfresh ((h.indexed k t.brk).mp hlookup).1).elim
    · intro hkey
      rw [if_pos hkey.symm]
  · simp only [Function.update_of_ne hp, List.mem_append,
      List.mem_singleton, hp, or_false, and_true]
    constructor
    · intro hlookup
      split at hlookup
      · exact (hp (Option.some.inj hlookup).symm).elim
      · exact (h.indexed k p).mp hlookup
    · intro hmem
      rw [if_neg, h.indexed k p]
      · exact hmem
      · rintro rfl
        rw [(h.indexed _ p).mpr hmem] at hk
        cases hk

/-- Registering a peer under a key the index does not have. -/
theorem rep_createPeer
    (h : Rep t) (opt : Options) (now : Int) {request : AnnounceRequest}
    (hk : t.peers.lookup request.addr.key = none) :
    Rep (t.createOrUpdatePeer opt now request none).2 := by
  have hfresh : t.brk ∉ t.timeouts := fun hmem =>
    Nat.lt_irrefl _ (h.live _ hmem)
  have hswarm := swarm_createOrUpdatePeer h opt now request
  rw [hk, without_eq_self Peer.key (h.key_ne_of_lookup_none hk)] at hswarm
  have hcounts : Counts (t.increment request.left)
      (t.swarm ++ [peerOf opt now request]) :=
    (Counts.increment (p := peerOf opt now request) h.counts).perm
      (List.perm_append_singleton _ _).symm
  rw [createOrUpdatePeer_none] at hswarm ⊢
  refine { nodup := ?_, live := ?_, indexed := ?_, counts := ?_ }
  · simpa using List.Nodup.concat hfresh h.nodup
  · intro p hp
    rcases List.mem_append.mp hp with hp | hp
    · exact Nat.lt_succ_of_lt (h.live p hp)
    · rw [List.mem_singleton.mp hp]
      exact Nat.lt_succ_self _
  · exact indexed_createPeer h opt now hk
  · rw [hswarm]
    exact ⟨hcounts.seeders, hcounts.leechers⟩

/-- Updating the peer under the key of the request. -/
theorem rep_updatePeer
    (h : Rep t) (opt : Options) (now : Int)
    {request : AnnounceRequest} {p : Ptr}
    (hk : t.peers.lookup request.addr.key = some p) :
    Rep (t.createOrUpdatePeer opt now request (some p)).2 := by
  obtain ⟨hp, hkey⟩ := (h.indexed _ p).mp hk
  have hswarm := swarm_createOrUpdatePeer h opt now request
  rw [hk] at hswarm
  have hmem : ∀ q, q ∈ t.timeouts.erase p ++ [p] ↔ q ∈ t.timeouts := by
    intro q
    rw [List.mem_append, h.nodup.mem_erase_iff, List.mem_singleton]
    by_cases hqp : q = p
    · simp [hqp, hp]
    · simp [hqp]
  have hkeyUpdate : ∀ q,
      (Function.update t.mem p (peerOf opt now request) q).key =
        (t.mem q).key := by
    intro q
    by_cases hqp : q = p
    · subst hqp
      rw [Function.update_self, hkey]
      rfl
    · rw [Function.update_of_ne hqp]
  have hperm := perm_cons_without Peer.key (h.mem_swarm hp) h.nodup_keys
  have hcounts :
      Counts ((t.decrement (t.mem p).left).increment request.left)
        (without Peer.key request.addr.key t.swarm ++
          [peerOf opt now request]) := by
    rw [← hkey]
    exact (Counts.increment (p := peerOf opt now request)
      (h.counts.perm hperm).decrement).perm
        (List.perm_append_singleton _ _).symm
  rw [createOrUpdatePeer_some] at hswarm ⊢
  refine { nodup := ?_, live := ?_, indexed := ?_, counts := ?_ }
  · simpa using
      List.Nodup.concat h.nodup.not_mem_erase (h.nodup.erase p)
  · intro q hq
    simpa using h.live q ((hmem q).mp hq)
  · intro k q
    simp only [increment_peers, decrement_peers, hmem, hkeyUpdate]
    exact h.indexed k q
  · rw [hswarm]
    exact ⟨hcounts.seeders, hcounts.leechers⟩

theorem rep_createOrUpdatePeer
    (h : Rep t) (opt : Options) (now : Int) (request : AnnounceRequest) :
    Rep (t.createOrUpdatePeer opt now request
      (t.peers.lookup request.addr.key)).2 := by
  cases hk : t.peers.lookup request.addr.key with
  | none => exact rep_createPeer h opt now hk
  | some p => exact rep_updatePeer h opt now hk

theorem underflow_createOrUpdatePeer
    (h : Rep t) (hfit : t.swarm.length < 2 ^ 32)
    (opt : Options) (now : Int) (request : AnnounceRequest) :
    (t.createOrUpdatePeer opt now request
      (t.peers.lookup request.addr.key)).2.underflow = t.underflow := by
  cases hk : t.peers.lookup request.addr.key with
  | none =>
      simp [createOrUpdatePeer_none]
  | some p =>
      obtain ⟨hp, -⟩ := (h.indexed _ p).mp hk
      have hperm := perm_cons_without Peer.key (h.mem_swarm hp) h.nodup_keys
      rw [hperm.length_eq, List.length_cons] at hfit
      have hdec := (h.counts.perm hperm).decrement_underflow hfit
      simpa [createOrUpdatePeer_some] using hdec

/-- The test of the capacity check, on the number of peers. -/
def overfull (opt : Options) (len : Nat) : Bool :=
  opt.maxPeers.toNat < len % 2 ^ 32

theorem overfull_gt {opt : Options} {len : Nat}
    (h : overfull opt len = true) : opt.maxPeers.toNat < len := by
  have hmod := Nat.mod_le len (2 ^ 32)
  have hlt : opt.maxPeers.toNat < len % 2 ^ 32 := by
    simpa [overfull] using h
  omega

theorem overfull_succ {opt : Options}
    (hmax : opt.maxPeers.toNat < 2 ^ 32 - 1) :
    overfull opt (opt.maxPeers.toNat + 1) = true := by
  have hmod := Nat.mod_eq_of_lt
    (show opt.maxPeers.toNat + 1 < 2 ^ 32 by omega)
  simp only [overfull, hmod, decide_eq_true_eq]
  exact Nat.lt_succ_self _

theorem Rep.over_iff (h : Rep t) (opt : Options) :
    t.leechers + t.seeders > opt.maxPeers ↔
      overfull opt t.swarm.length = true := by
  rw [gt_iff_lt, UInt32.lt_iff_toNat_lt, h.counts.total]
  simp [overfull]

/-- The capacity check removes the oldest peer of an overfull swarm. -/
theorem evictFront_spec (h : Rep t) (opt : Options) :
    Rep (t.evictFront opt) ∧
      (t.evictFront opt).swarm = (h.queue.trim (overfull opt)).items := by
  unfold evictFront Queue.trim
  by_cases hover : overfull opt t.swarm.length = true
  · rw [if_pos ((h.over_iff opt).mpr hover),
      if_pos (show overfull opt h.queue.items.length = true from hover)]
    cases ht : t.timeouts with
    | nil =>
        have hlong := overfull_gt hover
        simp [swarm, ht] at hlong
    | cons front rest =>
        have hfront : front ∈ t.timeouts := by simp [ht]
        refine ⟨rep_removePeer h hfront, ?_⟩
        have hnodup := h.nodup_keys
        show (t.removePeer front).swarm = t.swarm.tail
        rw [swarm_removePeer h hfront]
        have hswarm : t.swarm = t.mem front :: rest.map t.mem := by
          rw [swarm, ht, List.map_cons]
        rw [hswarm] at hnodup ⊢
        exact without_head Peer.key hnodup
  · rw [if_neg (fun hgt => hover ((h.over_iff opt).mp hgt)),
      if_neg (show ¬ overfull opt h.queue.items.length = true from hover)]
    exact ⟨h, rfl⟩

theorem underflow_evictFront (h : Rep t) (hfit : t.swarm.length < 2 ^ 32)
    (opt : Options) :
    (t.evictFront opt).underflow = t.underflow := by
  unfold evictFront
  split
  · split
    · rfl
    · rename_i front rest ht
      exact underflow_removePeer h (by simp [ht]) hfit
  · rfl

theorem countCompletion_eq
    (request : AnnounceRequest) (peer : Option Ptr) (t : Torrent) :
    ∃ c, t.countCompletion request peer = { t with completed := c } := by
  unfold countCompletion
  cases peer with
  | none =>
      exact ⟨t.completed, rfl⟩
  | some p =>
      dsimp only
      split
      · exact ⟨_, rfl⟩
      · exact ⟨t.completed, rfl⟩

/-- Nothing about the peers depends on the number of completed downloads. -/
theorem Rep.withCompleted (h : Rep t) (c : UInt32) :
    Rep { t with completed := c } where
  nodup := h.nodup
  live := h.live
  indexed := h.indexed
  counts := ⟨h.counts.seeders, h.counts.leechers⟩

end Specs

section Refinement

variable {t : Torrent}

/-- What an operation does to the recency queue of peers. -/
def Op.act (opt : Options) : Op → Act Peer (List UInt8)
  | .announce now request =>
      if request.event = .stopped then .forget request.addr.key
      else .touch (peerOf opt now request)
  | .cleanup now => .expire (fun peer => peer.timeoutTs ≤ now)

/-- The state after an announce that does not stop. -/
theorem announce_state
    (opt : Options) (now : Int) {request : AnnounceRequest}
    (hevent : request.event ≠ .stopped) (t : Torrent) :
    ∃ c,
      (t.announce opt now request).2 =
        (({ t with completed := c } : Torrent).createOrUpdatePeer opt now
          request (t.peers.lookup request.addr.key)).2.evictFront opt := by
  obtain ⟨c, hc⟩ := countCompletion_eq request
    (t.peers.lookup request.addr.key) t
  refine ⟨c, ?_⟩
  simp only [announce, hc, hevent, if_false]
  cases t.peers.lookup request.addr.key with
  | none =>
      rw [createOrUpdatePeer_none]
  | some p =>
      rw [createOrUpdatePeer_some]

/-- The state after a stop. -/
theorem announce_state_stopped
    (opt : Options) (now : Int) {request : AnnounceRequest}
    (hevent : request.event = .stopped) (t : Torrent) :
    ∃ c,
      (t.announce opt now request).2 =
        match t.peers.lookup request.addr.key with
        | some p => ({ t with completed := c } : Torrent).removePeer p
        | none => { t with completed := c } := by
  obtain ⟨c, hc⟩ := countCompletion_eq request
    (t.peers.lookup request.addr.key) t
  refine ⟨c, ?_⟩
  simp only [announce, hc, hevent, if_true]
  cases t.peers.lookup request.addr.key <;> rfl

/-- An announce keeps the representation and acts on the swarm as a queue. -/
theorem announce_refines
    (h : Rep t) (opt : Options) (now : Int) (request : AnnounceRequest) :
    Rep (t.announce opt now request).2 ∧
      (t.announce opt now request).2.swarm =
        (act (overfull opt) h.queue
          (Op.act opt (.announce now request))).items := by
  by_cases hevent : request.event = .stopped
  · obtain ⟨c, hstate⟩ := announce_state_stopped opt now hevent t
    rw [hstate]
    simp only [Op.act, hevent, if_true, act]
    cases hk : t.peers.lookup request.addr.key with
    | none =>
        refine ⟨h.withCompleted c, ?_⟩
        exact (without_eq_self Peer.key (h.key_ne_of_lookup_none hk)).symm
    | some p =>
        obtain ⟨hp, hkey⟩ := (h.indexed _ p).mp hk
        refine ⟨rep_removePeer (h.withCompleted c) hp, ?_⟩
        rw [swarm_removePeer (h.withCompleted c) hp]
        show without Peer.key (t.mem p).key t.swarm = _
        rw [hkey]
        rfl
  · obtain ⟨c, hstate⟩ := announce_state opt now hevent t
    have h' := h.withCompleted c
    have hrep := rep_createOrUpdatePeer h' opt now request
    have hswarm := swarm_createOrUpdatePeer h' opt now request
    have hqueue :
        hrep.queue = h.queue.touch (peerOf opt now request) := by
      simp only [Rep.queue, Queue.touch, Queue.mk.injEq]
      exact hswarm
    obtain ⟨hkeep, hitems⟩ := evictFront_spec hrep opt
    rw [hstate]
    refine ⟨hkeep, ?_⟩
    rw [hqueue] at hitems
    rw [hitems]
    simp only [Op.act, hevent, if_false, act]

/-- The peers that an announce returns come from the swarm it leaves. -/
theorem addrs_announce
    (h : Rep t) (opt : Options) (now : Int) {request : AnnounceRequest}
    (hevent : request.event ≠ .stopped) :
    (t.announce opt now request).1.addrs =
      collectAddrs request (clampNumWant opt request.numWant)
        (without Peer.key request.addr.key t.swarm ++
          [peerOf opt now request]).reverse [] := by
  obtain ⟨c, hc⟩ := countCompletion_eq request
    (t.peers.lookup request.addr.key) t
  have hswarm := swarm_createOrUpdatePeer (h.withCompleted c) opt now request
  rw [swarm] at hswarm
  simp only [announce, hc, hevent, if_false]
  cases hk : t.peers.lookup request.addr.key with
  | none =>
      simp only [hk, createOrUpdatePeer_none] at hswarm ⊢
      rw [List.map_reverse, hswarm]
      rfl
  | some p =>
      simp only [hk, createOrUpdatePeer_some] at hswarm ⊢
      rw [List.map_reverse, hswarm]
      rfl

theorem addrs_announce_stopped
    (opt : Options) (now : Int) {request : AnnounceRequest}
    (hevent : request.event = .stopped) (t : Torrent) :
    (t.announce opt now request).1.addrs = [] := by
  simp only [announce, hevent, if_true]
  split <;> rfl

/-- A torrent never refuses an announce. -/
theorem error_announce
    (opt : Options) (now : Int) (request : AnnounceRequest) (t : Torrent) :
    (t.announce opt now request).1.error = false := by
  by_cases hevent : request.event = .stopped
  · simp only [announce, hevent, if_true]
    split <;> rfl
  · simp only [announce, hevent, if_false]
    cases t.peers.lookup request.addr.key with
    | none =>
        rw [createOrUpdatePeer_none]
    | some p =>
        rw [createOrUpdatePeer_some]

/-- The collected addresses are those of peers that are not left out. -/
theorem mem_collectAddrs {request : AnnounceRequest} {numWant : UInt32}
    {a : Address} (peers : List Peer) :
    ∀ {addrs : List Address},
      a ∈ collectAddrs request numWant peers addrs →
      a ∈ addrs ∨ ∃ x ∈ peers, skips request x = false ∧ x.addr = a := by
  induction peers with
  | nil =>
      intro addrs ha
      exact Or.inl ha
  | cons x peers ih =>
      intro addrs ha
      rw [collectAddrs] at ha
      split at ha
      · exact Or.inl ha
      · split at ha
        · rcases ih ha with ha | ⟨y, hy, hskip, haddr⟩
          · exact Or.inl ha
          · exact Or.inr ⟨y, List.mem_cons_of_mem x hy, hskip, haddr⟩
        · rename_i hskip
          rcases ih ha with ha | ⟨y, hy, hskip, haddr⟩
          · rcases List.mem_append.mp ha with ha | ha
            · exact Or.inl ha
            · refine Or.inr ⟨x, List.mem_cons_self, ?_, ?_⟩
              · simpa using hskip
              · exact (List.mem_singleton.mp ha).symm
          · exact Or.inr ⟨y, List.mem_cons_of_mem x hy, hskip, haddr⟩

/-- An announce returns addresses of peers that were registered before. -/
theorem mem_addrs_announce
    (h : Rep t) {opt : Options} {now : Int} {request : AnnounceRequest}
    {a : Address} (ha : a ∈ (t.announce opt now request).1.addrs) :
    ∃ x ∈ t.swarm, x.addr = a := by
  by_cases hevent : request.event = .stopped
  · rw [addrs_announce_stopped opt now hevent] at ha
    cases ha
  · rw [addrs_announce h opt now hevent] at ha
    rcases mem_collectAddrs _ ha with ha | ⟨x, hx, hskip, haddr⟩
    · cases ha
    · rw [List.mem_reverse, List.mem_append] at hx
      rcases hx with hx | hx
      · exact ⟨x, ((mem_without Peer.key).mp hx).1, haddr⟩
      · -- the announcing peer has the peer id of the request
        rw [List.mem_singleton.mp hx] at hskip
        simp [skips, peerOf] at hskip

theorem cleanup_of_nil {now : Int} {t : Torrent} (hnil : t.timeouts = []) :
    t.cleanup now = t := by
  rw [cleanup]
  split
  · rfl
  · rename_i hcons
    rw [hnil] at hcons
    cases hcons

theorem cleanup_of_cons {now : Int} {t : Torrent} {peer : Ptr}
    {rest : List Ptr} (hcons : t.timeouts = peer :: rest) :
    t.cleanup now =
      if (t.mem peer).timeoutTs > now then t
      else (t.removePeer peer).cleanup now := by
  rw [cleanup]
  split
  · rename_i hnil
    rw [hcons] at hnil
    cases hnil
  · rename_i peer' rest' hcons'
    rw [hcons] at hcons'
    obtain ⟨rfl, rfl⟩ := List.cons.inj hcons'
    rfl

/-- The loop of `cleanup`, one round. -/
theorem cleanup_induction
    {P : Torrent → Prop} {now : Int}
    (hround : ∀ t p, p ∈ t.timeouts → P t → P (t.removePeer p))
    (ht : P t) : P (t.cleanup now) := by
  fun_induction cleanup now t with
  | case1 t hnil =>
      exact ht
  | case2 t peer rest hcons hlive =>
      exact ht
  | case3 t peer rest hcons hdead ih =>
      exact ih (hround t peer (by simp [hcons]) ht)

theorem rep_cleanup (now : Int) (h : Rep t) : Rep (t.cleanup now) :=
  cleanup_induction (fun _ _ hp h => rep_removePeer h hp) h

/--
The loop unlinks the peers up to the first that has not expired.  Here `f` is
what the listed pointers point to.
-/
theorem timeouts_cleanup {f : Ptr → Peer} (now : Int) (h : Rep t)
    (hf : ∀ p ∈ t.timeouts, t.mem p = f p) :
    (t.cleanup now).timeouts =
        t.timeouts.dropWhile (fun p => (f p).timeoutTs ≤ now) ∧
      ∀ p ∈ (t.cleanup now).timeouts, (t.cleanup now).mem p = f p := by
  fun_induction cleanup now t with
  | case1 t hnil =>
      exact ⟨by simp [hnil], hf⟩
  | case2 t peer rest hcons hlive =>
      have hnot : ¬ (f peer).timeoutTs ≤ now := by
        rw [← hf peer (by simp [hcons])]
        omega
      rw [hcons, List.dropWhile_cons_of_neg (by simpa using hnot)]
      exact ⟨rfl, hcons ▸ hf⟩
  | case3 t peer rest hcons hdead ih =>
      have hpeer : peer ∈ t.timeouts := by simp [hcons]
      have hexpired : (f peer).timeoutTs ≤ now := by
        rw [← hf peer hpeer]
        omega
      have hrest : ∀ p ∈ (t.removePeer peer).timeouts,
          (t.removePeer peer).mem p = f p := by
        intro p hp
        rw [removePeer_timeouts, h.nodup.mem_erase_iff] at hp
        rw [removePeer_mem, Function.update_of_ne hp.1, hf p hp.2]
      rw [hcons, List.dropWhile_cons_of_pos (by simpa using hexpired),
        ← timeouts_removePeer_front hcons]
      exact ih (rep_removePeer h hpeer) hrest

/-- A cleanup pops expired peers from the front of the queue. -/
theorem swarm_cleanup (now : Int) (h : Rep t) :
    (t.cleanup now).swarm =
      t.swarm.dropWhile (fun peer => peer.timeoutTs ≤ now) := by
  obtain ⟨hlisted, hdata⟩ := timeouts_cleanup now h fun _ _ => rfl
  rw [swarm, List.map_congr_left hdata, hlisted, swarm, List.dropWhile_map]
  rfl

/-- `t` holds the peers of the queue `q`, in its order. -/
structure Refines (t : Torrent) (q : Queue Peer.key) : Prop where
  rep : Rep t
  swarm : t.swarm = q.items

theorem Refines.queue_eq {q : Queue Peer.key} (h : Refines t q) :
    h.rep.queue = q := by
  cases q
  simp only [Rep.queue, Queue.mk.injEq]
  exact h.swarm

theorem refines_new
    (infoHash : InfoHash) (name path : Text) (length : UInt64) :
    Refines (Torrent.new infoHash name path length)
      (Queue.empty Peer.key) where
  rep :=
    { nodup := List.nodup_nil
      live := by simp [Torrent.new]
      indexed := by simp [Torrent.new]
      counts := ⟨rfl, rfl⟩ }
  swarm := rfl

theorem refines_step
    {q : Queue Peer.key} (h : Refines t q) (opt : Options) (op : Op) :
    Refines (t.step opt op) (act (overfull opt) q (op.act opt)) := by
  cases op with
  | announce now request =>
      obtain ⟨hkeep, hitems⟩ := announce_refines h.rep opt now request
      exact ⟨hkeep, by rw [← h.queue_eq]; exact hitems⟩
  | cleanup now =>
      refine ⟨rep_cleanup now h.rep, ?_⟩
      rw [← h.queue_eq]
      exact swarm_cleanup now h.rep

/-- **A torrent refines a recency queue that pops when it is overfull.** -/
theorem refines_run
    {q : Queue Peer.key} (h : Refines t q) (opt : Options)
    (ops : List Op) :
    Refines (Runs.run (Torrent.step opt) t ops)
      (Runs.run (act (overfull opt)) q (ops.map (Op.act opt))) :=
  Runs.run_simulates (R := Refines) (Op.act opt)
    (fun _ _ op hrel => refines_step hrel opt op) h ops

/-- A step acts on the peers of a torrent as on a queue. -/
theorem Rep.step_refines (h : Rep t) (opt : Options) (op : Op) :
    Refines (t.step opt op) (act (overfull opt) h.queue (op.act opt)) :=
  refines_step ⟨h, rfl⟩ opt op

theorem rep_step (h : Rep t) (opt : Options) (op : Op) :
    Rep (t.step opt op) :=
  (h.step_refines opt op).rep

theorem rep_run (opt : Options)
    (infoHash : InfoHash) (name path : Text) (length : UInt64)
    (ops : List Op) :
    Rep (Runs.run (Torrent.step opt) (new infoHash name path length) ops) :=
  (refines_run (refines_new infoHash name path length) opt ops).rep

end Refinement

section PeersAgree

/--
The representation invariant of a torrent, on the fields of the source: the
list, the index and the counters describe one set of peers, within the
configured capacity, and no counter was ever decremented at zero.
-/
structure PeersAgree (opt : Options) (t : Torrent) : Prop where
  sameSet : ∀ p, p ∈ t.timeouts ↔ ∃ k, t.peers.lookup k = some p
  listedOnce : t.timeouts.Nodup
  indexedOnce : (ExactMap.values t.peers).Nodup
  currentKey : ∀ k p, t.peers.lookup k = some p → (t.mem p).addr.key = k
  distinctKeys : ∀ p ∈ t.timeouts, ∀ q ∈ t.timeouts,
    (t.mem p).addr.key = (t.mem q).addr.key → p = q
  seeders : t.seeders.toNat = t.timeouts.countP (fun p => (t.mem p).left = 0)
  leechers : t.leechers.toNat = t.timeouts.countP (fun p => 0 < (t.mem p).left)
  capacity : t.seeders.toNat + t.leechers.toNat ≤ opt.maxPeers.toNat
  noUnderflow : t.underflow = false

variable {t : Torrent} {opt : Options}

theorem Rep.indexedOnce (h : Rep t) : (ExactMap.values t.peers).Nodup := by
  apply List.Nodup.map_on
  · rintro ⟨k, p⟩ hk ⟨k', p'⟩ hk' hpp'
    have hp := (h.indexed k p).mp (AList.mem_lookup_iff.mpr hk)
    have hp' := (h.indexed k' p').mp (AList.mem_lookup_iff.mpr hk')
    dsimp only at hpp'
    subst hpp'
    rw [← hp.2, ← hp'.2]
  · exact List.Nodup.of_map Sigma.fst t.peers.nodupKeys

/-- The invariant of the run: the representation, the bound and the ghost. -/
structure Steady (opt : Options) (t : Torrent) : Prop where
  rep : Rep t
  bounded : t.swarm.length ≤ opt.maxPeers.toNat
  noUnderflow : t.underflow = false

theorem Steady.peersAgree (h : Steady opt t) : PeersAgree opt t := by
  have hmax := opt.maxPeers.toNat_lt
  have hbounded := h.bounded
  have htotal := countP_seeders_add_leechers t.swarm
  have hs : t.seeders.toNat = t.swarm.countP Peer.isSeeder := by
    rw [h.rep.counts.seeders]
    exact UInt32.toNat_ofNat_of_lt' (by show _ < 2 ^ 32; omega)
  have hl : t.leechers.toNat = t.swarm.countP (fun p => !p.isSeeder) := by
    rw [h.rep.counts.leechers]
    exact UInt32.toNat_ofNat_of_lt' (by show _ < 2 ^ 32; omega)
  exact
    { sameSet := fun p =>
        ⟨fun hp => ⟨_, (h.rep.indexed _ p).mpr ⟨hp, rfl⟩⟩,
          fun ⟨k, hk⟩ => ((h.rep.indexed k p).mp hk).1⟩
      listedOnce := h.rep.nodup
      indexedOnce := h.rep.indexedOnce
      currentKey := fun k p hk => ((h.rep.indexed k p).mp hk).2
      distinctKeys := fun p hp q hq hkey => h.rep.key_injective hp hq hkey
      seeders := by
        rw [hs, swarm, List.countP_map]
        rfl
      leechers := by
        rw [hl, swarm, List.countP_map]
        apply List.countP_congr
        intro p _
        simp [Peer.isSeeder, UInt64.pos_iff_ne_zero]
      capacity := by omega
      noUnderflow := h.noUnderflow }

/-- Without peers to spare no announce decrements a counter at zero. -/
theorem underflow_announce (h : Rep t) (hfit : t.swarm.length + 1 < 2 ^ 32)
    (opt : Options) (now : Int) (request : AnnounceRequest) :
    (t.announce opt now request).2.underflow = t.underflow := by
  by_cases hevent : request.event = .stopped
  · obtain ⟨c, hstate⟩ := announce_state_stopped opt now hevent t
    rw [hstate]
    cases hk : t.peers.lookup request.addr.key with
    | none =>
        rfl
    | some p =>
        obtain ⟨hp, -⟩ := (h.indexed _ p).mp hk
        have hless : t.swarm.length < 2 ^ 32 := by omega
        exact underflow_removePeer (h.withCompleted c) hp hless
  · obtain ⟨c, hstate⟩ := announce_state opt now hevent t
    have h' := h.withCompleted c
    have hless : t.swarm.length < 2 ^ 32 := by omega
    have hlong :
        (({ t with completed := c } : Torrent).createOrUpdatePeer opt
          now request (t.peers.lookup request.addr.key)).2.swarm.length
            < 2 ^ 32 := by
      rw [swarm_createOrUpdatePeer h' opt now request]
      exact lt_of_le_of_lt
        (length_touch_le (peerOf opt now request) h'.queue) hfit
    rw [hstate, underflow_evictFront
      (rep_createOrUpdatePeer h' opt now request) hlong opt]
    exact underflow_createOrUpdatePeer h' hless opt now request

theorem underflow_cleanup (h : Rep t) (hfit : t.swarm.length < 2 ^ 32)
    (now : Int) : (t.cleanup now).underflow = t.underflow := by
  have hkeep :
      Rep (t.cleanup now) ∧ (t.cleanup now).swarm.length < 2 ^ 32 ∧
        (t.cleanup now).underflow = t.underflow := by
    apply cleanup_induction
      (P := fun s => Rep s ∧ s.swarm.length < 2 ^ 32 ∧
        s.underflow = t.underflow) _ ⟨h, hfit, rfl⟩
    rintro s p hp ⟨hrep, hlen, hflow⟩
    refine ⟨rep_removePeer hrep hp, ?_, ?_⟩
    · rw [swarm_removePeer hrep hp]
      exact lt_of_le_of_lt (without_sublist _ _ _).length_le hlen
    · rw [underflow_removePeer hrep hp hlen, hflow]
  exact hkeep.2.2

theorem steady_step (hmax : opt.maxPeers.toNat < 2 ^ 32 - 1)
    (h : Steady opt t) (op : Op) : Steady opt (t.step opt op) := by
  have hstep := h.rep.step_refines opt op
  have hbounded := h.bounded
  refine ⟨hstep.rep, ?_, ?_⟩
  · rw [hstep.swarm]
    exact act_length_le (overfull_succ hmax) h.bounded _
  · rw [← h.noUnderflow]
    cases op with
    | announce now request =>
        exact underflow_announce h.rep (by omega) opt now request
    | cleanup now =>
        exact underflow_cleanup h.rep (by omega) now

theorem steady_run (hmax : opt.maxPeers.toNat < 2 ^ 32 - 1)
    (infoHash : InfoHash) (name path : Text) (length : UInt64)
    (ops : List Op) :
    Steady opt (Runs.run (Torrent.step opt)
      (new infoHash name path length) ops) := by
  apply Runs.run_invariant (I := Steady opt)
  · intro t op h
    exact steady_step hmax h op
  · exact ⟨(refines_new infoHash name path length).rep, Nat.zero_le _, rfl⟩

/-- **The three forms of the peer set agree after every operation.** -/
theorem peersAgree_throughout
    (opt : Options) (hmax : opt.maxPeers.toNat < 2 ^ 32 - 1)
    (infoHash : InfoHash) (name path : Text) (length : UInt64)
    (ops : List Op) :
    Runs.Throughout (Torrent.step opt) (PeersAgree opt)
      (Torrent.new infoHash name path length) ops := by
  rw [Runs.throughout_iff_prefix]
  intro before _ _
  exact (steady_run hmax infoHash name path length before).peersAgree

/-- A swarm of at most one peer, where the second peer evicts the first. -/
theorem peersAgree_throughout_eviction :
    Runs.Throughout (Torrent.step { maxPeers := 1 })
      (PeersAgree { maxPeers := 1 }) (Torrent.new InfoHash.empty [] [] 0)
      [.announce 0 (.plain .none 0 (.inet ⟨[10, 0, 0, 1], rfl⟩ 1)),
        .announce second (.plain .none 7 (.inet ⟨[10, 0, 0, 2], rfl⟩ 1)),
        .cleanup minute] :=
  peersAgree_throughout { maxPeers := 1 } (by decide)
    InfoHash.empty [] [] 0 _

end PeersAgree

end Torrent
end Hefur
