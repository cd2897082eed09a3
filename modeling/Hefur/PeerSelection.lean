import Hefur.TorrentHistory

/-!
# The peers in a reply

An announce is answered with addresses of other peers.  The loop that collects
them walks backwards through the peers, from the most recently announced one,
and leaves out those that are not `Eligible`.

The order is stated without the list `timeouts`: the registered peers are read
off the index along the keys that have announced, the latest first
(`latestPeers_eq`).

The main result is `reply_lists_latest_eligible`.  A reply never lists more
peers than its own counters count, as long as 32 bits can count them.
-/

namespace Hefur
namespace Torrent

open Recency

section Eligibility

/-- The peers that a reply to `request` may list. -/
def Eligible (request : AnnounceRequest) (peer : Peer) : Prop :=
  peer.peerid ≠ request.peerid ∧
    peer.addr ≠ request.addr ∧
    ¬ (peer.addr.family = .inet6 ∧
      (request.addr.family = .inet ∨ request.skipIpv6 = true))

instance (request : AnnounceRequest) (peer : Peer) :
    Decidable (Eligible request peer) :=
  inferInstanceAs (Decidable (_ ∧ _ ∧ ¬ (_ ∧ (_ ∨ _))))

/-- The registered peer under a key. -/
def peerAt (t : Torrent) (k : List UInt8) : Option Peer :=
  (t.peers.lookup k).map t.mem

/-- The registered peers, the most recently announced first. -/
def latestPeers (t : Torrent) (ops : List Op) : List Peer :=
  (latestFirst (ops.filterMap Op.announcer)).filterMap t.peerAt

/-- The other eligible peers, the most recently announced first. -/
def eligiblePeers (t : Torrent) (ops : List Op) (request : AnnounceRequest) :
    List Peer :=
  (t.latestPeers ops).filter fun peer =>
    peer.key ≠ request.addr.key ∧ Eligible request peer

/-- The requested number, clamped to the bounds of the options. -/
def clampedWant (opt : Options) (numWant : UInt32) : Nat :=
  (max (opt.minNumwant.toNat : Int)
    (min (toInt32 numWant) opt.maxNumwant.toNat)).toNat

/-- The loop leaves out exactly the peers that are not eligible. -/
theorem skips_eq_false_iff {request : AnnounceRequest} {peer : Peer}
    (hother : peer.key ≠ request.addr.key) :
    skips request peer = false ↔ Eligible request peer := by
  have haddr : peer.addr ≠ request.addr := fun heq =>
    hother (congrArg Address.key heq)
  have hsame : request.addr.same peer.addr = false := by
    cases hsame : request.addr.same peer.addr with
    | false => rfl
    | true => exact (haddr (Address.same_iff.mp hsame).2.symm).elim
  simp only [skips, hsame, Eligible, haddr, Bool.or_false, ne_eq,
    not_false_eq_true, true_and]
  by_cases hpeerid : peer.peerid = request.peerid
  · simp [hpeerid]
  · by_cases hfamily : peer.addr.family = .inet6
    · simp [hpeerid, hfamily]
    · simp [hpeerid, hfamily]

end Eligibility

section Loop

/-- The loop takes the first peers that it does not leave out. -/
theorem collectAddrs_eq (request : AnnounceRequest) (numWant : UInt32)
    (peers : List Peer) :
    ∀ addrs : List Address,
      collectAddrs request numWant peers addrs =
        addrs ++ ((peers.filter fun peer => !skips request peer).map
          Peer.addr).take (numWant.toNat - addrs.length) := by
  induction peers with
  | nil =>
      intro addrs
      simp [collectAddrs]
  | cons peer peers ih =>
      intro addrs
      rw [collectAddrs]
      split
      · rename_i hfull
        have hzero : numWant.toNat - addrs.length = 0 := by omega
        simp [hzero]
      · rename_i hroom
        cases hskip : skips request peer with
        | true =>
            rw [if_pos rfl, ih, List.filter_cons_of_neg (by simp [hskip])]
        | false =>
            have hone : numWant.toNat - addrs.length =
                numWant.toNat - (addrs ++ [peer.addr]).length + 1 := by
              rw [List.length_append, List.length_singleton]
              omega
            rw [if_neg (by simp), ih,
              List.filter_cons_of_pos (by simp [hskip]), List.map_cons, hone,
              List.take_succ_cons, List.append_assoc]
            rfl

theorem toNat_clampNumWant {opt : Options}
    (hmin : opt.minNumwant ≤ opt.maxNumwant)
    (hmax : opt.maxNumwant.toNat < 2 ^ 31) (numWant : UInt32) :
    (clampNumWant opt numWant).toNat = clampedWant opt numWant := by
  have hle : opt.minNumwant.toNat ≤ opt.maxNumwant.toNat :=
    UInt32.le_iff_toNat_le.mp hmin
  have hminInt := toInt32_of_lt (w := opt.minNumwant) (by omega)
  have hmaxInt := toInt32_of_lt hmax
  rw [clampNumWant, clampedWant, hminInt, hmaxInt]
  split
  · omega
  · split
    · omega
    · rename_i hlow hhigh
      have hwant : toInt32 numWant = numWant.toNat := by
        unfold toInt32 at hlow ⊢
        split
        · rfl
        · rename_i hbig
          rw [if_neg hbig] at hlow
          have hlt := numWant.toNat_lt
          omega
      omega

end Loop

section Order

variable {opt : Options} {t : Torrent}

theorem peerAt_eq_some_iff (h : Rep t) {k : List UInt8} {x : Peer} :
    t.peerAt k = some x ↔ x ∈ t.swarm ∧ x.key = k := by
  rw [peerAt, Option.map_eq_some_iff]
  constructor
  · rintro ⟨p, hp, rfl⟩
    obtain ⟨hlisted, hkey⟩ := (h.indexed k p).mp hp
    exact ⟨h.mem_swarm hlisted, hkey⟩
  · rintro ⟨hx, hkey⟩
    obtain ⟨p, hp, rfl⟩ := List.mem_map.mp hx
    exact ⟨p, (h.indexed k p).mpr ⟨hp, hkey⟩, rfl⟩

/-- The peers of a torrent are those that the index has in latest order. -/
theorem latestPeers_eq {t₀ : Torrent}
    (hinit : Refines t₀ (Queue.empty Peer.key)) (opt : Options)
    (ops : List Op) :
    (Runs.run (Torrent.step opt) t₀ ops).latestPeers ops =
      (Runs.run (Torrent.step opt) t₀ ops).swarm.reverse := by
  have hrun := refines_run hinit opt ops
  have hkeys : (ops.map (Op.act opt)).filterMap (Act.key? Peer.key) =
      ops.filterMap Op.announcer := by
    rw [List.filterMap_map]
    congr 1
    funext op
    exact key?_act opt op
  have hordered : OrderedBy (ops.filterMap Op.announcer)
      (Runs.run (act (overfull opt)) (Queue.empty Peer.key)
        (ops.map (Op.act opt))) := by
    rw [← hkeys]
    exact orderedBy_run (overfull opt) (ops.map (Op.act opt)) orderedBy_empty
  rw [latestPeers, hrun.swarm]
  apply filterMap_latestFirst hordered
  intro k x
  rw [peerAt_eq_some_iff hrun.rep, hrun.swarm]

/-- The reply lists the other eligible peers in the order of the swarm. -/
theorem addrs_eq (h : Rep t) (now : Int) {request : AnnounceRequest}
    (hevent : request.event ≠ .stopped) :
    (t.announce opt now request).1.addrs =
      (((t.swarm.reverse.filter fun peer =>
        peer.key ≠ request.addr.key ∧ Eligible request peer).map
          Peer.addr).take (clampNumWant opt request.numWant).toNat) := by
  have hself : skips request (peerOf opt now request) = true := by
    simp [skips, peerOf]
  rw [addrs_announce h opt now hevent, collectAddrs_eq, List.nil_append,
    List.length_nil, Nat.sub_zero, List.reverse_append,
    List.reverse_singleton, List.singleton_append,
    List.filter_cons_of_neg (by simp [hself])]
  congr 2
  rw [without, ← List.filter_reverse, List.filter_filter]
  apply List.filter_congr
  intro x _
  by_cases hother : x.key = request.addr.key
  · simp [hother]
  · cases hskip : skips request x with
    | false => simp [hother, (skips_eq_false_iff hother).mp hskip]
    | true =>
        have hnot : ¬ Eligible request x := fun heligible => by
          rw [(skips_eq_false_iff hother).mpr heligible] at hskip
          cases hskip
        simp [hnot]

end Order

section Counters

variable {opt : Options} {t : Torrent}

/-- A reply states the counters from before the announce. -/
theorem counters_announce (opt : Options) (now : Int)
    (request : AnnounceRequest) (t : Torrent) :
    (t.announce opt now request).1.nleechers = t.leechers ∧
      (t.announce opt now request).1.nseeders = t.seeders := by
  simp only [announce]
  split
  · split <;> exact ⟨rfl, rfl⟩
  · cases t.peers.lookup request.addr.key with
    | none =>
        rw [createOrUpdatePeer_none]
        exact ⟨rfl, rfl⟩
    | some p =>
        rw [createOrUpdatePeer_some]
        exact ⟨rfl, rfl⟩

/-- Fewer than `2^32` peers are counted exactly. -/
theorem Rep.counters_eq (h : Rep t) (hfit : t.swarm.length < 2 ^ 32) :
    t.leechers.toNat + t.seeders.toNat = t.swarm.length := by
  have htotal := countP_seeders_add_leechers t.swarm
  rw [h.counts.seeders, h.counts.leechers,
    UInt32.toNat_ofNat_of_lt' (by show _ < 2 ^ 32; omega),
    UInt32.toNat_ofNat_of_lt' (by show _ < 2 ^ 32; omega)]
  omega

theorem nodup_addrs (h : Rep t) : (t.swarm.map Peer.addr).Nodup := by
  apply List.Nodup.of_map Address.key
  rw [List.map_map]
  exact h.nodup_keys

end Counters

section Replies

/--
**The content of a reply.**  It lists the first of the other eligible peers,
the most recently announced first, as many as the clamped number allows.  No
address occurs twice.  While the torrent holds fewer than `2^32` peers, which
any smaller `MAX_PEERS` than `2^32 - 1` guarantees, a reply lists no more peers
than its counters count.
-/
theorem reply_lists_latest_eligible
    {opt : Options} (hmin : opt.minNumwant ≤ opt.maxNumwant)
    (hmax : opt.maxNumwant.toNat < 2 ^ 31)
    (infoHash : InfoHash) (name path : Text) (length : UInt64)
    (ops : List Op) (now : Int) {request : AnnounceRequest}
    (hevent : request.event ≠ .stopped) :
    let t := Runs.run (Torrent.step opt) (new infoHash name path length) ops
    let reply := (t.announce opt now request).1
    let eligible := t.eligiblePeers ops request
    reply.addrs = (eligible.map Peer.addr).take
        (min eligible.length (clampedWant opt request.numWant)) ∧
      reply.addrs.Nodup ∧
      (t.timeouts.length < 2 ^ 32 →
        reply.addrs.length ≤ reply.nleechers.toNat + reply.nseeders.toNat) ∧
      (opt.maxPeers.toNat < 2 ^ 32 - 1 → t.timeouts.length < 2 ^ 32) := by
  intro t reply eligible
  have hinit := refines_new infoHash name path length
  have hrep : Rep t := rep_run opt infoHash name path length ops
  have heligible : eligible = t.swarm.reverse.filter fun peer =>
      peer.key ≠ request.addr.key ∧ Eligible request peer :=
    congrArg (List.filter _) (latestPeers_eq hinit opt ops)
  have haddrs : reply.addrs = (eligible.map Peer.addr).take
      (clampedWant opt request.numWant) := by
    rw [heligible, ← toNat_clampNumWant hmin hmax]
    exact addrs_eq hrep now hevent
  have hlength : t.swarm.length = t.timeouts.length := List.length_map _
  refine ⟨?_, ?_, ?_, ?_⟩
  · rw [haddrs, List.take_eq_take_min, List.length_map, Nat.min_comm]
  · rw [haddrs, heligible]
    apply ((List.take_sublist _ _).trans
      (List.filter_sublist.map Peer.addr)).nodup
    rw [List.map_reverse, List.nodup_reverse]
    exact nodup_addrs hrep
  · intro hfit
    obtain ⟨hleechers, hseeders⟩ := counters_announce opt now request t
    rw [hleechers, hseeders, hrep.counters_eq (hlength ▸ hfit), haddrs,
      heligible]
    refine (List.length_take_le' _ _).trans ?_
    rw [List.length_map]
    refine (List.length_filter_le _ _).trans ?_
    rw [List.length_reverse]
  · intro hsmall
    have hbound := (steady_run hsmall infoHash name path length ops).bounded
    rw [← hlength]
    exact lt_of_le_of_lt hbound (by omega)

/-- The announce of the `i`-th of many leechers. -/
def leecherAt (i : Nat) : AnnounceRequest :=
  .plain .none 1 (.inet6 (Bytes.toBE 16 i) 0)

/-- An announce from none of them. -/
def anotherLeecher : AnnounceRequest :=
  { leecherAt (2 ^ 32) with peerid := ⟨List.replicate 20 2, rfl⟩ }

theorem reply_lists_latest_eligible_two_peers :
    let ops := [.announce 0 (leecherAt 0), .announce 0 (leecherAt 1)]
    let t := Runs.run (Torrent.step {}) (new InfoHash.empty [] [] 0) ops
    (t.announce {} 0 anotherLeecher).1.addrs =
      ((t.eligiblePeers ops anotherLeecher).map Peer.addr).take
        (min (t.eligiblePeers ops anotherLeecher).length
          (clampedWant {} 0)) :=
  (reply_lists_latest_eligible (by decide) (by decide) InfoHash.empty [] [] 0
    [.announce 0 (leecherAt 0), .announce 0 (leecherAt 1)] 0
      (by decide)).1

end Replies

section ManyPeers

/-- No limit on the number of peers. -/
def unlimited : Options :=
  { maxPeers := 0xFFFFFFFF }

/-- The announces of the first `n` leechers. -/
def manyLeechers (n : Nat) : List Op :=
  (List.range n).map fun i => .announce 0 (leecherAt i)

theorem overfull_unlimited (len : Nat) : overfull unlimited len = false := by
  have hmod := Nat.mod_lt len (show 0 < 2 ^ 32 by omega)
  have hmax : unlimited.maxPeers.toNat = 2 ^ 32 - 1 := rfl
  rw [overfull, hmax, decide_eq_false_iff_not]
  omega

theorem key_leecherAt_inj {i j : Nat} (hi : i < 2 ^ 128) (hj : j < 2 ^ 128)
    (h : (leecherAt i).addr.key = (leecherAt j).addr.key) : i = j := by
  have hbytes := List.append_inj_left' h rfl
  rw [← Bytes.ofBE_toBE (n := 16) (x := i) (by omega),
    ← Bytes.ofBE_toBE (n := 16) (x := j) (by omega), hbytes]

/-- Without a limit every leecher stays. -/
theorem swarm_manyLeechers {n : Nat} (hn : n ≤ 2 ^ 128) :
    (Runs.run (Torrent.step unlimited) (new InfoHash.empty [] [] 0)
      (manyLeechers n)).swarm =
        (List.range n).map fun i => peerOf unlimited 0 (leecherAt i) := by
  have hrun := refines_run (refines_new InfoHash.empty [] [] 0) unlimited
    (manyLeechers n)
  rw [hrun.swarm]
  clear hrun
  induction n with
  | zero =>
      rfl
  | succ n ih =>
      have hbefore := ih (by omega)
      have hact : Op.act unlimited (.announce 0 (leecherAt n)) =
          .touch (peerOf unlimited 0 (leecherAt n)) := by
        have hevent : (leecherAt n).event ≠ .stopped := by
          intro hstop
          cases hstop
        rw [Op.act, if_neg hevent]
      have hsucc : manyLeechers (n + 1) =
          manyLeechers n ++ [.announce 0 (leecherAt n)] := by
        rw [manyLeechers, List.range_succ, List.map_append]
        rfl
      rw [hsucc, List.map_append, Runs.run_append, List.map_singleton, hact,
        Runs.run_cons, Runs.run_nil, items_act_touch_fresh _
          (overfull_unlimited _), hbefore, List.range_succ, List.map_append]
      · rfl
      · intro x hx hkey
        rw [hbefore] at hx
        obtain ⟨i, hi, rfl⟩ := List.mem_map.mp hx
        have hlt := List.mem_range.mp hi
        have heq := key_leecherAt_inj (by omega) (by omega) hkey
        omega

/-- Once all leechers are counted, the counters are back at zero. -/
theorem counters_manyLeechers {t : Torrent} {n : Nat} (hn : n = 2 ^ 32)
    (hrep : Rep t)
    (hswarm : t.swarm = (List.range n).map fun i =>
      peerOf unlimited 0 (leecherAt i)) :
    t.leechers = 0 ∧ t.seeders = 0 := by
  have hseeders : t.swarm.countP Peer.isSeeder = 0 := by
    rw [List.countP_eq_zero, hswarm]
    intro x hx
    obtain ⟨i, -, rfl⟩ := List.mem_map.mp hx
    simp [Peer.isSeeder, peerOf, leecherAt, AnnounceRequest.plain]
  have htotal := countP_seeders_add_leechers t.swarm
  rw [hseeders, Nat.zero_add, hswarm, List.length_map, List.length_range,
    ← hswarm, hn] at htotal
  rw [hrep.counts.leechers, hrep.counts.seeders, htotal, hseeders]
  exact ⟨rfl, rfl⟩

/-- Such a torrent lists peers in its reply, but counts none. -/
theorem addrs_manyLeechers {t : Torrent} {n : Nat} (hn : n = 2 ^ 32)
    (hrep : Rep t)
    (hswarm : t.swarm = (List.range n).map fun i =>
      peerOf unlimited 0 (leecherAt i)) :
    ¬ (t.announce unlimited 0 anotherLeecher).1.addrs.length ≤
      (t.announce unlimited 0 anotherLeecher).1.nleechers.toNat +
        (t.announce unlimited 0 anotherLeecher).1.nseeders.toNat := by
  obtain ⟨hleechers, hseeders⟩ :=
    counters_announce unlimited 0 anotherLeecher t
  obtain ⟨hnoLeechers, hnoSeeders⟩ := counters_manyLeechers hn hrep hswarm
  have hlisted : peerOf unlimited 0 (leecherAt 0) ∈
      t.swarm.reverse.filter fun peer =>
        peer.key ≠ anotherLeecher.addr.key ∧
          Eligible anotherLeecher peer := by
    rw [List.mem_filter, List.mem_reverse, hswarm]
    refine ⟨List.mem_map_of_mem (List.mem_range.mpr (by omega)), ?_⟩
    decide
  have hpos := List.length_pos_of_mem hlisted
  have hwant : (clampNumWant unlimited anotherLeecher.numWant).toNat = 50 := by
    decide
  rw [hleechers, hseeders, hnoLeechers, hnoSeeders,
    addrs_eq hrep 0 (by decide), hwant, List.length_take, List.length_map,
    UInt32.toNat_zero]
  omega

/-- After `2^32` leechers a reply lists more peers than it counts. -/
theorem reply_outnumbers_its_counters :
    let t := Runs.run (Torrent.step unlimited) (new InfoHash.empty [] [] 0)
      (manyLeechers (2 ^ 32))
    let reply := (t.announce unlimited 0 anotherLeecher).1
    ¬ reply.addrs.length ≤ reply.nleechers.toNat + reply.nseeders.toNat :=
  addrs_manyLeechers rfl
    (rep_run unlimited InfoHash.empty [] [] 0 (manyLeechers (2 ^ 32)))
    (swarm_manyLeechers (by omega))

end ManyPeers

end Torrent
end Hefur
