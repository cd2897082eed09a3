import Hefur.TorrentHistory

/-!
# What a cleanup removes

The loop of `cleanup` looks at the front of `timeouts` only, and returns at the
first peer that has not expired.  It removes every expired peer as long as the
list is in the order in which its peers expire (`TimeoutsOrdered`).

The list is in the order of the announces, so under a clock that never goes
back it is, unless the expiry time of an announce leaves the range of a 64-bit
time (`Op.ExpiryFits`).  The main result is `cleanup_exact_throughout`.
-/

namespace Hefur
namespace Torrent

open Recency

section Statement

/-- The peers are listed in the order in which they expire. -/
def TimeoutsOrdered (t : Torrent) : Prop :=
  t.timeouts.Pairwise fun p q => (t.mem p).timeoutTs ≤ (t.mem q).timeoutTs

/-- The listed peers that have expired at `now`. -/
def expired (now : Int) (t : Torrent) : List Ptr :=
  t.timeouts.filter fun p => (t.mem p).timeoutTs ≤ now

/--
`t'` is `t` without the peers that have expired at `now`.  The counters are
decremented once for each of them, and with fewer than `2^32` peers not at zero.
-/
structure CleanedUp (now : Int) (t t' : Torrent) : Prop where
  listed : t'.timeouts = t.timeouts.filter fun p => (t.mem p).timeoutTs > now
  data : ∀ p ∈ t'.timeouts, t'.mem p = t.mem p
  indexed : ∀ k, t'.peers.lookup k =
    (t.peers.lookup k).filter fun p => (t.mem p).timeoutTs > now
  seeders : t'.seeders = t.seeders -
    UInt32.ofNat ((t.expired now).countP fun p => (t.mem p).left = 0)
  leechers : t'.leechers = t.leechers -
    UInt32.ofNat ((t.expired now).countP fun p => 0 < (t.mem p).left)
  noUnderflow : t.timeouts.length < 2 ^ 32 → t'.underflow = t.underflow

/-- The expiry time that the operation gives a peer is a 64-bit time. -/
def Op.ExpiryFits (opt : Options) : Op → Prop
  | .announce now request =>
      request.event ≠ .stopped →
        -2 ^ 63 ≤ now + keptFor opt ∧ now + keptFor opt < 2 ^ 63
  | .cleanup _ => True

instance (opt : Options) : DecidablePred (Op.ExpiryFits opt) := fun op =>
  match op with
  | .announce _ _ => inferInstanceAs (Decidable (_ → _ ∧ _))
  | .cleanup _ => isTrue trivial

end Statement

section Loop

variable {t : Torrent}

theorem decide_live (ts now : Int) :
    decide (ts > now) = !decide (ts ≤ now) := by
  rw [Bool.eq_iff_iff]
  simp

/-- In an ordered list the loop removes exactly the expired peers. -/
theorem timeouts_cleanup_of_ordered (now : Int) (h : Rep t)
    (hordered : TimeoutsOrdered t) :
    (t.cleanup now).timeouts =
      t.timeouts.filter fun p => (t.mem p).timeoutTs > now := by
  rw [(timeouts_cleanup now h fun _ _ => rfl).1, dropWhile_eq_filter]
  · simp only [decide_live]
  · apply hordered.imp
    intro p q hle hdead
    simp only [decide_eq_true_eq] at hdead ⊢
    omega

/-- What the counters count is split by any test on the peers. -/
theorem Counts.remaining {t' : Torrent} {peers : List Peer}
    (gone : Peer → Bool) (h : Counts t peers)
    (h' : Counts t' (peers.filter fun x => !gone x)) :
    t'.seeders = t.seeders -
        UInt32.ofNat ((peers.filter gone).countP Peer.isSeeder) ∧
      t'.leechers = t.leechers -
        UInt32.ofNat ((peers.filter gone).countP fun x => !x.isSeeder) := by
  rw [h.seeders, h.leechers, h'.seeders, h'.leechers,
    List.countP_eq_countP_filter_add peers Peer.isSeeder gone,
    List.countP_eq_countP_filter_add peers (fun x => !x.isSeeder) gone,
    UInt32.ofNat_add, UInt32.ofNat_add]
  constructor
  · rw [UInt32.add_comm, UInt32.add_sub_cancel]
  · rw [UInt32.add_comm, UInt32.add_sub_cancel]

theorem cleanedUp (now : Int) (h : Rep t) (hordered : TimeoutsOrdered t) :
    CleanedUp now t (t.cleanup now) := by
  have hlisted := timeouts_cleanup_of_ordered now h hordered
  have hdata := (timeouts_cleanup now h fun _ _ => rfl).2
  have hkeep := rep_cleanup now h
  have hswarm : (t.cleanup now).swarm =
      t.swarm.filter fun x => !decide (x.timeoutTs ≤ now) := by
    rw [swarm, List.map_congr_left hdata, hlisted, swarm, List.filter_map]
    simp only [decide_live]
    rfl
  have hcounts := h.counts.remaining (fun x => x.timeoutTs ≤ now)
    (hswarm ▸ hkeep.counts)
  refine
    { listed := hlisted
      data := hdata
      indexed := ?_
      seeders := ?_
      leechers := ?_
      noUnderflow := ?_ }
  · intro k
    ext p
    rw [Option.filter_eq_some_iff, hkeep.indexed, h.indexed, hlisted,
      List.mem_filter]
    constructor
    · rintro ⟨hmem, hkey⟩
      rw [hdata p (by rw [hlisted]; exact List.mem_filter.mpr hmem)] at hkey
      exact ⟨⟨hmem.1, hkey⟩, hmem.2⟩
    · rintro ⟨⟨hp, hkey⟩, hlive⟩
      have hmem : p ∈ (t.cleanup now).timeouts := by
        rw [hlisted]
        exact List.mem_filter.mpr ⟨hp, hlive⟩
      exact ⟨⟨hp, hlive⟩, by rw [hdata p hmem]; exact hkey⟩
  · rw [hcounts.1, swarm, List.filter_map, List.countP_map]
    rfl
  · rw [hcounts.2, swarm, List.filter_map, List.countP_map, expired]
    congr 2
    apply List.countP_congr
    intro p _
    simp [Peer.isSeeder, UInt64.pos_iff_ne_zero]
  · intro hfit
    exact underflow_cleanup h (by rwa [swarm, List.length_map]) now

end Loop

section Order

variable {opt : Options} {t : Torrent} {ops : List Op}

theorem timeoutsOrdered_iff :
    TimeoutsOrdered t ↔
      t.swarm.Pairwise fun x y => x.timeoutTs ≤ y.timeoutTs := by
  rw [swarm, List.pairwise_map]
  rfl

/-- When the peer that an operation registers expires. -/
theorem timeoutTs_item? {op : Op} {x : Peer}
    (hitem : (op.act opt).item? = some x) (hfits : op.ExpiryFits opt) :
    x.timeoutTs = op.clock + keptFor opt := by
  obtain ⟨now, request, rfl, hevent, rfl⟩ :=
    act_eq_touch.mp (Act.item?_eq_some.mp hitem)
  obtain ⟨hlow, hhigh⟩ := hfits hevent
  exact wrap64_eq_self hlow hhigh

/-- The peers of a run are listed in the order of their announces. -/
theorem swarm_run_sublist
    (hinit : Refines t (Queue.empty Peer.key)) (opt : Options)
    (ops : List Op) :
    (Runs.run (Torrent.step opt) t ops).swarm.Sublist
      (ops.filterMap fun op => (op.act opt).item?) := by
  have hsub := items_run_sublist (overfull opt) (ops.map (Op.act opt))
    (Queue.empty Peer.key)
  rw [List.filterMap_map] at hsub
  rw [(refines_run hinit opt ops).swarm]
  exact hsub

/-- A clock that never goes back keeps the peers in order. -/
theorem timeoutsOrdered_run
    (hinit : Refines t (Queue.empty Peer.key))
    (hclock : (ops.map Op.clock).Pairwise (· ≤ ·))
    (hfits : ∀ op ∈ ops, op.ExpiryFits opt) :
    TimeoutsOrdered (Runs.run (Torrent.step opt) t ops) := by
  rw [timeoutsOrdered_iff]
  apply List.Pairwise.sublist (swarm_run_sublist hinit opt ops)
  rw [List.pairwise_filterMap]
  rw [List.pairwise_map] at hclock
  apply hclock.imp_of_mem
  intro op op' hop hop' hle x hx y hy
  rw [timeoutTs_item? hx (hfits op hop), timeoutTs_item? hy (hfits op' hop')]
  omega

end Order

section Runs

/--
**A cleanup removes exactly the expired peers.**  In every run under a clock
that never goes back, in which the expiry times are 64-bit times, the peers are
always listed in the order in which they expire, and a cleanup at any time
leaves exactly those that have not expired.
-/
theorem cleanup_exact_throughout (opt : Options)
    (infoHash : InfoHash) (name path : Text) (length : UInt64)
    {ops : List Op} (hclock : (ops.map Op.clock).Pairwise (· ≤ ·))
    (hfits : ∀ op ∈ ops, op.ExpiryFits opt) :
    Runs.Throughout (Torrent.step opt)
      (fun t => TimeoutsOrdered t ∧ ∀ now, CleanedUp now t (t.cleanup now))
      (new infoHash name path length) ops := by
  rw [Runs.throughout_iff_prefix]
  rintro before after rfl
  have hinit := refines_new infoHash name path length
  rw [List.map_append, List.pairwise_append] at hclock
  have hordered := timeoutsOrdered_run hinit hclock.1
    fun op hop => hfits op (List.mem_append_left _ hop)
  exact ⟨hordered, fun now =>
    cleanedUp now (rep_run opt infoHash name path length before) hordered⟩

/-- Two peers, the first of which has expired after a quarter of an hour. -/
theorem cleanup_exact_throughout_two_peers :
    Runs.Throughout (Torrent.step { announceInterval := 10 })
      (fun t => TimeoutsOrdered t ∧ ∀ now, CleanedUp now t (t.cleanup now))
      (new InfoHash.empty [] [] 0)
      [.announce 0 (.plain .none 0 (.inet sampleIp 1)),
        .announce minute (.plain .none 7 (.inet sampleIp 2)),
        .cleanup (15 * minute)] :=
  cleanup_exact_throughout { announceInterval := 10 } InfoHash.empty [] [] 0
    (by decide) (by decide)

/-- An interval of 292 years, with which the second peer expires at once. -/
def longInterval : Options :=
  { announceInterval := 153722862 }

def wrappingRun : List Op :=
  [.announce 0 (.plain .none 0 (.inet sampleIp 1)),
    .announce (20 * second) (.plain .none 7 (.inet sampleIp 2))]

/-- An expiry time that wraps is listed behind a later one, and stays. -/
theorem cleanup_leaves_expired_peer :
    let t := Runs.run (Torrent.step longInterval)
      (new InfoHash.empty [] [] 0) wrappingRun
    let now := 21 * second
    (wrappingRun.map Op.clock).Pairwise (· ≤ ·) ∧
      ¬ TimeoutsOrdered t ∧ ¬ CleanedUp now t (t.cleanup now) := by
  intro t now
  have htimeouts : t.timeouts = [0, 1] := by decide
  have hfirst : now < (t.mem 0).timeoutTs := by decide
  have hsecond : (t.mem 1).timeoutTs ≤ now := by decide
  have hrep := rep_run longInterval InfoHash.empty [] [] 0 wrappingRun
  refine ⟨by decide, ?_, ?_⟩
  · intro hordered
    rw [TimeoutsOrdered, htimeouts] at hordered
    have hle := List.rel_of_pairwise_cons hordered (List.mem_singleton_self 1)
    omega
  · intro hclean
    have hstays : 1 ∈ (t.cleanup now).timeouts := by
      rw [(timeouts_cleanup now hrep fun _ _ => rfl).1, htimeouts,
        List.dropWhile_cons_of_neg (by simpa using hfirst)]
      simp
    rw [hclean.listed, List.mem_filter] at hstays
    have hlive : now < (t.mem 1).timeoutTs := by simpa using hstays.2
    omega

end Runs

end Torrent
end Hefur
