import Hefur.Completions

/-!
# Retransmitted announces

A UDP client that misses the reply sends its announce again.  Handled at the
same clock reading, the repetition leaves the peers and the counters as the
first announce left them (`announce_retransmitted`).

The first announce may create the peer, count a completion and evict the oldest
peer.  The repetition then finds the announced peer at the back of the list
(`announced_last`) and updates it with the data that it has.
-/

namespace Hefur
namespace Torrent

open Recency

section Statement

/-- `t'` holds the same peers as `t`, and the same counts. -/
structure SamePeers (t t' : Torrent) : Prop where
  listed : t'.timeouts = t.timeouts
  data : ∀ p ∈ t.timeouts, t'.mem p = t.mem p
  indexed : t'.peers = t.peers
  leechers : t'.leechers = t.leechers
  seeders : t'.seeders = t.seeders
  completed : t'.completed = t.completed

theorem SamePeers.refl (t : Torrent) : SamePeers t t :=
  ⟨rfl, fun _ _ => rfl, rfl, rfl, rfl, rfl⟩

end Statement

section Capacity

/-- The swarm is within the limit, unless 32 bits cannot exceed the limit. -/
structure Settled (opt : Options) (t : Torrent) : Prop where
  rep : Rep t
  bounded : opt.maxPeers.toNat < 2 ^ 32 - 1 →
    t.swarm.length ≤ opt.maxPeers.toNat

variable {opt : Options} {t : Torrent}

theorem settled_new (opt : Options)
    (infoHash : InfoHash) (name path : Text) (length : UInt64) :
    Settled opt (new infoHash name path length) where
  rep := (refines_new infoHash name path length).rep
  bounded := fun _ => Nat.zero_le _

theorem settled_step (h : Settled opt t) (op : Op) :
    Settled opt (t.step opt op) := by
  have hstep := h.rep.step_refines opt op
  refine ⟨hstep.rep, fun hmax => ?_⟩
  rw [hstep.swarm]
  exact act_length_le (overfull_succ hmax) (h.bounded hmax) _

/-- There is no peer to evict. -/
theorem Settled.not_overfull (h : Settled opt t) :
    overfull opt t.swarm.length = false := by
  rw [Bool.eq_false_iff]
  intro hover
  have hlong := overfull_gt hover
  by_cases hmax : opt.maxPeers.toNat < 2 ^ 32 - 1
  · have hbounded := h.bounded hmax
    omega
  · have hmod := Nat.mod_lt t.swarm.length (show 0 < 2 ^ 32 by omega)
    have hlt : opt.maxPeers.toNat < t.swarm.length % 2 ^ 32 := by
      simpa [overfull] using hover
    omega

theorem Settled.empty (h : Settled opt t) (hmax : opt.maxPeers = 0) :
    t.swarm = [] := by
  have hzero : opt.maxPeers.toNat = 0 := by rw [hmax]; rfl
  have hbounded := h.bounded (by omega)
  exact List.length_eq_zero_iff.mp (by omega)

end Capacity

section Repetition

variable {opt : Options} {now : Int} {request : AnnounceRequest}
variable {t : Torrent}

/-- A stop from a key that is not registered changes nothing. -/
theorem announce_stopped_of_none (opt : Options) (now : Int)
    (hevent : request.event = .stopped)
    (hk : t.peers.lookup request.addr.key = none) :
    (t.announce opt now request).2 = t := by
  simp only [announce, hk, hevent, if_true, countCompletion]

/-- A stop leaves its key unregistered. -/
theorem lookup_announce_stopped (h : Rep t) (opt : Options) (now : Int)
    (hevent : request.event = .stopped) :
    (t.announce opt now request).2.peers.lookup request.addr.key = none := by
  have hstep := h.step_refines opt (.announce now request)
  apply (absent_of_no_key hstep _).1
  intro x hx hkey
  rcases mem_act hx with ⟨-, hother⟩ | htouch
  · rw [key?_act] at hother
    exact hother (congrArg some hkey.symm)
  · obtain ⟨_, _, hop, hnot, -⟩ := act_eq_touch.mp htouch
    exact hnot ((Op.announce.inj hop).2 ▸ hevent)

/-- An announced peer is the last of the list. -/
theorem announced_last (h : Rep t) (now : Int)
    (hmax : opt.maxPeers ≠ 0) (hevent : request.event ≠ .stopped) :
    ∃ others p,
      (t.announce opt now request).2.timeouts = others ++ [p] ∧
        (t.announce opt now request).2.mem p = peerOf opt now request := by
  obtain ⟨others, hswarm⟩ := swarm_announce_last h opt now hmax hevent
  obtain ⟨front, back, htimeouts, -, hback⟩ := List.map_eq_append_iff.mp hswarm
  obtain ⟨p, rfl, hp⟩ := List.map_eq_singleton_iff.mp hback
  exact ⟨front, p, htimeouts, hp⟩

/-- Counting a peer off and on again changes no counter. -/
theorem increment_decrement (left : UInt64) (t : Torrent) :
    (t.decrement left).increment left =
      { t with underflow := (t.decrement left).underflow } := by
  have hcancel : ∀ c : UInt32, c - 1 + 1 = c := fun c =>
    UInt32.sub_add_cancel c 1
  unfold decrement increment
  by_cases hleft : left = 0
  · simp only [hleft, if_true, hcancel]
  · simp only [hleft, if_false, hcancel]

/-- A peer without anything left to report does not complete again. -/
theorem countCompletion_of_left {p : Ptr}
    (hdata : (t.mem p).left = request.left) :
    t.countCompletion request (some p) = t := by
  unfold countCompletion
  dsimp only
  rw [hdata, if_neg]
  rintro ⟨hpos, hzero, -⟩
  rw [hzero] at hpos
  exact UInt64.lt_irrefl 0 hpos

/-- Announcing the last peer again, with the data that it has. -/
theorem announce_last (h : Rep t) {others : List Ptr} {p : Ptr}
    (hlast : t.timeouts = others ++ [p])
    (hdata : t.mem p = peerOf opt now request)
    (hroom : overfull opt t.swarm.length = false)
    (hevent : request.event ≠ .stopped) :
    ∃ u, (t.announce opt now request).2 = { t with underflow := u } := by
  have hk : t.peers.lookup request.addr.key = some p :=
    (h.indexed _ p).mpr ⟨by simp [hlast], by rw [hdata]; rfl⟩
  have hleft : (t.mem p).left = request.left := by rw [hdata]; rfl
  have hmoved : t.timeouts.erase p ++ [p] = t.timeouts := by
    have hnodup := h.nodup
    rw [hlast, List.nodup_append] at hnodup
    have hother : p ∉ others := fun hmem =>
      hnodup.2.2 p hmem p (List.mem_singleton_self p) rfl
    rw [hlast, List.erase_append_right _ hother, List.erase_cons_head,
      List.append_nil]
  have hupdated : t.createOrUpdatePeer opt now request (some p) =
      (some p,
        { t with underflow := (t.decrement request.left).underflow }) := by
    rw [createOrUpdatePeer_some, hleft, increment_decrement, ← hdata,
      Function.update_eq_self, hmoved]
  have hfits : ¬ t.leechers + t.seeders > opt.maxPeers := by
    rw [h.over_iff, hroom]
    exact Bool.false_ne_true
  refine ⟨(t.decrement request.left).underflow, ?_⟩
  simp only [announce, hk, countCompletion_of_left hleft, hevent, if_false,
    hupdated]
  exact if_neg hfits

theorem Rep.peers_eq_empty (h : Rep t) (ht : t.swarm = []) : t.peers = ∅ := by
  apply ExactMap.eq_empty_of_lookup
  intro k
  cases hk : t.peers.lookup k with
  | none =>
      rfl
  | some p =>
      have hmem := h.mem_swarm ((h.indexed k p).mp hk).1
      rw [ht] at hmem
      cases hmem

/-- Two empty torrents with the same count of completions. -/
theorem samePeers_of_empty {t' : Torrent} (h : Rep t) (h' : Rep t')
    (ht : t.swarm = []) (ht' : t'.swarm = [])
    (hcompleted : t'.completed = t.completed) : SamePeers t t' := by
  have hnil : t.timeouts = [] := List.map_eq_nil_iff.mp ht
  have hnil' : t'.timeouts = [] := List.map_eq_nil_iff.mp ht'
  have hcounts := h.counts
  have hcounts' := h'.counts
  rw [ht] at hcounts
  rw [ht'] at hcounts'
  exact
    { listed := by rw [hnil, hnil']
      data := by simp [hnil]
      indexed := by rw [h.peers_eq_empty ht, h'.peers_eq_empty ht']
      leechers := by rw [hcounts.leechers, hcounts'.leechers]
      seeders := by rw [hcounts.seeders, hcounts'.seeders]
      completed := hcompleted }

/-- Where no peers are allowed, no announce completes. -/
theorem completed_announce_of_empty (h : Rep t) (ht : t.swarm = [])
    (opt : Options) (now : Int) (request : AnnounceRequest) :
    (t.announce opt now request).2.completed = t.completed := by
  rw [completed_announce, h.peers_eq_empty ht, AList.lookup_empty]
  rfl

theorem samePeers_announce (h : Settled opt t)
    (now : Int) (request : AnnounceRequest) :
    SamePeers (t.announce opt now request).2
      ((t.announce opt now request).2.announce opt now request).2 := by
  have honce := settled_step h (.announce now request)
  have htwice := settled_step honce (.announce now request)
  by_cases hevent : request.event = .stopped
  · -- the first stop unregisters the peer
    rw [announce_stopped_of_none opt now hevent
      (lookup_announce_stopped h.rep opt now hevent)]
    exact SamePeers.refl _
  · by_cases hmax : opt.maxPeers = 0
    · -- either announce evicts the peer that it creates
      apply samePeers_of_empty honce.rep htwice.rep (honce.empty hmax)
        (htwice.empty hmax)
      exact completed_announce_of_empty honce.rep (honce.empty hmax) opt now
        request
    · -- the second announce updates the last peer
      obtain ⟨others, p, hlast, hdata⟩ :=
        announced_last h.rep now hmax hevent
      obtain ⟨u, hsame⟩ := announce_last honce.rep hlast hdata
        honce.not_overfull hevent
      exact hsame ▸ ⟨rfl, fun _ _ => rfl, rfl, rfl, rfl, rfl⟩

end Repetition

section Runs

/--
**Announces are idempotent under retransmission.**  After every run, under
every limit on the number of peers, an announce that is handled twice at one
clock reading leaves what it leaves when it is handled once.
-/
theorem announce_retransmitted (opt : Options)
    (infoHash : InfoHash) (name path : Text) (length : UInt64)
    (ops : List Op) (now : Int) (request : AnnounceRequest) :
    let t := Runs.run (Torrent.step opt) (new infoHash name path length) ops
    let once := (t.announce opt now request).2
    SamePeers once (once.announce opt now request).2 := by
  apply samePeers_announce
  apply Runs.run_invariant (I := Settled opt)
  · intro t op h
    exact settled_step h op
  · exact settled_new opt infoHash name path length

end Runs

end Torrent
end Hefur
