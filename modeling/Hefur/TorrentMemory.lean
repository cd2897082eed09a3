import Hefur.TorrentInvariant

/-!
# Memory safety of a torrent

The list and the index of a torrent hold plain pointers to peers that `new` and
`delete` manage.  `Heap` adds the record of all deletes to a torrent, and its
operations are those of `torrent.cc` with every access checked: they are `none`
as soon as a deleted peer would be read, written, unlinked or deleted again, or
the front of an empty list taken.  A search in the index may compare the keys of
all indexed peers, and the loop of an announce may visit the whole list.

`memory_safe`: in no run does an access fail, the checked operations do what the
operations of the model do, the peers that are alive are those of the list, and
the destructor deletes exactly them.
-/

namespace Hefur
namespace Torrent

/-- A torrent, and all peers that were ever deleted, in order. -/
structure Heap where
  torrent : Torrent
  freed : List Ptr

namespace Heap

section Operations

/-- Allocated and not deleted. -/
def Live (h : Heap) (p : Ptr) : Prop :=
  p < h.torrent.brk ∧ p ∉ h.freed

instance (h : Heap) (p : Ptr) : Decidable (h.Live p) :=
  inferInstanceAs (Decidable (_ ∧ _))

/-- Go on if all peers that are about to be read are alive. -/
def reads (h : Heap) (peers : List Ptr) (next : Option Heap) :
    Option Heap :=
  if ∀ p ∈ peers, h.Live p then next else none

/-- `timeouts_.erase(peer)`, of a peer that has to be linked. -/
def unlinks (h : Heap) (peer : Ptr) (next : Option Heap) : Option Heap :=
  if peer ∈ h.torrent.timeouts then next else none

/-- `removePeer`: unlink the peer, unindex it and delete it. -/
def removePeer (peer : Ptr) (h : Heap) : Option Heap :=
  h.reads [peer] <| h.unlinks peer <|
    h.reads (ExactMap.values h.torrent.peers) <|
      some ⟨h.torrent.removePeer peer, h.freed ++ [peer]⟩

/-- `createOrUpdatePeer`: a peer to update is read, and moved in the list. -/
def createOrUpdatePeer (opt : Options) (now : Int)
    (request : AnnounceRequest) (peer : Option Ptr) (h : Heap) :
    Option Heap :=
  let done : Option Heap := some
    { h with
      torrent := (h.torrent.createOrUpdatePeer opt now request peer).2 }
  match peer with
  | some p => h.reads [p] <| h.unlinks p done
  | none => h.reads (ExactMap.values h.torrent.peers) done

/-- `if (leechers_ + seeders_ > MAX_PEERS) removePeer(timeouts_.front())`. -/
def evictFront (opt : Options) (h : Heap) : Option Heap :=
  if h.torrent.leechers + h.torrent.seeders > opt.maxPeers then
    match h.torrent.timeouts with
    | [] => none
    | front :: _ => h.removePeer front
  else some h

def announce (opt : Options) (now : Int) (request : AnnounceRequest)
    (h : Heap) : Option Heap :=
  h.reads (ExactMap.values h.torrent.peers) <|
    let peer := h.torrent.peers.lookup request.addr.key
    h.reads peer.toList <|
      let h : Heap :=
        { h with torrent := h.torrent.countCompletion request peer }
      if request.event = .stopped then
        match peer with
        | some p => h.removePeer p
        | none => some h
      else
        (h.createOrUpdatePeer opt now request peer).bind fun h =>
          h.reads h.torrent.timeouts <| h.evictFront opt

/-- The loop of `cleanup`; there are at most `n` peers left. -/
def cleanupLoop (now : Int) : Nat → Heap → Option Heap
  | 0, h => some h
  | n + 1, h =>
      match h.torrent.timeouts with
      | [] => some h
      | peer :: _ =>
          h.reads [peer] <|
            if (h.torrent.mem peer).timeoutTs > now then some h
            else (h.removePeer peer).bind (cleanupLoop now n)

def cleanup (now : Int) (h : Heap) : Option Heap :=
  cleanupLoop now h.torrent.timeouts.length h

/-- The loop of the destructor, over the peers that are left in the list. -/
def destroyLoop : List Ptr → Heap → Option Heap
  | [], h => some h
  | peer :: rest, h =>
      h.reads [peer] <|
        destroyLoop rest
          { torrent := { h.torrent with timeouts := rest }
            freed := h.freed ++ [peer] }

/-- `~Torrent`: the peers are deleted, but not taken out of the index. -/
def destroy (h : Heap) : Option Heap :=
  destroyLoop h.torrent.timeouts h

def step (opt : Options) (h : Heap) : Op → Option Heap
  | .announce now request => h.announce opt now request
  | .cleanup now => h.cleanup now

/-- A run of the checked operations. -/
def run (opt : Options) : Heap → List Op → Option Heap
  | h, [] => some h
  | h, op :: ops => (h.step opt op).bind fun h => h.run opt ops

/-- The heap of a new torrent. -/
def new (infoHash : InfoHash) (name path : Text) (length : UInt64) : Heap where
  torrent := Torrent.new infoHash name path length
  freed := []

end Operations

section Safety

/-- The list owns the live peers, and nothing was deleted twice. -/
structure Owned (h : Heap) : Prop where
  rep : Rep h.torrent
  live : ∀ p, h.Live p ↔ p ∈ h.torrent.timeouts
  nodup : h.freed.Nodup
  allocated : ∀ p ∈ h.freed, p < h.torrent.brk

namespace Owned

variable {h : Heap} {peer : Ptr} {next : Option Heap}

theorem reads_listed (ho : Owned h) {peers : List Ptr}
    (hpeers : ∀ p ∈ peers, p ∈ h.torrent.timeouts) :
    h.reads peers next = next :=
  if_pos fun p hp => (ho.live p).mpr (hpeers p hp)

theorem reads_one (ho : Owned h) (hpeer : peer ∈ h.torrent.timeouts) :
    h.reads [peer] next = next :=
  ho.reads_listed (by simpa using hpeer)

/-- The index holds peers of the list. -/
theorem reads_index (ho : Owned h) :
    h.reads (ExactMap.values h.torrent.peers) next = next := by
  apply ho.reads_listed
  intro p hp
  obtain ⟨k, hk⟩ := ExactMap.mem_values_iff.mp hp
  exact ((ho.rep.indexed k p).mp hk).1

theorem removePeer_eq (ho : Owned h) (hpeer : peer ∈ h.torrent.timeouts) :
    h.removePeer peer =
      some ⟨h.torrent.removePeer peer, h.freed ++ [peer]⟩ := by
  rw [Heap.removePeer, ho.reads_one hpeer, unlinks, if_pos hpeer,
    ho.reads_index]

/-- Deleting a listed peer. -/
theorem owned_removePeer (ho : Owned h) (hpeer : peer ∈ h.torrent.timeouts) :
    Owned ⟨h.torrent.removePeer peer, h.freed ++ [peer]⟩ where
  rep := rep_removePeer ho.rep hpeer
  live := by
    intro p
    have hlive := ho.live p
    simp only [Live] at hlive
    simp only [Live, removePeer_brk, removePeer_timeouts, List.mem_append,
      List.mem_singleton, ho.rep.nodup.mem_erase_iff, ← hlive]
    tauto
  nodup := by
    rw [List.nodup_append]
    refine ⟨ho.nodup, List.nodup_singleton _, ?_⟩
    intro p hp q hq hpq
    obtain rfl := List.mem_singleton.mp hq
    exact ((ho.live q).mpr hpeer).2 (hpq ▸ hp)
  allocated := by
    intro p hp
    rw [removePeer_brk]
    rcases List.mem_append.mp hp with hp | hp
    · exact ho.allocated p hp
    · rw [List.mem_singleton.mp hp]
      exact ho.rep.live peer hpeer

theorem withCompleted (ho : Owned h) (c : UInt32) :
    Owned { h with torrent := { h.torrent with completed := c } } where
  rep := ho.rep.withCompleted c
  live := ho.live
  nodup := ho.nodup
  allocated := ho.allocated

/-- The peer of an announce is updated, or a new one allocated. -/
theorem owned_createOrUpdatePeer (ho : Owned h) (opt : Options) (now : Int)
    (request : AnnounceRequest) :
    Owned
      { h with
        torrent := (h.torrent.createOrUpdatePeer opt now request
          (h.torrent.peers.lookup request.addr.key)).2 } := by
  have hrep := rep_createOrUpdatePeer ho.rep opt now request
  have hlive := ho.live
  simp only [Live] at hlive
  cases hk : h.torrent.peers.lookup request.addr.key with
  | none =>
      rw [hk, createOrUpdatePeer_none] at hrep
      rw [createOrUpdatePeer_none]
      refine ⟨hrep, fun p => ?_, ho.nodup, fun p hp => ?_⟩
      · simp only [Live, List.mem_append, List.mem_singleton, ← hlive]
        constructor
        · rintro ⟨hlt, hfree⟩
          rcases Nat.lt_succ_iff_lt_or_eq.mp hlt with hlt | rfl
          · exact Or.inl ⟨hlt, hfree⟩
          · exact Or.inr rfl
        · rintro (⟨hlt, hfree⟩ | rfl)
          · exact ⟨Nat.lt_succ_of_lt hlt, hfree⟩
          · exact ⟨Nat.lt_succ_self _,
              fun hmem => lt_irrefl _ (ho.allocated _ hmem)⟩
      · exact Nat.lt_succ_of_lt (ho.allocated p hp)
  | some q =>
      have hq := ((ho.rep.indexed _ q).mp hk).1
      rw [hk, createOrUpdatePeer_some] at hrep
      rw [createOrUpdatePeer_some]
      refine ⟨hrep, fun p => ?_, ho.nodup, fun p hp => ?_⟩
      · simp only [Live, List.mem_append, List.mem_singleton,
          ho.rep.nodup.mem_erase_iff, increment_brk, decrement_brk, hlive]
        constructor
        · intro hp
          by_cases hpq : p = q
          · exact Or.inr hpq
          · exact Or.inl ⟨hpq, hp⟩
        · rintro (⟨-, hp⟩ | rfl)
          · exact hp
          · exact hq
      · rw [increment_brk, decrement_brk]
        exact ho.allocated p hp

theorem createOrUpdatePeer_eq (ho : Owned h) (opt : Options) (now : Int)
    (request : AnnounceRequest) :
    h.createOrUpdatePeer opt now request
        (h.torrent.peers.lookup request.addr.key) =
      some
        { h with
          torrent := (h.torrent.createOrUpdatePeer opt now request
            (h.torrent.peers.lookup request.addr.key)).2 } := by
  cases hk : h.torrent.peers.lookup request.addr.key with
  | none =>
      exact ho.reads_index
  | some p =>
      have hp := ((ho.rep.indexed _ p).mp hk).1
      rw [Heap.createOrUpdatePeer, ho.reads_one hp, unlinks, if_pos hp]

/-- An overfull list is not empty. -/
theorem evictFront_eq (ho : Owned h) (opt : Options) :
    ∃ freed, h.evictFront opt = some ⟨h.torrent.evictFront opt, freed⟩ ∧
      Owned ⟨h.torrent.evictFront opt, freed⟩ := by
  rw [Heap.evictFront, Torrent.evictFront]
  split
  · rename_i hover
    cases hlist : h.torrent.timeouts with
    | nil =>
        have hlong := overfull_gt ((ho.rep.over_iff opt).mp hover)
        simp [swarm, hlist] at hlong
    | cons front rest =>
        have hfront : front ∈ h.torrent.timeouts := by simp [hlist]
        exact ⟨_, ho.removePeer_eq hfront, ho.owned_removePeer hfront⟩
  · exact ⟨h.freed, rfl, ho⟩

end Owned

/-- The checked operation succeeds and does what `op` does to the torrent. -/
def Safe (h : Option Heap) (t : Torrent) : Prop :=
  ∃ freed, h = some ⟨t, freed⟩ ∧ Owned ⟨t, freed⟩

theorem safe_announce {h : Heap} (ho : Owned h) (opt : Options) (now : Int)
    (request : AnnounceRequest) :
    Safe (h.announce opt now request)
      (h.torrent.announce opt now request).2 := by
  obtain ⟨c, hc⟩ := countCompletion_eq request
    (h.torrent.peers.lookup request.addr.key) h.torrent
  have ho' := ho.withCompleted c
  have hpeer : ∀ p ∈ (h.torrent.peers.lookup request.addr.key).toList,
      p ∈ h.torrent.timeouts := by
    intro p hp
    rw [Option.mem_toList] at hp
    exact ((ho.rep.indexed _ p).mp hp).1
  rw [Heap.announce, ho.reads_index]
  dsimp only
  rw [ho.reads_listed hpeer, hc]
  by_cases hevent : request.event = .stopped
  · have hstate : (h.torrent.announce opt now request).2 =
        match h.torrent.peers.lookup request.addr.key with
        | some p =>
            ({ h.torrent with completed := c } : Torrent).removePeer p
        | none => { h.torrent with completed := c } := by
      simp only [Torrent.announce, hc, hevent, if_true]
      cases h.torrent.peers.lookup request.addr.key <;> rfl
    rw [if_pos hevent, hstate]
    cases hk : h.torrent.peers.lookup request.addr.key with
    | none =>
        exact ⟨h.freed, rfl, ho'⟩
    | some p =>
        have hp := ((ho.rep.indexed _ p).mp hk).1
        exact ⟨_, ho'.removePeer_eq hp, ho'.owned_removePeer hp⟩
  · have hstate : (h.torrent.announce opt now request).2 =
        (({ h.torrent with completed := c } : Torrent).createOrUpdatePeer opt
          now request
          (h.torrent.peers.lookup request.addr.key)).2.evictFront opt := by
      simp only [Torrent.announce, hc, hevent, if_false]
      cases h.torrent.peers.lookup request.addr.key with
      | none =>
          rw [createOrUpdatePeer_none]
      | some p =>
          rw [createOrUpdatePeer_some]
    have hcreate := ho'.createOrUpdatePeer_eq opt now request
    have hcreated := ho'.owned_createOrUpdatePeer opt now request
    rw [if_neg hevent, hstate, hcreate, Option.bind_some,
      hcreated.reads_listed fun _ hp => hp]
    exact hcreated.evictFront_eq opt

theorem safe_cleanupLoop (now : Int) (n : Nat) {h : Heap} (ho : Owned h)
    (hn : h.torrent.timeouts.length ≤ n) :
    Safe (cleanupLoop now n h) (h.torrent.cleanup now) := by
  induction n generalizing h with
  | zero =>
      have hnil := List.eq_nil_of_length_eq_zero (Nat.le_zero.mp hn)
      rw [cleanup_of_nil hnil]
      exact ⟨h.freed, rfl, ho⟩
  | succ n ih =>
      rw [cleanupLoop]
      cases hlist : h.torrent.timeouts with
      | nil =>
          rw [cleanup_of_nil hlist]
          exact ⟨h.freed, rfl, ho⟩
      | cons peer rest =>
          have hpeer : peer ∈ h.torrent.timeouts := by simp [hlist]
          rw [cleanup_of_cons hlist]
          dsimp only
          rw [ho.reads_one hpeer]
          split
          · exact ⟨h.freed, rfl, ho⟩
          · rw [ho.removePeer_eq hpeer, Option.bind_some]
            refine ih (ho.owned_removePeer hpeer) ?_
            rw [timeouts_removePeer_front hlist]
            rw [hlist, List.length_cons] at hn
            omega

theorem safe_step {h : Heap} (ho : Owned h) (opt : Options) (op : Op) :
    Safe (h.step opt op) (h.torrent.step opt op) := by
  cases op with
  | announce now request => exact safe_announce ho opt now request
  | cleanup now => exact safe_cleanupLoop now _ ho le_rfl

theorem safe_run (opt : Options) {h : Heap} (ho : Owned h) (ops : List Op) :
    Safe (h.run opt ops) (Runs.run (Torrent.step opt) h.torrent ops) := by
  induction ops generalizing h with
  | nil =>
      exact ⟨h.freed, rfl, ho⟩
  | cons op ops ih =>
      obtain ⟨freed, hstep, howned⟩ := safe_step ho opt op
      rw [Heap.run, hstep, Option.bind_some, Runs.run_cons]
      exact ih howned

/-- The destructor deletes the peers it is given, one after the other. -/
theorem destroyLoop_eq {peers : List Ptr} {h : Heap} (hnodup : peers.Nodup)
    (hlive : ∀ p ∈ peers, h.Live p) :
    ∃ t, destroyLoop peers h = some ⟨t, h.freed ++ peers⟩ := by
  induction peers generalizing h with
  | nil =>
      exact ⟨h.torrent, by rw [List.append_nil]; rfl⟩
  | cons peer rest ih =>
      obtain ⟨hpeer, hrest⟩ := List.nodup_cons.mp hnodup
      have hone : ∀ p ∈ [peer], h.Live p := by
        intro p hp
        obtain rfl := List.mem_singleton.mp hp
        exact hlive p List.mem_cons_self
      rw [destroyLoop, reads, if_pos hone]
      obtain ⟨t, hloop⟩ := ih (h :=
        { torrent := { h.torrent with timeouts := rest }
          freed := h.freed ++ [peer] }) hrest (by
        intro p hp
        obtain ⟨hlt, hfree⟩ := hlive p (List.mem_cons_of_mem _ hp)
        refine ⟨hlt, ?_⟩
        simp only [List.mem_append, List.mem_singleton, not_or]
        exact ⟨hfree, fun hsame => hpeer (hsame ▸ hp)⟩)
      exact ⟨t, by rw [hloop, List.append_assoc]; rfl⟩

theorem owned_new (infoHash : InfoHash) (name path : Text)
    (length : UInt64) : Owned (Heap.new infoHash name path length) where
  rep := (refines_new infoHash name path length).rep
  live := by
    intro p
    simp [Live, Heap.new, Torrent.new]
  nodup := List.nodup_nil
  allocated := by
    intro p hp
    cases hp

/--
**Memory safety.**  In every run of a torrent all accesses succeed, and the
peers that are alive are those of the list.  The destructor then leaves every
peer that was ever allocated deleted, once.
-/
theorem memory_safe (opt : Options) (infoHash : InfoHash) (name path : Text)
    (length : UInt64) (ops : List Op) :
    ∃ h, (Heap.new infoHash name path length).run opt ops = some h ∧
      h.torrent = Runs.run (Torrent.step opt)
        (Torrent.new infoHash name path length) ops ∧
      (∀ p, h.Live p ↔ p ∈ h.torrent.timeouts) ∧
      ∃ h', h.destroy = some h' ∧ h'.freed.Nodup ∧
        ∀ p, p ∈ h'.freed ↔ p < h.torrent.brk := by
  obtain ⟨freed, hrun, ho⟩ :=
    safe_run opt (owned_new infoHash name path length) ops
  refine ⟨_, hrun, rfl, ho.live, ?_⟩
  obtain ⟨t, hdestroy⟩ :=
    destroyLoop_eq ho.rep.nodup fun p hp => (ho.live p).mpr hp
  refine ⟨_, hdestroy, ?_, fun p => ?_⟩
  · rw [List.nodup_append]
    refine ⟨ho.nodup, ho.rep.nodup, ?_⟩
    intro p hp q hq hpq
    exact ((ho.live q).mpr hq).2 (hpq ▸ hp)
  · rw [List.mem_append, ← ho.live p]
    constructor
    · rintro (hfree | hlive)
      · exact ho.allocated p hfree
      · exact hlive.1
    · intro hlt
      by_cases hfree : p ∈ freed
      · exact Or.inl hfree
      · exact Or.inr ⟨hlt, hfree⟩

end Safety

end Heap

end Torrent
end Hefur
