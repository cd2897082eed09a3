import Hefur.TorrentInvariant

/-!
# Who is registered after a run

Which peers a torrent holds is read off the run: an announced peer stays until
it stops, until it expires, or until `MAX_PEERS` other keys have announced
after it.  Nothing else is ever held.

The proofs are those of the recency queue (`Recency.run_survives`,
`Recency.run_survives_of_room`, `Recency.run_absent`), transferred to the
torrent by `refines_run`.
-/

namespace Hefur
namespace Torrent

open Recency

/-- The key an announce comes from. -/
def Op.announcer : Op → Option (List UInt8)
  | .announce _ request => some request.addr.key
  | .cleanup _ => none

/-- The distinct keys that announce. -/
def announcers (ops : List Op) : Finset (List UInt8) :=
  (ops.filterMap Op.announcer).toFinset

/-- The last announce of its key, and the operations since. -/
def LastAnnounce (ops : List Op) (now : Int) (request : AnnounceRequest)
    (since : List Op) : Prop :=
  ∃ before, ops = before ++ .announce now request :: since ∧
    request.addr.key ∉ announcers since

/-- How long an announced peer is kept. -/
def lifetime (opt : Options) : Int :=
  minute * (opt.announceInterval.toNat + 5)

/-- The same, as the 64-bit product gives it. -/
def keptFor (opt : Options) : Int :=
  wrap64 (minute * (opt.announceInterval + 5).toNat)

/-- The time arithmetic of an announce at `now` does not wrap. -/
def ClockFits (opt : Options) (now : Int) : Prop :=
  0 ≤ now ∧ now + lifetime opt < 2 ^ 63

/-- The torrent holds the peer that `request` announced. -/
def Registered (t : Torrent) (request : AnnounceRequest) : Prop :=
  ∃ p ∈ t.timeouts,
    t.peers.lookup request.addr.key = some p ∧
      (t.mem p).left = request.left ∧
      (t.mem p).downloaded = request.downloaded ∧
      (t.mem p).uploaded = request.uploaded ∧
      (t.mem p).peerid = request.peerid

/-- The torrent holds no peer under `k`. -/
def Absent (t : Torrent) (k : List UInt8) : Prop :=
  t.peers.lookup k = none ∧ ∀ p ∈ t.timeouts, (t.mem p).addr.key ≠ k

/-- The keys of the registered peers. -/
def keys (t : Torrent) : Finset (List UInt8) :=
  (t.timeouts.map (fun p => (t.mem p).addr.key)).toFinset

/-- The registered peers together with an announcing one fit the limit. -/
def FitsSwarm (opt : Options) (t : Torrent) (op : Op) : Prop :=
  ∀ now request, op = .announce now request → request.event ≠ .stopped →
    (insert request.addr.key t.keys).card ≤ opt.maxPeers.toNat

/--
Whenever the client behind `k` has announced, it does not stop, and whatever
comes next, up to its own next announce, comes within the reply's interval.
-/
def KeepsAnnouncing (opt : Options) (k : List UInt8) (ops : List Op) : Prop :=
  ∀ before now request after,
    ops = before ++ .announce now request :: after →
    request.addr.key = k →
      request.event ≠ .stopped ∧
        ∀ mid op rest, after = mid ++ op :: rest → k ∉ announcers mid →
          op.clock ≤ now + opt.interval.toNat * second

section Times

theorem lifetime_nonneg (opt : Options) : 0 ≤ lifetime opt := by
  have hminute : minute = 60000000000 := by rfl
  unfold lifetime
  rw [hminute]
  omega

theorem keptFor_eq {opt : Options} {now : Int} (hfits : ClockFits opt now) :
    keptFor opt = lifetime opt := by
  obtain ⟨hnow, hsum⟩ := hfits
  have hminute : minute = 60000000000 := by rfl
  unfold keptFor
  unfold lifetime at hsum ⊢
  rw [hminute] at hsum ⊢
  have hadd :
      (opt.announceInterval + 5).toNat = opt.announceInterval.toNat + 5 := by
    rw [UInt32.toNat_add]
    exact Nat.mod_eq_of_lt
      (show opt.announceInterval.toNat + 5 < 2 ^ 32 by omega)
  rw [hadd, wrap64_eq_self (by omega) (by omega)]
  omega

theorem timeoutAt_eq {opt : Options} {now : Int}
    (hfits : ClockFits opt now) :
    timeoutAt opt now = now + lifetime opt := by
  have hlifetime := lifetime_nonneg opt
  show wrap64 (now + keptFor opt) = _
  rw [keptFor_eq hfits]
  obtain ⟨hnow, hsum⟩ := hfits
  exact wrap64_eq_self (by omega) hsum

/-- A peer outlives the interval its tracker returned by five minutes. -/
theorem interval_lt_lifetime (opt : Options) :
    opt.interval.toNat * second < lifetime opt := by
  have hle : opt.interval.toNat ≤ opt.announceInterval.toNat * 60 := by
    unfold Options.interval
    rw [UInt32.toNat_mul]
    exact Nat.mod_le _ _
  have hsecond : second = 1000000000 := by rfl
  have hminute : minute = 60000000000 := by rfl
  unfold lifetime
  rw [hsecond, hminute]
  omega

end Times

section Histories

theorem announcers_cons (op : Op) (ops : List Op) :
    announcers (op :: ops) = op.announcer.toFinset ∪ announcers ops := by
  ext k
  cases hop : op.announcer with
  | none =>
      simp [announcers, hop]
  | some k' =>
      simp [announcers, hop]

theorem key?_act (opt : Options) (op : Op) :
    (op.act opt).key? Peer.key = op.announcer := by
  cases op with
  | announce now request =>
      by_cases hevent : request.event = .stopped
      · simp [Op.act, hevent, Act.key?, Op.announcer]
      · simp [Op.act, hevent, Act.key?, Op.announcer]
  | cleanup now =>
      rfl

theorem act_eq_touch {opt : Options} {op : Op} {x : Peer} :
    op.act opt = .touch x ↔
      ∃ now request, op = .announce now request ∧
        request.event ≠ .stopped ∧ x = peerOf opt now request := by
  cases op with
  | announce now request =>
      by_cases hevent : request.event = .stopped
      · rw [Op.act, if_pos hevent]
        constructor
        · intro htouch
          cases htouch
        · rintro ⟨_, _, hop, hnot, -⟩
          exact (hnot ((Op.announce.inj hop).2 ▸ hevent)).elim
      · rw [Op.act, if_neg hevent]
        constructor
        · intro htouch
          exact ⟨now, request, rfl, hevent, (Act.touch.inj htouch).symm⟩
        · rintro ⟨_, _, hop, -, rfl⟩
          obtain ⟨rfl, rfl⟩ := Op.announce.inj hop
          rfl
  | cleanup now =>
      constructor
      · intro htouch
        cases htouch
      · rintro ⟨_, _, hop, -⟩
        cases hop

/-- The queue operations of a run name the keys that announce. -/
theorem namedKeys_acts (opt : Options) (ops : List Op) :
    namedKeys Peer.key (ops.map (Op.act opt)) = announcers ops := by
  induction ops with
  | nil =>
      rfl
  | cons op ops ih =>
      rw [List.map_cons, namedKeys_cons, ih, key?_act, announcers_cons]

theorem announcers_append (ops ops' : List Op) :
    announcers (ops ++ ops') = announcers ops ∪ announcers ops' := by
  rw [announcers, List.filterMap_append, List.toFinset_append]
  rfl

theorem exists_lastAnnounce
    {ops : List Op} {k : List UInt8} (hk : k ∈ announcers ops) :
    ∃ now request since,
      LastAnnounce ops now request since ∧ request.addr.key = k := by
  induction ops with
  | nil =>
      simp [announcers] at hk
  | cons op ops ih =>
      by_cases hlater : k ∈ announcers ops
      · obtain ⟨now, request, since, ⟨before, hops, hlast⟩, hkey⟩ := ih hlater
        exact ⟨now, request, since, ⟨op :: before, by simp [hops], hlast⟩, hkey⟩
      · cases op with
        | announce now request =>
            have hkey : request.addr.key = k := by
              simp only [announcers, List.filterMap_cons, Op.announcer,
                List.toFinset_cons, Finset.mem_insert] at hk
              rcases hk with hk | hk
              · exact hk.symm
              · exact (hlater hk).elim
            exact ⟨now, request, ops,
              ⟨[], rfl, by rw [hkey]; exact hlater⟩, hkey⟩
        | cleanup now =>
            exact (hlater (by simpa [announcers, Op.announcer] using hk)).elim

theorem LastAnnounce.mem
    {ops since : List Op} {now : Int} {request : AnnounceRequest}
    (hlast : LastAnnounce ops now request since) :
    .announce now request ∈ ops := by
  obtain ⟨before, rfl, -⟩ := hlast
  simp

/-- No cleanup within its lifetime expires a peer heard of at `now`. -/
theorem neverDead_acts
    {opt : Options} {now : Int} (hfits : ClockFits opt now)
    (request : AnnounceRequest) {ops : List Op}
    (hcleanup : ∀ c, .cleanup c ∈ ops → c < now + lifetime opt) :
    NeverDead (peerOf opt now request) (ops.map (Op.act opt)) := by
  intro dead hmem
  obtain ⟨op, hop, hact⟩ := List.mem_map.mp hmem
  cases op with
  | announce now' request' =>
      simp only [Op.act] at hact
      split at hact <;> cases hact
  | cleanup c =>
      simp only [Op.act, Act.expire.injEq] at hact
      subst hact
      have hlate := hcleanup c hop
      have htimeout : (peerOf opt now request).timeoutTs =
          now + lifetime opt := timeoutAt_eq hfits
      simp only [htimeout, decide_eq_false_iff_not]
      omega

end Histories

section Membership

variable {opt : Options} {t : Torrent} {q : Queue Peer.key}

/-- An operation adds no peer but the announcing one. -/
theorem mem_swarm_step (h : Rep t) (opt : Options) (op : Op) {x : Peer}
    (hx : x ∈ (t.step opt op).swarm) :
    (x ∈ t.swarm ∧ op.announcer ≠ some x.key) ∨
      ∃ now request, op = .announce now request ∧
        request.event ≠ .stopped ∧ x = peerOf opt now request := by
  rw [(h.step_refines opt op).swarm] at hx
  rcases mem_act hx with ⟨hold, hkey⟩ | htouch
  · rw [key?_act] at hkey
    exact Or.inl ⟨hold, hkey⟩
  · exact Or.inr (act_eq_touch.mp htouch)

theorem registered_of_mem
    (opt : Options) (now : Int) (h : Refines t q)
    {request : AnnounceRequest}
    (hmem : peerOf opt now request ∈ q.items) :
    Registered t request := by
  rw [← h.swarm] at hmem
  obtain ⟨p, hp, hpeer⟩ := List.mem_map.mp hmem
  refine ⟨p, hp, ?_, ?_⟩
  · exact (h.rep.indexed _ p).mpr ⟨hp, by rw [hpeer]; rfl⟩
  · rw [hpeer]
    exact ⟨rfl, rfl, rfl, rfl⟩

theorem absent_of_no_key
    (h : Refines t q) {k : List UInt8} (hq : ∀ x ∈ q.items, x.key ≠ k) :
    Absent t k := by
  rw [← h.swarm] at hq
  have hlisted : ∀ p ∈ t.timeouts, (t.mem p).addr.key ≠ k := by
    intro p hp
    exact hq _ (h.rep.mem_swarm hp)
  refine ⟨?_, hlisted⟩
  cases hk : t.peers.lookup k with
  | none =>
      rfl
  | some p =>
      obtain ⟨hp, hkey⟩ := (h.rep.indexed k p).mp hk
      exact (hlisted p hp hkey).elim

theorem keys_eq (h : Refines t q) :
    t.keys = (q.items.map Peer.key).toFinset := by
  rw [← h.swarm, swarm, List.map_map]
  rfl

/-- A swarm that always fits the limit gives a queue that always has room. -/
theorem hasRoom_of_fitsSwarm (ops : List Op) :
    ∀ {t : Torrent} {q : Queue Peer.key}, Refines t q →
      Runs.StepsMeet (Torrent.step opt) (FitsSwarm opt) t ops →
      HasRoom (overfull opt) q (ops.map (Op.act opt)) := by
  induction ops with
  | nil =>
      intro t q _ _
      trivial
  | cons op ops ih =>
      intro t q h hmeet
      refine ⟨?_, ih (refines_step h opt op) hmeet.2⟩
      intro x hact
      obtain ⟨now, request, rfl, hevent, rfl⟩ := act_eq_touch.mp hact
      have hfits := hmeet.1 now request rfl hevent
      rw [keys_eq h] at hfits
      rw [length_touch, Bool.eq_false_iff]
      intro hover
      have hlong := overfull_gt hover
      rw [key_peerOf] at hlong
      omega

/-- An announce leaves its peer at the back, if there is room for one peer. -/
theorem heldBefore_announce
    {now : Int} {request : AnnounceRequest}
    (hpos : ∀ len, overfull opt len = true → 1 < len)
    (hevent : request.event ≠ .stopped) (q : Queue Peer.key) :
    HeldBefore (peerOf opt now request) ∅
      (act (overfull opt) q (Op.act opt (.announce now request))) := by
  simp only [Op.act, hevent, if_false, act]
  apply heldBefore_trim _ (heldBefore_touch _ q)
  intro hover
  simpa using hpos _ hover

theorem one_lt_of_overfull (hmax : opt.maxPeers ≠ 0) {len : Nat}
    (hover : overfull opt len = true) : 1 < len := by
  have hlong := overfull_gt hover
  have hne : opt.maxPeers.toNat ≠ 0 := fun hzero =>
    hmax (UInt32.toNat_inj.mp hzero)
  omega

/-- The announcing peer is the last of the swarm, if any peers are allowed. -/
theorem swarm_announce_last (h : Rep t) (opt : Options) (now : Int)
    {request : AnnounceRequest}
    (hmax : opt.maxPeers ≠ 0) (hevent : request.event ≠ .stopped) :
    ∃ others, (t.announce opt now request).2.swarm =
      others ++ [peerOf opt now request] := by
  obtain ⟨others, back, hitems, hback⟩ := heldBefore_announce
    (fun _ => one_lt_of_overfull hmax) hevent h.queue
  have hnil : back = [] := List.eq_nil_iff_forall_not_mem.mpr fun y hy =>
    Finset.notMem_empty _ (hback y hy)
  rw [(announce_refines h opt now request).2, hitems, hnil]
  exact ⟨others, rfl⟩

end Membership

section Lifetime

variable {opt : Options} {t : Torrent} {ops since : List Op}
variable {now : Int} {request : AnnounceRequest}

/-- The run up to the last announce, and the operations since. -/
theorem refines_split
    (hinit : Refines t (Queue.empty Peer.key))
    (opt : Options) (before : List Op)
    (now : Int) (request : AnnounceRequest) (since : List Op) :
    ∃ q : Queue Peer.key,
      Refines (Runs.run (Torrent.step opt) t
          (before ++ .announce now request :: since))
        (Runs.run (act (overfull opt))
          (act (overfull opt) q (Op.act opt (.announce now request)))
          (since.map (Op.act opt))) := by
  have hrun := refines_run hinit opt
    (before ++ .announce now request :: since)
  simp only [List.map_append, List.map_cons, Runs.run_append,
    Runs.run_cons] at hrun ⊢
  exact ⟨_, hrun⟩

theorem registered_of_few_announcers
    (hinit : Refines t (Queue.empty Peer.key))
    (hlast : LastAnnounce ops now request since)
    (hfits : ClockFits opt now)
    (hevent : request.event ≠ .stopped)
    (hfew : (announcers since).card < opt.maxPeers.toNat)
    (hcleanup : ∀ c, .cleanup c ∈ since → c < now + lifetime opt) :
    Registered (Runs.run (Torrent.step opt) t ops) request := by
  obtain ⟨before, rfl, hfresh⟩ := hlast
  obtain ⟨q, hrun⟩ := refines_split hinit opt before now request since
  apply registered_of_mem opt now hrun
  apply run_survives (S := ∅) (n := opt.maxPeers.toNat)
    (fun _ => overfull_gt) _
  · apply heldBefore_announce _ hevent
    intro len hover
    have hlong := overfull_gt hover
    omega
  · rw [key_peerOf, namedKeys_acts]
    exact hfresh
  · exact neverDead_acts hfits request hcleanup
  · rw [namedKeys_acts, Finset.empty_union]
    exact hfew

/-- A key that never announces is never registered. -/
theorem absent_of_not_mem_announcers
    (hinit : Refines t (Queue.empty Peer.key)) (opt : Options)
    {k : List UInt8} (hk : k ∉ announcers ops) :
    Absent (Runs.run (Torrent.step opt) t ops) k := by
  apply absent_of_no_key (refines_run hinit opt ops)
  apply run_absent
  · intro x hx
    cases hx
  · intro x hx hkey
    rw [← namedKeys_acts opt] at hk
    exact hk (hkey ▸ mem_namedKeys_of_touch hx)

/-- A key whose last announce is a stop is not registered. -/
theorem absent_of_stopped
    (hinit : Refines t (Queue.empty Peer.key)) (opt : Options)
    (hlast : LastAnnounce ops now request since)
    (hevent : request.event = .stopped) :
    Absent (Runs.run (Torrent.step opt) t ops) request.addr.key := by
  obtain ⟨before, rfl, hfresh⟩ := hlast
  obtain ⟨q, hrun⟩ := refines_split hinit opt before now request since
  apply absent_of_no_key hrun
  apply run_absent
  · simp only [Op.act, hevent, if_true, act, Queue.forget, mem_without]
    exact fun x hx => hx.2
  · intro x hx hkey
    rw [← namedKeys_acts opt] at hfresh
    exact hfresh (hkey ▸ mem_namedKeys_of_touch hx)

/-- A last announce is not forgotten in a swarm that fits the limit. -/
theorem registered_of_fitsSwarm
    (hinit : Refines t (Queue.empty Peer.key))
    (hlast : LastAnnounce ops now request since)
    (hfits : ClockFits opt now)
    (hevent : request.event ≠ .stopped)
    (hmeet : Runs.StepsMeet (Torrent.step opt) (FitsSwarm opt) t ops)
    (hcleanup : ∀ c, .cleanup c ∈ since → c < now + lifetime opt) :
    Registered (Runs.run (Torrent.step opt) t ops) request := by
  obtain ⟨before, rfl, hfresh⟩ := hlast
  obtain ⟨-, hannounce, hsince⟩ := Runs.stepsMeet_append.mp hmeet
  have hbefore := refines_run hinit opt before
  have hstep := refines_step hbefore opt (.announce now request)
  have hrun := refines_run hstep opt since
  have hpos : 0 < opt.maxPeers.toNat :=
    lt_of_lt_of_le (Finset.card_pos.mpr (Finset.insert_nonempty _ _))
      (hannounce now request rfl hevent)
  rw [Runs.run_append, Runs.run_cons]
  apply registered_of_mem opt now hrun
  apply run_survives_of_room
  · apply HeldBefore.mem (heldBefore_announce _ hevent _)
    intro len hover
    have hlong := overfull_gt hover
    omega
  · rw [key_peerOf, namedKeys_acts]
    exact hfresh
  · exact neverDead_acts hfits request hcleanup
  · exact hasRoom_of_fitsSwarm since hstep hsince

/-- What a client must do holds of every first part of the run. -/
theorem KeepsAnnouncing.prefix
    {k : List UInt8} {before after : List Op}
    (hkeeps : KeepsAnnouncing opt k (before ++ after)) :
    KeepsAnnouncing opt k before := by
  intro front now request back hsplit hkey
  obtain ⟨hevent, hnext⟩ := hkeeps front now request (back ++ after)
    (by rw [hsplit, List.append_assoc, List.cons_append]) hkey
  refine ⟨hevent, ?_⟩
  intro mid op rest hback hmid
  exact hnext mid op (rest ++ after)
    (by rw [hback, List.append_assoc, List.cons_append]) hmid

/-- A client that keeps announcing is registered, as it last announced. -/
theorem registered_of_keepsAnnouncing
    (hinit : Refines t (Queue.empty Peer.key))
    (hclock : ∀ now request, .announce now request ∈ ops →
      ClockFits opt now)
    (hmeet : Runs.StepsMeet (Torrent.step opt) (FitsSwarm opt) t ops)
    {k : List UInt8} (hkeeps : KeepsAnnouncing opt k ops)
    (hk : k ∈ announcers ops) :
    ∃ now request since,
      LastAnnounce ops now request since ∧ request.addr.key = k ∧
        Registered (Runs.run (Torrent.step opt) t ops) request := by
  obtain ⟨now, request, since, hlast, rfl⟩ := exists_lastAnnounce hk
  refine ⟨now, request, since, hlast, rfl, ?_⟩
  have hfits := hclock now request hlast.mem
  obtain ⟨before, hops, hfresh⟩ := id hlast
  obtain ⟨hevent, hnext⟩ := hkeeps before now request since hops rfl
  apply registered_of_fitsSwarm hinit hlast hfits hevent hmeet
  intro c hc
  obtain ⟨mid, rest, hsince⟩ := List.append_of_mem hc
  have hmid : request.addr.key ∉ announcers mid := by
    rw [hsince, announcers_append, Finset.mem_union, not_or] at hfresh
    exact hfresh.1
  have hsoon := hnext mid _ rest hsince hmid
  exact lt_of_le_of_lt hsoon
    (Int.add_lt_add_left (interval_lt_lifetime opt) now)

end Lifetime

section Runs

variable (opt : Options)
variable (infoHash : InfoHash) (name path : Text) (length : UInt64)

/--
**No announced peer is lost, and none lingers without an announce.**
After every run on an empty torrent:

* a peer is registered as it last announced, unless it stopped, `MAX_PEERS`
  other keys have announced since, or a cleanup found it expired;
* a key that never announced, or whose last announce was a stop, is absent;
* in a swarm within `MAX_PEERS`, a client that announces again within the
  returned interval is registered from its first announce on.
-/
theorem membership_after_run
    (ops : List Op)
    (hclock : ∀ now request, .announce now request ∈ ops →
      ClockFits opt now) :
    let t := Torrent.new infoHash name path length
    (∀ now request since, LastAnnounce ops now request since →
      request.event ≠ .stopped →
      (announcers since).card < opt.maxPeers.toNat →
      (∀ c, .cleanup c ∈ since → c < now + lifetime opt) →
      Registered (Runs.run (Torrent.step opt) t ops) request) ∧
    (∀ k, (k ∉ announcers ops ∨
        ∃ now request since, LastAnnounce ops now request since ∧
          request.addr.key = k ∧ request.event = .stopped) →
      Absent (Runs.run (Torrent.step opt) t ops) k) ∧
    (∀ k, Runs.StepsMeet (Torrent.step opt) (FitsSwarm opt) t ops →
      KeepsAnnouncing opt k ops →
      ∀ before after, ops = before ++ after → k ∈ announcers before →
        ∃ now request since,
          LastAnnounce before now request since ∧ request.addr.key = k ∧
            Registered (Runs.run (Torrent.step opt) t before) request) := by
  intro t
  have hinit : Refines t (Queue.empty Peer.key) :=
    refines_new infoHash name path length
  refine ⟨?_, ?_, ?_⟩
  · intro now request since hlast hevent hfew hcleanup
    exact registered_of_few_announcers hinit hlast
      (hclock now request hlast.mem) hevent hfew hcleanup
  · rintro k (hk | ⟨now, request, since, hlast, rfl, hevent⟩)
    · exact absent_of_not_mem_announcers hinit opt hk
    · exact absent_of_stopped hinit opt hlast hevent
  · rintro k hmeet hkeeps before after rfl hk
    exact registered_of_keepsAnnouncing hinit
      (fun now request hmem =>
        hclock now request (List.mem_append_left _ hmem))
      (Runs.stepsMeet_append.mp hmeet).1 hkeeps.prefix hk

/-- Two clients, the second of which stops. -/
theorem membership_after_run_two_clients :
    let seeder := AnnounceRequest.plain .none 0
      (.inet ⟨[10, 0, 0, 1], rfl⟩ 1)
    let leaver := AnnounceRequest.plain .stopped 7
      (.inet ⟨[10, 0, 0, 2], rfl⟩ 1)
    let t := Runs.run (Torrent.step { maxPeers := 2 })
      (Torrent.new InfoHash.empty [] [] 0)
      [.announce 0 seeder, .announce second leaver, .cleanup minute]
    Registered t seeder ∧ Absent t leaver.addr.key := by
  intro seeder leaver t
  have hrun := membership_after_run { maxPeers := 2 } InfoHash.empty [] [] 0
    [.announce 0 seeder, .announce second leaver, .cleanup minute]
    (by
      intro now request hmem
      have hnow : now = 0 ∨ now = second := by
        simp only [List.mem_cons, Op.announce.injEq, reduceCtorEq,
          List.not_mem_nil, or_false] at hmem
        exact hmem.imp And.left And.left
      rcases hnow with rfl | rfl <;> exact ⟨by decide, by decide⟩)
  refine ⟨?_, ?_⟩
  · apply hrun.1 0 seeder [.announce second leaver, .cleanup minute]
    · exact ⟨[], rfl, by decide⟩
    · decide
    · decide
    · intro c hc
      simp only [List.mem_cons, reduceCtorEq, Op.cleanup.injEq,
        List.not_mem_nil, or_false, false_or] at hc
      subst hc
      decide
  · apply hrun.2.1
    exact Or.inr ⟨second, leaver, [.cleanup minute],
      ⟨[.announce 0 seeder], rfl, by decide⟩, rfl, rfl⟩

end Runs

end Torrent
end Hefur

