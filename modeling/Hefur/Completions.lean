import Hefur.TorrentHistory

/-!
# How often a download is counted

`completed` counts the finished downloads, modulo `2^32`.  An operation counts
one exactly if it is `Completing`: a registered leecher announces that it has
finished (`completed_step`).

The test reads the peer as it was before the announce, and the peer may have
stopped, expired or been evicted since it was last heard of.  Still a key
cannot count twice without announcing as a leecher in between, because no other
operation registers a leecher under that key (`finished_step`).

The main result is `completions_counted_once`.
-/

namespace Hefur
namespace Torrent

section Statement

/-- A registered leecher announces that it has finished. -/
def Completing (t : Torrent) : Op → Prop
  | .announce _ request =>
      request.event = .completed ∧ request.left = 0 ∧
        ∃ p ∈ t.peers.lookup request.addr.key, 0 < (t.mem p).left
  | .cleanup _ => False

instance (t : Torrent) : DecidablePred t.Completing := fun op =>
  match op with
  | .announce _ _ => inferInstanceAs (Decidable (_ ∧ _ ∧ _))
  | .cleanup _ => isFalse not_false

/-- The number of completing operations of a run. -/
def completions (opt : Options) (t : Torrent) (ops : List Op) : Nat :=
  (Runs.outputs (Torrent.step opt) (fun t op => decide (t.Completing op))
    t ops).count true

/-- The operation announces a leecher under the key `k`. -/
def Op.Leeches (k : List UInt8) : Op → Prop
  | .announce _ request => request.addr.key = k ∧ 0 < request.left
  | .cleanup _ => False

/-- No leecher is registered under the key `k`. -/
def Finished (k : List UInt8) (t : Torrent) : Prop :=
  ∀ x ∈ t.swarm, x.key = k → x.left = 0

end Statement

section Counting

variable {t : Torrent}

@[simp] theorem decrement_completed (left : UInt64) (t : Torrent) :
    (t.decrement left).completed = t.completed := by
  unfold decrement; split <;> rfl

@[simp] theorem increment_completed (left : UInt64) (t : Torrent) :
    (t.increment left).completed = t.completed := by
  unfold increment; split <;> rfl

@[simp] theorem removePeer_completed (p : Ptr) (t : Torrent) :
    (t.removePeer p).completed = t.completed := by
  simp [removePeer, write]

theorem completed_evictFront (opt : Options) (t : Torrent) :
    (t.evictFront opt).completed = t.completed := by
  unfold evictFront
  split
  · split
    · rfl
    · exact removePeer_completed _ t
  · rfl

theorem completed_cleanup (now : Int) (t : Torrent) :
    (t.cleanup now).completed = t.completed :=
  cleanup_induction (P := fun s => s.completed = t.completed)
    (fun s p _ hs => (removePeer_completed p s).trans hs) rfl

/-- Nothing in an announce counts but the test on the registered peer. -/
theorem completed_announce (opt : Options) (now : Int)
    (request : AnnounceRequest) (t : Torrent) :
    (t.announce opt now request).2.completed =
      (t.countCompletion request
        (t.peers.lookup request.addr.key)).completed := by
  simp only [announce]
  by_cases hevent : request.event = .stopped
  · rw [if_pos hevent]
    cases t.peers.lookup request.addr.key with
    | none => rfl
    | some p => exact removePeer_completed p _
  · rw [if_neg hevent]
    cases t.peers.lookup request.addr.key with
    | none =>
        rw [createOrUpdatePeer_none, completed_evictFront]
        exact increment_completed _ _
    | some p =>
        rw [createOrUpdatePeer_some, completed_evictFront]
        simp

/-- **An operation counts one exactly if it is completing.** -/
theorem completed_step (opt : Options) (t : Torrent) (op : Op) :
    (t.step opt op).completed =
      if t.Completing op then t.completed + 1 else t.completed := by
  cases op with
  | announce now request =>
      show (t.announce opt now request).2.completed = _
      rw [completed_announce]
      cases hk : t.peers.lookup request.addr.key with
      | none =>
          rw [if_neg]
          · rfl
          · rintro ⟨-, -, p, hp, -⟩
            rw [hk] at hp
            cases hp
      | some p =>
          have hcompleting : t.Completing (.announce now request) ↔
              (t.mem p).left > 0 ∧ request.left = 0 ∧
                request.event = .completed := by
            simp only [Completing, hk, Option.mem_def, Option.some.injEq]
            constructor
            · rintro ⟨hevent, hleft, _, rfl, hpos⟩
              exact ⟨hpos, hleft, hevent⟩
            · rintro ⟨hpos, hleft, hevent⟩
              exact ⟨hevent, hleft, p, rfl, hpos⟩
          simp only [hcompleting, countCompletion]
          split <;> rfl
  | cleanup now =>
      rw [if_neg (show ¬ t.Completing (.cleanup now) from not_false)]
      exact completed_cleanup now t

/-- The counter of a run, as far as 32 bits can count. -/
theorem completed_run (opt : Options) (ops : List Op) :
    ∀ t : Torrent, (Runs.run (Torrent.step opt) t ops).completed =
      t.completed + UInt32.ofNat (completions opt t ops) := by
  induction ops with
  | nil =>
      intro t
      simp [completions, Runs.outputs]
  | cons op ops ih =>
      intro t
      rw [Runs.run_cons, ih, completed_step, completions, completions,
        Runs.outputs]
      by_cases hop : t.Completing op
      · rw [if_pos hop, decide_eq_true hop, List.count_cons_self,
          UInt32.ofNat_add, UInt32.add_assoc, UInt32.add_comm 1]
        rfl
      · rw [if_neg hop, decide_eq_false hop, List.count_cons_of_ne (by simp)]

end Counting

section Keys

variable {opt : Options} {t : Torrent} {k : List UInt8}

/-- Only an announce of a leecher registers a leecher. -/
theorem finished_step (h : Rep t) (opt : Options) {op : Op}
    (hbefore : Finished k t ∨ op.announcer = some k)
    (hop : ¬ op.Leeches k) : Finished k (t.step opt op) := by
  intro x hx hkey
  rcases mem_swarm_step h opt op hx with
    ⟨hold, hother⟩ | ⟨now, request, rfl, -, rfl⟩
  · rcases hbefore with hfinished | hannouncer
    · exact hfinished x hold hkey
    · exact (hother (hkey ▸ hannouncer)).elim
  · by_contra hleft
    exact hop ⟨hkey, UInt64.pos_iff_ne_zero.mpr hleft⟩

theorem finished_run (h : Rep t) (hfinished : Finished k t) (opt : Options)
    {ops : List Op}
    (hops : ∀ op ∈ ops, ¬ op.Leeches k) :
    Rep (Runs.run (Torrent.step opt) t ops) ∧
      Finished k (Runs.run (Torrent.step opt) t ops) :=
  Runs.run_invariant_of_events (I := fun t => Rep t ∧ Finished k t)
    (E := fun op => ¬ op.Leeches k)
    (fun _ _ hop hinv =>
      ⟨rep_step hinv.1 opt _,
        finished_step hinv.1 opt (Or.inl hinv.2) hop⟩)
    ⟨h, hfinished⟩ hops

/-- A completing operation needs a leecher, and does not leave one. -/
theorem Completing.announcer (h : Rep t) {op : Op} (hop : t.Completing op) :
    ∃ k, op.announcer = some k ∧ ¬ Finished k t ∧ ¬ op.Leeches k := by
  cases op with
  | announce now request =>
      obtain ⟨-, hleft, p, hp, hpos⟩ := hop
      obtain ⟨hlisted, hkey⟩ := (h.indexed _ p).mp hp
      refine ⟨request.addr.key, rfl, ?_, ?_⟩
      · intro hfinished
        rw [hfinished _ (h.mem_swarm hlisted) hkey] at hpos
        exact UInt64.lt_irrefl 0 hpos
      · rintro ⟨-, hleeches⟩
        rw [hleft] at hleeches
        exact UInt64.lt_irrefl 0 hleeches
  | cleanup now =>
      exact hop.elim

/-- Between two completions of one key a leecher is announced under it. -/
theorem exists_leeches (h : Rep t) {op op' : Op} {mid : List Op}
    (hop : t.Completing op)
    (hop' : (Runs.run (Torrent.step opt) t (op :: mid)).Completing op')
    (hkey : op.announcer = op'.announcer) :
    ∃ k, op.announcer = some k ∧ ∃ between ∈ mid, between.Leeches k := by
  obtain ⟨k, hk, -, hleeches⟩ := hop.announcer h
  refine ⟨k, hk, ?_⟩
  by_contra hnone
  have hstep := finished_step h opt (Or.inr hk) hleeches
  have hmid : ∀ between ∈ mid, ¬ between.Leeches k := fun between hmem hbad =>
    hnone ⟨between, hmem, hbad⟩
  obtain ⟨hrun, hfinished⟩ := finished_run (rep_step h opt op) hstep opt hmid
  obtain ⟨k', hk', hnot, -⟩ := hop'.announcer hrun
  rw [← hkey, hk] at hk'
  obtain rfl := Option.some.inj hk'
  exact hnot hfinished

end Keys

section Runs

theorem lt_add_one_of_ne {c : UInt32} (hc : c ≠ 0xFFFFFFFF) : c < c + 1 := by
  have hlt := c.toNat_lt
  have hne : c.toNat ≠ 2 ^ 32 - 1 := fun h => hc (UInt32.toNat_inj.mp h)
  rw [UInt32.lt_iff_toNat_lt, UInt32.toNat_add, UInt32.toNat_one,
    Nat.mod_eq_of_lt (by omega)]
  omega

/--
**Completions are counted once per download.**  In every run on an empty
torrent:

* an operation adds one to the counter, modulo `2^32`, if it is completing, and
  does not change it otherwise; so the counter does not decrease, unless it
  stands at `2^32 - 1`;
* between two completing operations of one key, a leecher is announced under
  that key.
-/
theorem completions_counted_once (opt : Options)
    (infoHash : InfoHash) (name path : Text) (length : UInt64)
    (ops : List Op) :
    let stateAfter := Runs.run (Torrent.step opt)
      (new infoHash name path length)
    (∀ before op after, ops = before ++ op :: after →
      let t := stateAfter before
      (t.step opt op).completed =
          (if t.Completing op then t.completed + 1 else t.completed) ∧
        (t.completed ≠ 0xFFFFFFFF →
          t.completed ≤ (t.step opt op).completed)) ∧
    (stateAfter ops).completed =
      UInt32.ofNat (completions opt (new infoHash name path length) ops) ∧
    (∀ before op mid op' after, ops = before ++ op :: mid ++ op' :: after →
      (stateAfter before).Completing op →
      (stateAfter (before ++ op :: mid)).Completing op' →
      op.announcer = op'.announcer →
      ∃ k, op.announcer = some k ∧ ∃ between ∈ mid, between.Leeches k) := by
  intro stateAfter
  refine ⟨?_, ?_, ?_⟩
  · intro before op after _ t
    refine ⟨completed_step opt t op, fun hroom => ?_⟩
    rw [completed_step]
    split
    · exact UInt32.le_of_lt (lt_add_one_of_ne hroom)
    · exact UInt32.le_refl _
  · rw [completed_run]
    simp [new]
  · intro before op mid op' after _ hop hop' hkey
    have hrep := rep_run opt infoHash name path length before
    have hsplit : stateAfter (before ++ op :: mid) =
        Runs.run (Torrent.step opt) (stateAfter before) (op :: mid) :=
      Runs.run_append _ _ _ _
    rw [hsplit] at hop'
    exact exists_leeches hrep hop hop' hkey

/-- A client downloads. -/
def leeching : AnnounceRequest :=
  .plain .none 1 (.inet sampleIp 1)

/-- The same client has finished. -/
def finished : AnnounceRequest :=
  .plain .completed 0 (.inet sampleIp 1)

/-- The same client downloads `n` times. -/
def downloads : Nat → List Op
  | 0 => []
  | n + 1 => downloads n ++ [.announce 0 leeching, .announce 0 finished]

theorem completed_leeching (t : Torrent) :
    (t.step {} (.announce 0 leeching)).completed = t.completed := by
  rw [completed_step, if_neg]
  rintro ⟨hevent, -⟩
  cases hevent

theorem completing_finished {t : Torrent} (h : Rep t) :
    (t.step {} (.announce 0 leeching)).Completing (.announce 0 finished) := by
  have hstep := h.step_refines {} (.announce 0 leeching)
  have hmem : peerOf {} 0 leeching ∈
      (t.step {} (.announce 0 leeching)).swarm := by
    obtain ⟨others, hswarm⟩ := swarm_announce_last h {} 0
      (show ({} : Options).maxPeers ≠ 0 by decide)
      (show leeching.event ≠ .stopped by decide)
    show _ ∈ (t.announce {} 0 leeching).2.swarm
    rw [hswarm]
    exact List.mem_concat_self
  rw [hstep.swarm] at hmem
  obtain ⟨p, -, hp, hleft, -⟩ := registered_of_mem {} 0 hstep hmem
  exact ⟨rfl, rfl, p, hp, by rw [hleft]; decide⟩

/-- Each download is counted. -/
theorem completed_downloads (n : Nat) :
    (Runs.run (Torrent.step {}) (new InfoHash.empty [] [] 0)
      (downloads n)).completed = UInt32.ofNat n := by
  induction n with
  | zero =>
      rfl
  | succ n ih =>
      have hrep := rep_run {} InfoHash.empty [] [] 0 (downloads n)
      rw [downloads, Runs.run_append, Runs.run_cons, Runs.run_cons,
        Runs.run_nil, completed_step, if_pos (completing_finished hrep),
        completed_leeching, ih, UInt32.ofNat_add]
      rfl

theorem completed_decreases {n : Nat} (hn : n = 2 ^ 32 - 1) {t : Torrent}
    (ht : t = Runs.run (Torrent.step {}) (new InfoHash.empty [] [] 0)
      (downloads n ++ [.announce 0 leeching])) :
    (t.step {} (.announce 0 finished)).completed < t.completed := by
  have hafter : (t.step {} (.announce 0 finished)).completed = UInt32.ofNat (n + 1) := by
    have hsplit : downloads (n + 1) =
        (downloads n ++ [.announce 0 leeching]) ++ [.announce 0 finished] := by
      rw [downloads, List.append_assoc, List.singleton_append]
    rw [← completed_downloads, hsplit, Runs.run_append, ← ht, Runs.run_cons,
      Runs.run_nil]
  have hbefore : t.completed = UInt32.ofNat n := by
    rw [ht, Runs.run_append, Runs.run_cons, Runs.run_nil, completed_leeching,
      completed_downloads]
  rw [hafter, hbefore, UInt32.lt_iff_toNat_lt, UInt32.toNat_ofNat',
    UInt32.toNat_ofNat']
  omega

/-- The last of `2^32` downloads takes the counter back to zero. -/
theorem completed_wraps :
    let t := Runs.run (Torrent.step {}) (new InfoHash.empty [] [] 0)
      (downloads (2 ^ 32 - 1) ++ [.announce 0 leeching])
    (t.step {} (.announce 0 finished)).completed < t.completed :=
  completed_decreases rfl rfl

end Runs

end Torrent
end Hefur
