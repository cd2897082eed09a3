import Hefur.Tracker

/-!
# The torrents of a tracker

The torrents of the database do not depend on each other.  `opOn` is the
operation by which an event of the tracker changes the torrent under a key:
an announce of its hash, over HTTP or UDP, or a round of the cleanup loop.

A torrent in the database was brought in by the visit of its file, has been
listed ever since, and is what its own operations since then have made of a new
torrent (`torrent_history`).  So what holds after every run of a torrent holds
of every torrent of a reachable tracker (`all_reachable`).
-/

namespace Hefur
namespace Tracker

open Bytes
open FsTreeWhiteList (torrentV1 torrentV2 parseFile)

section Operations

variable (opt : Options) (host : Host)

/-- The announce of an event, if it names the torrent under `k`. -/
def announceOn (k : List UInt8) (σ : Tracker) (e : Event) :
    Option Torrent.Op :=
  (announced opt host σ e).bind fun a =>
    if a.2.infoHash.bytes = k then some (.announce a.1 a.2) else none

/-- The operation of an event on the torrent under `k`. -/
def opOn (k : List UInt8) (σ : Tracker) (e : Event) : Option Torrent.Op :=
  match e with
  | .cleanup now => some (.cleanup (now k))
  | _ => announceOn opt host k σ e

/-- The operations of a run on the torrent under `k`. -/
def opsOn (k : List UInt8) (σ : Tracker) (events : List Event) :
    List Torrent.Op :=
  Runs.opsOf (step opt host) (opOn opt host k) σ events

/-- `t` is a new torrent of the file that a visit of `path` parses. -/
def Fresh (σ : Tracker) (path : Path) (t : Torrent) : Prop :=
  ∃ desc, parseFile host.walker σ.tree path = some desc ∧
    (t = torrentV1 path desc ∨ t = torrentV2 path desc)

end Operations

section Steps

variable {opt : Options} {host : Host} {σ : Tracker} {e : Event}
variable {k : List UInt8} {t t' : Torrent}

/-- An announce changes the torrent that it names, and no other. -/
theorem lookup_step_announced {now : Int} {request : AnnounceRequest}
    (hrq : announced opt host σ e = some (now, request))
    (hk : σ.tdb.lookup k = some t) :
    (step opt host σ e).tdb.lookup k =
      some (Runs.run (Torrent.step opt) t
        (announceOn opt host k σ e).toList) := by
  have hstep := tdb_step opt host σ e
  rw [hrq] at hstep
  rw [hstep, TorrentDb.lookup_announce, announceOn, hrq, hk]
  by_cases hkey : request.infoHash.bytes = k
  · simp [hkey, Torrent.step]
  · simp [hkey, Ne.symm hkey]

theorem announceOn_of_none (hrq : announced opt host σ e = none) :
    announceOn opt host k σ e = none := by
  rw [announceOn, hrq]
  rfl

/-- A request that is no announce leaves the database alone. -/
theorem tdb_step_request_of_none {channel : Nat} {rq : HttpRequest}
    {now : Int} {raw : Block 18}
    (hrq : announced opt host σ (.request channel rq now raw) = none) :
    (step opt host σ (.request channel rq now raw)).tdb = σ.tdb := by
  rw [announced, Option.map_eq_none_iff] at hrq
  rw [tdb_step_request, hrq]

/-- So does an event of the UDP loop. -/
theorem tdb_step_udp_of_none {e : UdpServer.Event}
    (hrq : announced opt host σ (.udp e) = none) :
    (step opt host σ (.udp e)).tdb = σ.tdb := by
  cases e with
  | genSecret now rnd => rfl
  | sendto now result => rfl
  | recvfrom d =>
      rw [announced, Option.map_eq_none_iff] at hrq
      have hstep := UdpServer.tdb_receiveDatagram opt d σ.udp σ.tdb
      rw [hrq] at hstep
      exact hstep

/-- A torrent that an event does not remove is changed by its operation. -/
theorem lookup_step_listed (σ : Tracker) (e : Event) (t t' : Torrent)
    (hk : σ.tdb.lookup k = some t)
    (hk' : (step opt host σ e).tdb.lookup k = some t') :
    t' = Runs.run (Torrent.step opt) t (opOn opt host k σ e).toList := by
  have hannounce : ∀ {now request},
      announced opt host σ e = some (now, request) →
      t' = Runs.run (Torrent.step opt) t
        (announceOn opt host k σ e).toList := by
    intro now request hrq
    rw [lookup_step_announced hrq hk] at hk'
    exact (Option.some.inj hk').symm
  cases e with
  | changeTree tree =>
      rw [step, hk] at hk'
      exact (Option.some.inj hk').symm
  | visit path =>
      rw [step] at hk'
      split at hk'
      · rw [hk] at hk'
        exact (Option.some.inj hk').symm
      · have hkept : (FsTreeWhiteList.visit host.walker σ.tree path
            σ.tdb).lookup k = some t :=
          FsTreeWhiteList.lookup_visit_of_some path hk
        rw [hkept] at hk'
        exact (Option.some.inj hk').symm
  | check =>
      rw [step] at hk'
      split at hk'
      · rw [hk] at hk'
        exact (Option.some.inj hk').symm
      · rw [FsTreeWhiteList.lookup_of_lookup_check hk'] at hk
        exact Option.some.inj hk
  | cleanup now =>
      rw [step, TorrentDb.lookup_cleanup, hk] at hk'
      exact (Option.some.inj hk').symm
  | accept channel remoteAddr =>
      rw [step, hk] at hk'
      exact (Option.some.inj hk').symm
  | close channel =>
      rw [step, hk] at hk'
      exact (Option.some.inj hk').symm
  | request channel rq now raw =>
      cases hrq : announced opt host σ (.request channel rq now raw) with
      | some a =>
          exact hannounce hrq
      | none =>
          rw [tdb_step_request_of_none hrq, hk] at hk'
          show _ = Runs.run _ t (announceOn opt host k σ _).toList
          rw [announceOn_of_none hrq]
          exact (Option.some.inj hk').symm
  | udp e =>
      cases hrq : announced opt host σ (.udp e) with
      | some a =>
          exact hannounce hrq
      | none =>
          rw [tdb_step_udp_of_none hrq, hk] at hk'
          show _ = Runs.run _ t (announceOn opt host k σ _).toList
          rw [announceOn_of_none hrq]
          exact (Option.some.inj hk').symm

/-- A torrent under an own key that a visit of `path` brings in. -/
theorem fresh_visit (hnone : σ.tdb.lookup k = none) {path : Path}
    (hk : (FsTreeWhiteList.visit host.walker σ.tree path σ.tdb).lookup k =
      some t) : Fresh host σ path t := by
  unfold FsTreeWhiteList.visit at hk
  split at hk
  · split at hk
    · rw [hnone] at hk
      cases hk
    · rename_i desc hdesc
      refine ⟨desc, hdesc, ?_⟩
      rcases FsTreeWhiteList.lookup_addTorrent_cases hk with hk | hv2
      · rcases FsTreeWhiteList.lookup_addTorrent_cases hk with hk | hv1
        · rw [hnone] at hk
          cases hk
        · exact Or.inl hv1
      · exact Or.inr hv2
  · rw [hnone] at hk
    cases hk

/-- No announce brings a torrent in. -/
theorem lookup_step_of_announced {a : Int × AnnounceRequest}
    (hrq : announced opt host σ e = some a) (hnone : σ.tdb.lookup k = none) :
    (step opt host σ e).tdb.lookup k = none := by
  have hstep := tdb_step opt host σ e
  rw [hrq] at hstep
  rw [hstep, TorrentDb.lookup_announce, hnone]
  split <;> rfl

/-- Torrents appear by visits only. -/
theorem lookup_step_new (hnone : σ.tdb.lookup k = none)
    (hk : (step opt host σ e).tdb.lookup k = some t) :
    ∃ path, e = .visit path ∧ Fresh host σ path t := by
  have hempty : (step opt host σ e).tdb.lookup k ≠ none := by
    rw [hk]
    exact Option.some_ne_none t
  cases e with
  | visit path =>
      refine ⟨path, rfl, ?_⟩
      rw [step] at hk
      split at hk
      · rw [hnone] at hk
        cases hk
      · exact fresh_visit hnone hk
  | changeTree tree => exact (hempty hnone).elim
  | check =>
      rw [step] at hk
      split at hk
      · rw [hnone] at hk
        cases hk
      · rw [FsTreeWhiteList.lookup_of_lookup_check hk] at hnone
        cases hnone
  | cleanup now =>
      rw [step, TorrentDb.lookup_cleanup, hnone] at hk
      cases hk
  | accept channel remoteAddr => exact (hempty hnone).elim
  | close channel => exact (hempty hnone).elim
  | request channel rq now raw =>
      cases hrq : announced opt host σ (.request channel rq now raw) with
      | some a =>
          exact (hempty (lookup_step_of_announced hrq hnone)).elim
      | none =>
          rw [tdb_step_request_of_none hrq, hnone] at hk
          cases hk
  | udp e =>
      cases hrq : announced opt host σ (.udp e) with
      | some a =>
          exact (hempty (lookup_step_of_announced hrq hnone)).elim
      | none =>
          rw [tdb_step_udp_of_none hrq, hnone] at hk
          cases hk

/-- While it is listed, a torrent is the run of its own operations. -/
theorem lookup_run_kept {events : List Event} (hk : σ.tdb.lookup k = some t)
    (hkept : Runs.Throughout (step opt host)
      (fun σ => (σ.tdb.lookup k).isSome) σ events) :
    (Runs.run (step opt host) σ events).tdb.lookup k =
      some (Runs.run (Torrent.step opt) t (opsOn opt host k σ events)) :=
  Runs.run_kept lookup_step_listed hk hkept

end Steps

section Histories

variable (opt : Options) (host : Host) (tree : Tree) (udp : UdpServer)

/-- The state of a run from the start. -/
def after (events : List Event) : Tracker :=
  Runs.run (step opt host) (start tree udp) events

/--
`t` was brought in under `k` by a visit of its file, stayed listed since, and is
what its own operations since then have made of the new torrent.
-/
def HistoryOf (events : List Event) (k : List UInt8) (t : Torrent) : Prop :=
  ∃ before path since fresh,
    events = before ++ .visit path :: since ∧
    (after opt host tree udp before).tdb.lookup k = none ∧
    Fresh host (after opt host tree udp before) path fresh ∧
    TorrentDb.torrentKey fresh = k ∧
    Runs.Throughout (step opt host) (fun σ => (σ.tdb.lookup k).isSome)
      (after opt host tree udp (before ++ [.visit path])) since ∧
    t = Runs.run (Torrent.step opt) fresh
      (opsOn opt host k
        (after opt host tree udp (before ++ [.visit path])) since)

theorem historyOf_lookup (events : List Event) {k : List UInt8} {t : Torrent}
    (hk : (after opt host tree udp events).tdb.lookup k = some t) :
    HistoryOf opt host tree udp events k t := by
  have hempty : (start tree udp).tdb.lookup k = none :=
    AList.lookup_empty k
  obtain ⟨before, e, since, fresh, rfl, hnone, hborn, hkept, hrun⟩ :=
    Runs.run_part lookup_step_listed hempty events hk
  obtain ⟨path, rfl, hfresh⟩ := lookup_step_new hnone hborn
  have hwell : TorrentDb.WellFormed (step opt host
      (Runs.run (step opt host) (start tree udp) before)
      (.visit path)).tdb :=
    wellFormed_reachable (Runs.Reachable.next ⟨before, rfl⟩ _)
  refine ⟨before, path, since, fresh, rfl, hnone, hfresh,
    (hwell k fresh hborn).1, ?_, ?_⟩
  · rw [after, Runs.run_append]
    exact hkept
  · rw [after, Runs.run_append]
    exact hrun

variable {opt host tree udp}

/-- What holds after every run of a torrent holds of every listed torrent. -/
theorem all_reachable {P : Torrent → Prop} {σ : Tracker}
    (hP : ∀ infoHash name path length ops,
      P (Runs.run (Torrent.step opt)
        (Torrent.new infoHash name path length) ops))
    (hσ : Runs.Reachable (step opt host) (start tree udp) σ) :
    σ.tdb.All P := by
  intro k t hk
  obtain ⟨events, rfl⟩ := hσ
  have hhistory := historyOf_lookup opt host tree udp events hk
  obtain ⟨before, path, since, fresh, -, -, ⟨desc, -, hfresh⟩, -, -, rfl⟩ :=
    hhistory
  rcases hfresh with rfl | rfl
  · exact hP _ _ _ _ _
  · exact hP _ _ _ _ _

/-- The torrents of a reachable tracker are steady. -/
theorem steady_reachable (hmax : opt.maxPeers.toNat < 2 ^ 32 - 1)
    {σ : Tracker}
    (hσ : Runs.Reachable (step opt host) (start tree udp) σ) :
    σ.tdb.All (Torrent.Steady opt) :=
  all_reachable (fun infoHash name path length ops =>
    Torrent.steady_run hmax infoHash name path length ops) hσ

/--
**Every listed torrent is the run of its own operations.**  So its list, its
index and its counters agree, whatever happens to the other torrents.
-/
theorem torrent_history (hmax : opt.maxPeers.toNat < 2 ^ 32 - 1)
    (events : List Event) {k : List UInt8} {t : Torrent}
    (hk : (after opt host tree udp events).tdb.lookup k = some t) :
    HistoryOf opt host tree udp events k t ∧ Torrent.PeersAgree opt t :=
  ⟨historyOf_lookup opt host tree udp events hk,
    (steady_reachable hmax ⟨events, rfl⟩ k t hk).peersAgree⟩

/-- The history of the sample torrent after the announce of a seeder. -/
theorem torrent_history_seeded :
    ∃ t, seeded.tdb.lookup sampleDesc.infoHashV1.val = some t ∧
      HistoryOf sampleOptions sampleHost (treeWith pathA) UdpServer.new
        [.visit pathA, .check, .accept 0 sampleClient,
          .request 0 sampleAnnounce 0 (zeros 18)]
        sampleDesc.infoHashV1.val t ∧
      Torrent.PeersAgree sampleOptions t := by
  have hfound :
      (seeded.tdb.lookup sampleDesc.infoHashV1.val).isSome = true := by
    rfl
  obtain ⟨t, ht⟩ := Option.isSome_iff_exists.mp hfound
  exact ⟨t, ht, torrent_history (by decide) _ ht⟩

end Histories

end Tracker
end Hefur
