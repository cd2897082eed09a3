import Hefur.Tracker

/-!
# Which info hashes are admitted

The text of the option `torrent-dir` says that every torrent is allowed if it
is empty.  The database refuses what it does not hold, and only a scan of the
white list adds to it.

`listed_iff`: a hash is in the database exactly if a visit of a scan has added
it and no check has erased it since.  With an empty `torrent-dir` there are no
scans, so that everything is refused: `admits_iff`.
-/

namespace Hefur
namespace Tracker

open Bytes
open FsTreeWhiteList
open TorrentDb (WellFormed torrentKey)

section Listing

/-- A visit adds a torrent whose info hash begins with `h`. -/
def Adds (opt : Options) (host : Host) (h : Block 20) (σ : Tracker)
    (e : Event) : Prop :=
  opt.torrentDir ≠ [] ∧
    ∃ path desc, e = .visit path ∧ isTorrentPath path = true ∧
      parseFile host.walker σ.tree path = some desc ∧
      (h.val <+: desc.infoHashV1.val ∨ h.val <+: desc.infoHashV2.val)

/-- A check erases `h`: it is the full key of a torrent whose file is gone. -/
def Erases (opt : Options) (h : Block 20) (σ : Tracker) (e : Event) : Prop :=
  opt.torrentDir ≠ [] ∧ e = .check ∧
    ∃ k t, σ.tdb.lookup k = some t ∧
      stale opt.torrentDir σ.tree t = true ∧ t.key = h.val

/-- `h` has been added by a scan and not been erased since. -/
def Listed (opt : Options) (host : Host) (h : Block 20) (σ : Tracker)
    (events : List Event) : Prop :=
  Runs.Since (step opt host) (Adds opt host h) (Erases opt h) σ events

variable {opt : Options} {host : Host} {h : Block 20}

theorem prefix_iff_take {n : Nat} (hash : Block n) :
    h.val <+: hash.val ↔ h.val = hash.val.take 20 := by
  rw [List.prefix_iff_eq_take, h.property]

theorem torrentKey_torrentV1 (path : Path) (desc : TorrentDesc) :
    torrentKey (torrentV1 path desc) = desc.infoHashV1.val.take 20 :=
  congrArg (List.take 20) (InfoHash.bytes_ofSha1 desc.infoHashV1)

theorem torrentKey_torrentV2 (path : Path) (desc : TorrentDesc) :
    torrentKey (torrentV2 path desc) = desc.infoHashV2.val.take 20 :=
  congrArg (List.take 20)
    (List.take_of_length_le (le_of_eq desc.infoHashV2.property))

theorem lookup_addTorrent_ne_none_iff {db : TorrentDb} {torrent : Torrent}
    {k : List UInt8} :
    (db.addTorrent torrent).lookup k ≠ none ↔
      db.lookup k ≠ none ∨ k = torrentKey torrent := by
  rw [TorrentDb.addTorrent, ExactMap.lookup_insertNew]
  by_cases hk : k = torrentKey torrent
  · subst hk
    cases hfound : db.lookup (torrentKey torrent) with
    | none => simp
    | some t => simp
  · simp [hk]

/-- A visit adds both torrents of the file it finds. -/
theorem lookup_visit_ne_none_iff {walker : Walker} {tree : Tree}
    {path : Path} {db : TorrentDb} :
    (visit walker tree path db).lookup h.val ≠ none ↔
      db.lookup h.val ≠ none ∨
        (isTorrentPath path = true ∧
          ∃ desc, parseFile walker tree path = some desc ∧
            (h.val <+: desc.infoHashV1.val ∨
              h.val <+: desc.infoHashV2.val)) := by
  unfold visit
  by_cases hpath : isTorrentPath path = true
  · rw [if_pos hpath]
    cases hdesc : parseFile walker tree path with
    | none =>
        simp
    | some desc =>
        dsimp only
        rw [lookup_addTorrent_ne_none_iff, lookup_addTorrent_ne_none_iff,
          torrentKey_torrentV1, torrentKey_torrentV2, or_assoc,
          ← prefix_iff_take, ← prefix_iff_take]
        simp [hpath]
  · simp [hpath]

theorem lookup_check_ne_none_iff {root : Path} {tree : Tree}
    {db : TorrentDb} :
    (check root tree db).lookup h.val ≠ none ↔
      db.lookup h.val ≠ none ∧
        ¬ ∃ k t, db.lookup k = some t ∧ stale root tree t = true ∧
          t.key = h.val := by
  have hkeys : h.val ∈ ((ExactMap.values db).filter
      (stale root tree)).map Torrent.key ↔
        ∃ k t, db.lookup k = some t ∧ stale root tree t = true ∧
          t.key = h.val := by
    simp only [List.mem_map, List.mem_filter, ExactMap.mem_values_iff]
    constructor
    · rintro ⟨t, ⟨⟨k, hk⟩, hstale⟩, hkey⟩
      exact ⟨k, t, hk, hstale, hkey⟩
    · rintro ⟨k, t, hk, hstale, hkey⟩
      exact ⟨t, ⟨⟨k, hk⟩, hstale⟩, hkey⟩
  rw [check, lookup_removeAll, ← hkeys]
  split
  · rename_i herased
    exact ⟨fun hfound => (hfound rfl).elim, fun hkept => (hkept.2 herased).elim⟩
  · rename_i hkept
    exact ⟨fun hfound => ⟨hfound, hkept⟩, fun hfound => hfound.1⟩

/-- Announces and cleanups keep what is in the database. -/
theorem lookup_announce_ne_none_iff {db : TorrentDb} {k : List UInt8}
    (now : Int) (request : AnnounceRequest) :
    (db.announce opt now request).2.lookup k ≠ none ↔
      db.lookup k ≠ none := by
  rw [TorrentDb.lookup_announce]
  split <;> simp

/-- What is neither a visit nor a check keeps what is in the database. -/
theorem lookup_step_of_other {σ : Tracker} {e : Event} {k : List UInt8}
    (hvisit : ∀ path, e ≠ .visit path) (hcheck : e ≠ .check) :
    (step opt host σ e).tdb.lookup k ≠ none ↔ σ.tdb.lookup k ≠ none := by
  cases e with
  | changeTree tree => exact Iff.rfl
  | visit path => exact (hvisit path rfl).elim
  | check => exact (hcheck rfl).elim
  | cleanup now =>
      simp [step, TorrentDb.lookup_cleanup]
  | accept channel remoteAddr => exact Iff.rfl
  | request channel rq now raw =>
      rw [tdb_step_request]
      split
      · exact lookup_announce_ne_none_iff now _
      · exact Iff.rfl
  | close channel => exact Iff.rfl
  | udp e =>
      cases e with
      | genSecret now rnd => exact Iff.rfl
      | sendto now result => exact Iff.rfl
      | recvfrom d =>
          simp only [step, UdpServer.step]
          rw [UdpServer.tdb_receiveDatagram]
          split
          · exact lookup_announce_ne_none_iff d.now _
          · exact Iff.rfl

/-- What a step does to the presence of a hash. -/
theorem lookup_step_ne_none_iff (σ : Tracker) (e : Event) :
    (step opt host σ e).tdb.lookup h.val ≠ none ↔
      Adds opt host h σ e ∨
        (σ.tdb.lookup h.val ≠ none ∧ ¬ Erases opt h σ e) := by
  by_cases hvisit : ∃ path, e = .visit path
  · obtain ⟨path, rfl⟩ := hvisit
    by_cases hdir : opt.torrentDir = []
    · simp [step, Adds, Erases, hdir]
    · have hadds : Adds opt host h σ (.visit path) ↔
          isTorrentPath path = true ∧
            ∃ desc, parseFile host.walker σ.tree path = some desc ∧
              (h.val <+: desc.infoHashV1.val ∨
                h.val <+: desc.infoHashV2.val) := by
        constructor
        · rintro ⟨-, path', desc, hpath, htorrent, hdesc, hhash⟩
          obtain rfl := Event.visit.inj hpath
          exact ⟨htorrent, desc, hdesc, hhash⟩
        · rintro ⟨htorrent, desc, hdesc, hhash⟩
          exact ⟨hdir, path, desc, rfl, htorrent, hdesc, hhash⟩
      have herases : ¬ Erases opt h σ (.visit path) := by
        rintro ⟨-, hcheck, -⟩
        cases hcheck
      simp only [step, if_neg hdir]
      rw [lookup_visit_ne_none_iff, ← hadds, or_comm,
        and_iff_left herases]
  · by_cases hcheck : e = .check
    · subst hcheck
      by_cases hdir : opt.torrentDir = []
      · simp [step, Adds, Erases, hdir]
      · simp only [step, if_neg hdir, lookup_check_ne_none_iff, Adds, Erases]
        simp [hdir]
    · have hother : ∀ path, e ≠ .visit path :=
        fun path hpath => hvisit ⟨path, hpath⟩
      rw [lookup_step_of_other hother hcheck]
      have hadds : ¬ Adds opt host h σ e := by
        rintro ⟨-, path, -, hpath, -⟩
        exact hother path hpath
      have herases : ¬ Erases opt h σ e := by
        rintro ⟨-, herase, -⟩
        exact hcheck herase
      simp [hadds, herases]

/-- A hash is in the database exactly if it is listed. -/
theorem listed_iff {tree : Tree} {udp : UdpServer} (events : List Event) :
    (Runs.run (step opt host) (start tree udp) events).tdb.lookup h.val ≠
        none ↔
      Listed opt host h (start tree udp) events := by
  rw [Runs.run_iff_since
    (H := fun σ : Tracker => σ.tdb.lookup h.val ≠ none)
    lookup_step_ne_none_iff]
  simp [Listed, start]

end Listing

section Admission

/-- A request of the announce page for the hash `h`. -/
structure AnnouncesHash (rq : HttpRequest) (h : Block 20) : Prop where
  location : rq.location = ascii "/announce"
  peerid : (queryGet (ascii "peer_id") rq.query).length = 20
  infoHash : queryGet (ascii "info_hash") rq.query = h.val

/-- The reply to an announce that is refused. -/
def refusal : Reply :=
  .body (AnnounceHandler.failure (ascii "torrent not found"))

variable {opt : Options} {host : Host} {h : Block 20}
variable {rq : HttpRequest}

/-- An announce is refused exactly if its hash is not in the database. -/
theorem serve_eq_refusal_iff (hrq : AnnouncesHash rq h)
    (remoteAddr : Sockaddr) (now : Int) (raw : Block 18) (tdb : TorrentDb) :
    (serve opt host remoteAddr rq now raw tdb).1 = refusal ↔
      tdb.lookup h.val = none := by
  have hsize : (queryGet (ascii "peer_id") rq.query).length = 20 ∧
      (queryGet (ascii "info_hash") rq.query).length = 20 := by
    rw [hrq.infoHash]
    exact ⟨hrq.peerid, h.property⟩
  rw [serve, if_pos hrq.location, AnnounceHandler.handle,
    AnnounceHandler.announce, AnnounceHandler.request, dif_pos hsize,
    Option.map_some]
  dsimp only
  generalize hrequest : AnnounceHandler.requestOf opt host.net raw remoteAddr
    rq.query _ _ = request
  have hbytes : request.infoHash.bytes = h.val := by
    rw [← hrequest, AnnounceHandler.bytes_requestOf]
    exact hrq.infoHash
  cases hfound : tdb.lookup h.val with
  | none =>
      rw [TorrentDb.announce_of_none opt now (by rw [hbytes, hfound])]
      simp [TorrentDb.notFound, refusal]
  | some torrent =>
      have hsome : tdb.lookup request.infoHash.bytes = some torrent := by
        rw [hbytes, hfound]
      rw [TorrentDb.announce_of_some opt now hsome]
      simp [Torrent.error_announce, refusal, AnnounceHandler.success,
        AnnounceHandler.failure]

/-- Without a `torrent-dir` the database stays empty. -/
theorem lookup_run_of_no_torrentDir (hdir : opt.torrentDir = [])
    {tree : Tree} {udp : UdpServer} (events : List Event) :
    (Runs.run (step opt host) (start tree udp) events).tdb.lookup h.val =
      none := by
  apply Runs.run_invariant (I := fun σ : Tracker => σ.tdb.lookup h.val = none)
  · intro σ e hσ
    by_contra hfound
    rcases (lookup_step_ne_none_iff σ e).mp hfound with hadds | ⟨hbefore, -⟩
    · exact hadds.1 hdir
    · exact hbefore hσ
  · rfl

/--
**Admission.**  At every point of a run, whether an announce for `h` is refused
is what the options and the history say, exactly if there is a `torrent-dir`.
Without one everything is refused.
-/
theorem admits_iff {tree : Tree} {udp : UdpServer} (events : List Event)
    (hrq : AnnouncesHash rq h) (remoteAddr : Sockaddr) (now : Int)
    (raw : Block 18) :
    ((serve opt host remoteAddr rq now raw
        (Runs.run (step opt host) (start tree udp) events).tdb).1 = refusal ↔
      opt.torrentDir ≠ [] ∧
        ¬ Listed opt host h (start tree udp) events) ↔
      opt.torrentDir ≠ [] := by
  rw [serve_eq_refusal_iff hrq, ← listed_iff, not_not]
  by_cases hdir : opt.torrentDir = []
  · simp [hdir, lookup_run_of_no_torrentDir hdir]
  · simp [hdir]

/-- A listed hash is admitted, and one that is not is refused. -/
theorem admits_iff_sample :
    (serve sampleOptions sampleHost sampleClient sampleAnnounce 0 (zeros 18)
        listed.tdb).1 = refusal ↔
      sampleOptions.torrentDir ≠ [] ∧
        ¬ Listed sampleOptions sampleHost sampleDesc.infoHashV1
          (start (treeWith pathA) UdpServer.new) [.visit pathA, .check] :=
  (admits_iff [.visit pathA, .check] ⟨rfl, rfl, rfl⟩ sampleClient 0
    (zeros 18)).mpr (by decide)

/-- Without a `torrent-dir` an announce is refused, though all are allowed. -/
theorem announce_refused_without_torrentDir :
    AnnouncesHash sampleAnnounce sampleDesc.infoHashV1 ∧
      (serve {} sampleHost sampleClient sampleAnnounce 0 (zeros 18)
        (Runs.run (step {} sampleHost)
          (start (treeWith pathA) UdpServer.new)
            [.visit pathA, .check]).tdb).1 = refusal ∧
      ¬ ((serve {} sampleHost sampleClient sampleAnnounce 0 (zeros 18)
          (Runs.run (step {} sampleHost)
            (start (treeWith pathA) UdpServer.new)
              [.visit pathA, .check]).tdb).1 = refusal ↔
        ({} : Options).torrentDir ≠ [] ∧
          ¬ Listed {} sampleHost sampleDesc.infoHashV1
            (start (treeWith pathA) UdpServer.new) [.visit pathA, .check]) := by
  have hrefused : (serve {} sampleHost sampleClient sampleAnnounce 0 (zeros 18)
      (Runs.run (step {} sampleHost) (start (treeWith pathA) UdpServer.new)
        [.visit pathA, .check]).tdb).1 = refusal := by
    rfl
  refine ⟨⟨rfl, rfl, rfl⟩, hrefused, ?_⟩
  intro hclaim
  exact (hclaim.mp hrefused).1 rfl

end Admission

end Tracker
end Hefur
