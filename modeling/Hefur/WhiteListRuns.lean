import Hefur.Tracker

/-!
# What the white list keeps and removes

A round of `loopScan` is a scan followed by a check.  The database remembers
one path for each torrent, the path at which its hash was first found: a scan
drops a hash that it finds again, wherever it finds it, and a check judges by
the remembered path.

* `Unlisted`: a check removes the torrents whose file is gone, and no others.
  It does, unless one of them has a 32-byte hash (`unlisted_iff`).
* `Kept`: a round keeps every hash that is on disk, with its peers.  It does,
  unless one of them is remembered under a path that is gone (`kept_iff`).
-/

namespace Hefur
namespace Tracker

open Bytes
open FsTreeWhiteList
open TorrentDb (WellFormed torrentKey)

section Checks

/-- A check removes the stale torrents and leaves the others as they are. -/
def Unlisted (root : Path) (tree : Tree) (db : TorrentDb) : Prop :=
  (∀ k t, (check root tree db).lookup k = some t →
    stale root tree t = false) ∧
  (∀ k t, db.lookup k = some t → stale root tree t = false →
    (check root tree db).lookup k = some t) ∧
  ∀ k t, (check root tree db).lookup k = some t → db.lookup k = some t

/-- No torrent with a 32-byte hash is stale. -/
def NoStaleV2 (root : Path) (tree : Tree) (db : TorrentDb) : Prop :=
  ∀ k t, db.lookup k = some t → t.infoHash.kind = .sha256 →
    stale root tree t = false

theorem unlisted_iff {db : TorrentDb} (h : WellFormed db)
    (root : Path) (tree : Tree) :
    Unlisted root tree db ↔ NoStaleV2 root tree db := by
  constructor
  · rintro ⟨hgone, -, -⟩ k t hk hkind
    apply hgone k t
    rw [lookup_check h root tree hk, if_neg]
    rintro ⟨-, hsha1⟩
    rw [hkind] at hsha1
    cases hsha1
  · intro hv2
    refine ⟨?_, ?_, fun k t hk => lookup_of_lookup_check hk⟩
    · intro k t hk
      have hdb := lookup_of_lookup_check hk
      rw [lookup_check h root tree hdb] at hk
      cases hstale : stale root tree t with
      | false =>
          rfl
      | true =>
          cases hkind : t.infoHash.kind with
          | none =>
              exact ((h k t hdb).2 hkind).elim
          | sha1 =>
              simp [hstale, hkind] at hk
          | sha256 =>
              rw [← hstale]
              exact hv2 k t hdb hkind
    · intro k t hk hlive
      rw [lookup_check h root tree hk, if_neg]
      rintro ⟨hstale, -⟩
      rw [hlive] at hstale
      cases hstale

/--
**When a check removes exactly the torrents that were deleted.**  `tree` is the
tree after any deletions.
-/
theorem reachable_unlisted_iff
    {opt : Options} {host : Host} {tree₀ : Tree} {udp : UdpServer}
    {σ : Tracker}
    (hσ : Runs.Reachable (step opt host) (start tree₀ udp) σ)
    (tree : Tree) :
    Unlisted opt.torrentDir tree σ.tdb ↔
      NoStaleV2 opt.torrentDir tree σ.tdb :=
  unlisted_iff (wellFormed_reachable hσ) opt.torrentDir tree

/-- The condition, for the file at `pathA` and no files. -/
theorem reachable_unlisted_iff_listed :
    Unlisted sampleOptions.torrentDir (Tree.ofFiles []) listed.tdb ↔
      NoStaleV2 sampleOptions.torrentDir (Tree.ofFiles []) listed.tdb :=
  reachable_unlisted_iff reachable_listed (Tree.ofFiles [])

/-- The v2 entry of a file stays when the file is deleted. -/
theorem unlisted_false_of_v2 :
    Runs.Reachable (step sampleOptions sampleHost)
        (start (treeWith pathA) UdpServer.new) listed ∧
      ¬ Unlisted sampleOptions.torrentDir (Tree.ofFiles []) listed.tdb := by
  refine ⟨reachable_listed, ?_⟩
  rw [unlisted_iff (wellFormed_reachable reachable_listed)]
  intro hv2
  have hlookup :
      listed.tdb.lookup (torrentKey (torrentV2 pathA sampleDesc)) =
        some (torrentV2 pathA sampleDesc) := rfl
  have hlive := hv2 _ _ hlookup rfl
  revert hlive
  decide

end Checks

section Rounds

/-- A torrent file below `root` has the info hash `h`. -/
def OnDisk (walker : Walker) (root : Path) (tree : Tree) (h : InfoHash) :
    Prop :=
  ∃ path desc,
    underRoot root path = true ∧ isTorrentPath path = true ∧
      (tree.file path).bind walker.parse = some desc ∧
      (h = .ofSha1 desc.infoHashV1 ∨ h = .ofSha256 desc.infoHashV2)

/-- The key under which the database has a hash. -/
def hashKey (h : InfoHash) : List UInt8 :=
  h.bytes.take 20

/-- Every hash on disk is in `db'`, with the torrent that it had in `db`. -/
def Kept (walker : Walker) (root : Path) (tree : Tree) (db db' : TorrentDb) :
    Prop :=
  ∀ h, OnDisk walker root tree h →
    ∃ t', db'.lookup (hashKey h) = some t' ∧
      ∀ t, db.lookup (hashKey h) = some t → t' = t

/-- No hash on disk is remembered as a v1 torrent under a path that is gone. -/
def NoneMoved (walker : Walker) (root : Path) (tree : Tree)
    (db : TorrentDb) : Prop :=
  ∀ h, OnDisk walker root tree h →
    ∀ t, db.lookup (hashKey h) = some t → t.infoHash.kind = .sha1 →
      stale root tree t = false

/-- The walk visits every file below `root`. -/
def FindsAll (walker : Walker) (root : Path) (depth : UInt32) (tree : Tree) :
    Prop :=
  ∀ path, underRoot root path = true → tree.file path ≠ none →
    path ∈ walker.find tree root depth

/-- The events of a round of `loopScan` in which no limit is reached. -/
def round (opt : Options) (host : Host) (tree : Tree) : List Event :=
  (host.walker.find tree opt.torrentDir opt.maxScanDepth).map Event.visit ++
    [.check]

section Scans

variable {opt : Options} {walker : Walker} {tree : Tree}

/-- Below the limit of inodes a scan visits all paths, in order. -/
theorem visitAll_eq (paths : List Path) :
    ∀ {nbInodes : UInt32} {db : TorrentDb},
      nbInodes.toNat + paths.length ≤ opt.maxScanInodes.toNat →
      visitAll opt walker tree paths nbInodes db =
        paths.foldl (fun db path => visit walker tree path db) db := by
  induction paths with
  | nil =>
      intro nbInodes db _
      rfl
  | cons path rest ih =>
      intro nbInodes db hlimit
      rw [List.length_cons] at hlimit
      obtain ⟨hnext, hbelow⟩ := nbInodes_below hlimit
      rw [visitAll, if_neg hbelow, List.foldl_cons, ih (by omega)]

/-- A round ends with the database that a scan and a check give. -/
theorem tdb_run_round {host : Host} (hdir : opt.torrentDir ≠ [])
    (σ : Tracker)
    (hlimit : (host.walker.find σ.tree opt.torrentDir
      opt.maxScanDepth).length ≤ opt.maxScanInodes.toNat) :
    (Runs.run (step opt host) σ (round opt host σ.tree)).tdb =
      check opt.torrentDir σ.tree (scan opt host.walker σ.tree σ.tdb) := by
  have hvisits : ∀ (paths : List Path) (σ : Tracker),
      Runs.run (step opt host) σ (paths.map Event.visit) =
        { σ with
          tdb := paths.foldl
            (fun db path => visit host.walker σ.tree path db) σ.tdb } := by
    intro paths
    induction paths with
    | nil =>
        intro σ
        rfl
    | cons path rest ih =>
        intro σ
        rw [List.map_cons, Runs.run_cons, ih]
        simp [step, hdir]
  rw [round, Runs.run_append, hvisits, scan,
    visitAll_eq _ (by rw [UInt32.toNat_zero]; omega)]
  simp [step, hdir]

end Scans

variable {opt : Options} {walker : Walker} {tree : Tree} {db : TorrentDb}

/-- A scan brings every hash on disk into the database. -/
theorem scan_adds (db : TorrentDb)
    (hfind : FindsAll walker opt.torrentDir opt.maxScanDepth tree)
    (hlimit : (walker.find tree opt.torrentDir opt.maxScanDepth).length ≤
      opt.maxScanInodes.toNat)
    {h : InfoHash} (hdisk : OnDisk walker opt.torrentDir tree h) :
    ∃ t, (scan opt walker tree db).lookup (hashKey h) = some t := by
  obtain ⟨path, desc, hroot, hpath, hdesc, hhash⟩ := hdisk
  have hfile : tree.file path ≠ none := by
    intro hnone
    rw [hnone] at hdesc
    cases hdesc
  have hparse : parseFile walker tree path = some desc := by
    rw [parseFile, tree.file_path path hfile]
    exact hdesc
  obtain ⟨hv1, hv2⟩ := visitAll_adds hpath hparse _ 0 db
    (by rw [UInt32.toNat_zero, Nat.zero_add]; exact hlimit)
    (hfind path hroot hfile)
  rcases hhash with rfl | rfl
  · exact hv1
  · exact hv2

/-- A torrent that is stale after a scan was there before it. -/
theorem lookup_of_stale
    {k : List UInt8} {t : Torrent} {root : Path}
    (hk : (scan opt walker tree db).lookup k = some t)
    (hstale : stale root tree t = true) : db.lookup k = some t := by
  rcases lookup_scan_cases hk with hk | hfound
  · exact hk
  · simp [stale, hfound] at hstale

theorem kept_iff (h : WellFormed db)
    (hfind : FindsAll walker opt.torrentDir opt.maxScanDepth tree)
    (hlimit : (walker.find tree opt.torrentDir opt.maxScanDepth).length ≤
      opt.maxScanInodes.toNat) :
    Kept walker opt.torrentDir tree db
        (check opt.torrentDir tree (scan opt walker tree db)) ↔
      NoneMoved walker opt.torrentDir tree db := by
  have hscan : WellFormed (scan opt walker tree db) := wellFormed_scan opt h
  constructor
  · intro hkept hash hdisk t hk hkind
    obtain ⟨t', hcheck, hsame⟩ := hkept hash hdisk
    obtain rfl := hsame t hk
    cases hstale : stale opt.torrentDir tree t' with
    | false =>
        rfl
    | true =>
        rw [lookup_check hscan _ tree (lookup_scan_of_some opt hk),
          if_pos ⟨hstale, hkind⟩] at hcheck
        cases hcheck
  · intro hmoved hash hdisk
    obtain ⟨t, ht⟩ := scan_adds db hfind hlimit hdisk
    refine ⟨t, ?_, ?_⟩
    · rw [lookup_check hscan _ tree ht, if_neg]
      rintro ⟨hstale, hkind⟩
      rw [hmoved hash hdisk t (lookup_of_stale ht hstale) hkind] at hstale
      cases hstale
    · intro t' ht'
      rw [lookup_scan_of_some opt ht'] at ht
      exact (Option.some.inj ht).symm

/--
**When a round of the white list keeps every torrent that is on disk.**
-/
theorem reachable_kept_iff
    {host : Host} {tree₀ : Tree} {udp : UdpServer} {σ : Tracker}
    (hσ : Runs.Reachable (step opt host) (start tree₀ udp) σ)
    (hdir : opt.torrentDir ≠ [])
    (hfind : FindsAll host.walker opt.torrentDir opt.maxScanDepth σ.tree)
    (hlimit : (host.walker.find σ.tree opt.torrentDir
      opt.maxScanDepth).length ≤ opt.maxScanInodes.toNat) :
    Kept host.walker opt.torrentDir σ.tree σ.tdb
        (Runs.run (step opt host) σ (round opt host σ.tree)).tdb ↔
      NoneMoved host.walker opt.torrentDir σ.tree σ.tdb := by
  rw [tdb_run_round hdir σ hlimit]
  exact kept_iff (wellFormed_reachable hσ) hfind hlimit

/-- The sample walk finds the file of a tree with one file. -/
theorem findsAll_treeWith {path : Path} (hpath : path ∈ [pathA, pathB])
    (hc : cStr path = path) (root : Path) (depth : UInt32) :
    FindsAll sampleHost.walker root depth (treeWith path) := by
  intro path' _ hfile
  have hsame : path' = path := by
    by_contra hne
    apply hfile
    simp [treeWith, Tree.ofFiles, hne]
  subst hsame
  refine List.mem_filter.mpr ⟨hpath, ?_⟩
  simp [treeWith, Tree.ofFiles, hc]

/-- The first round in a tree with one file. -/
theorem reachable_kept_iff_first_round :
    let σ := start (treeWith pathA) UdpServer.new
    Kept sampleHost.walker sampleOptions.torrentDir σ.tree σ.tdb
      (Runs.run (step sampleOptions sampleHost) σ
        (round sampleOptions sampleHost σ.tree)).tdb := by
  intro σ
  apply (reachable_kept_iff (Runs.Reachable.refl σ) (by decide)
    (findsAll_treeWith (by decide) (by decide) _ _) (by decide)).mpr
  intro h _ t hk
  simp [σ, start] at hk

/-- The tracker after the file has been moved from `pathA` to `pathB`. -/
def moved : Tracker :=
  step sampleOptions sampleHost listed (.changeTree (treeWith pathB))

theorem reachable_moved :
    Runs.Reachable (step sampleOptions sampleHost)
      (start (treeWith pathA) UdpServer.new) moved :=
  reachable_listed.next _

/-- A file that is moved is un-listed by the next round. -/
theorem kept_false_of_moved :
    Runs.Reachable (step sampleOptions sampleHost)
        (start (treeWith pathA) UdpServer.new) moved ∧
      FindsAll sampleHost.walker sampleOptions.torrentDir
        sampleOptions.maxScanDepth moved.tree ∧
      (sampleHost.walker.find moved.tree sampleOptions.torrentDir
        sampleOptions.maxScanDepth).length ≤
          sampleOptions.maxScanInodes.toNat ∧
      ¬ Kept sampleHost.walker sampleOptions.torrentDir moved.tree moved.tdb
        (Runs.run (step sampleOptions sampleHost) moved
          (round sampleOptions sampleHost moved.tree)).tdb := by
  have hfind : FindsAll sampleHost.walker sampleOptions.torrentDir
      sampleOptions.maxScanDepth moved.tree :=
    findsAll_treeWith (by decide) (by decide) _ _
  have hlimit : (sampleHost.walker.find moved.tree sampleOptions.torrentDir
      sampleOptions.maxScanDepth).length ≤
        sampleOptions.maxScanInodes.toNat := by decide
  refine ⟨reachable_moved, hfind, hlimit, ?_⟩
  rw [tdb_run_round (by decide) moved hlimit,
    kept_iff (wellFormed_reachable reachable_moved) hfind hlimit]
  intro hmoved
  have hdisk : OnDisk sampleHost.walker sampleOptions.torrentDir moved.tree
      (.ofSha1 sampleDesc.infoHashV1) :=
    ⟨pathB, sampleDesc, by decide, by decide, rfl, Or.inl rfl⟩
  have hlookup :
      moved.tdb.lookup (hashKey (.ofSha1 sampleDesc.infoHashV1)) =
        some (torrentV1 pathA sampleDesc) := rfl
  have hlive := hmoved _ hdisk _ hlookup rfl
  revert hlive
  decide

end Rounds

end Tracker
end Hefur
