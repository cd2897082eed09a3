import Hefur.TorrentDb

/-!
# The white list

The model of `fs-tree-white-list.cc`: `scan` adds the torrents of the files it
visits, and `check` removes the torrents whose file is gone.

The file tree, the walk through it and the parser of torrent files belong to
the environment.  A file tree says what each file holds and what `stat` answers
for each path; whatever others do to the files leads to another tree.

The specification lemmas `lookup_scan_of_some`, `scan_adds` and `lookup_check`
say what a scan and a check do to the database.
-/

namespace Hefur

open Bytes

abbrev Path := Text

/-- What `stat` answers: success, `ENOENT` or another error. -/
inductive Stat where
  | found
  | enoent
  | failed
deriving DecidableEq

/-- The files below the directories that are scanned. -/
structure Tree where
  file : Path → Option Text
  stat : Path → Stat
  stat_file : ∀ path, file path ≠ none → stat path = .found
  file_path : ∀ path, file path ≠ none → cStr path = path

/-- What the parser reads in a torrent file; it sets both hashes. -/
structure TorrentDesc where
  infoHashV1 : Block 20
  infoHashV2 : Block 32
  name : Text
  length : UInt64

/-- The walk through a tree, to a given depth, and the parser. -/
structure Walker where
  find : Tree → Path → UInt32 → List Path
  parse : Text → Option TorrentDesc

namespace Tree

/-- A tree that holds exactly the given files. -/
def ofFiles (files : List (Path × Text)) : Tree where
  file path :=
    if cStr path = path then files.lookup path else none
  stat path :=
    if cStr path = path ∧ (files.lookup path).isSome then .found else .enoent
  stat_file := by
    intro path hfile
    by_cases hpath : cStr path = path
    · rw [if_pos hpath] at hfile
      rw [if_pos ⟨hpath, Option.isSome_iff_ne_none.mpr hfile⟩]
    · rw [if_neg hpath] at hfile
      exact (hfile rfl).elim
  file_path := by
    intro path hfile
    by_contra hpath
    rw [if_neg hpath] at hfile
    exact hfile rfl

end Tree

namespace FsTreeWhiteList

section Model

/-- `!fnmatch("*.torrent", path, FNM_CASEFOLD)`. -/
def isTorrentPath (path : Path) : Bool :=
  let p := cStr path
  ((p.drop (p.length - 8)).map AnnounceRequest.toLower) = ascii ".torrent"

/-- `!strncmp(path, root, root.size())`. -/
def underRoot (root path : Path) : Bool :=
  (cStr path ++ [0]).take root.length = (cStr root ++ [0]).take root.length

/-- What the parser makes of the file at `path`. -/
def parseFile (walker : Walker) (tree : Tree) (path : Path) :
    Option TorrentDesc :=
  (tree.file (cStr path)).bind walker.parse

def torrentV1 (path : Path) (desc : TorrentDesc) : Torrent :=
  Torrent.new (.ofSha1 desc.infoHashV1) desc.name path desc.length

def torrentV2 (path : Path) (desc : TorrentDesc) : Torrent :=
  Torrent.new (.ofSha256 desc.infoHashV2) desc.name path desc.length

/-- The visit of one path in `scan`. -/
def visit (walker : Walker) (tree : Tree) (path : Path) (db : TorrentDb) :
    TorrentDb :=
  if isTorrentPath path then
    match parseFile walker tree path with
    | none => db
    | some desc =>
        (db.addTorrent (torrentV1 path desc)).addTorrent (torrentV2 path desc)
  else db

/-- The visits of a scan, until the limit of inodes is reached. -/
def visitAll (opt : Options) (walker : Walker) (tree : Tree) :
    List Path → UInt32 → TorrentDb → TorrentDb
  | [], _, db => db
  | path :: rest, nbInodes, db =>
      if nbInodes + 1 > opt.maxScanInodes then db
      else
        visitAll opt walker tree rest (nbInodes + 1)
          (visit walker tree path db)

/-- `scan`, in a tree that does not change meanwhile. -/
def scan (opt : Options) (walker : Walker) (tree : Tree) (db : TorrentDb) :
    TorrentDb :=
  visitAll opt walker tree
    (walker.find tree opt.torrentDir opt.maxScanDepth) 0 db

/-- `checkTorrent`: the path lies under the root and is gone. -/
def stale (root : Path) (tree : Tree) (torrent : Torrent) : Bool :=
  underRoot root torrent.path && tree.stat (cStr torrent.path) = .enoent

/-- `check`: collect the keys of the stale torrents, then erase them. -/
def check (root : Path) (tree : Tree) (db : TorrentDb) : TorrentDb :=
  let keys := ((ExactMap.values db).filter (stale root tree)).map Torrent.key
  keys.foldl (fun db key => db.removeTorrent key) db

end Model

section Visits

variable {db : TorrentDb} {walker : Walker} {tree : Tree}

open TorrentDb (torrentKey WellFormed)

/-- A torrent that is in the database stays what it is. -/
theorem lookup_addTorrent_of_some (torrent : Torrent)
    {k : List UInt8} {t : Torrent} (hk : db.lookup k = some t) :
    (db.addTorrent torrent).lookup k = some t := by
  rw [TorrentDb.addTorrent, ExactMap.lookup_insertNew, if_neg]
  · exact hk
  · rintro ⟨rfl, hnone⟩
    rw [hk] at hnone
    cases hnone

theorem addTorrent_adds (db : TorrentDb) (torrent : Torrent) :
    ∃ t, (db.addTorrent torrent).lookup (torrentKey torrent) = some t := by
  cases hk : db.lookup (torrentKey torrent) with
  | some t =>
      exact ⟨t, lookup_addTorrent_of_some torrent hk⟩
  | none =>
      exact ⟨torrent, ExactMap.lookup_insertNew_self hk⟩

theorem lookup_addTorrent_cases {torrent : Torrent}
    {k : List UInt8} {t : Torrent}
    (hk : (db.addTorrent torrent).lookup k = some t) :
    db.lookup k = some t ∨ t = torrent := by
  rw [TorrentDb.addTorrent, ExactMap.lookup_insertNew] at hk
  split at hk
  · exact Or.inr (Option.some.inj hk).symm
  · exact Or.inl hk

theorem lookup_visit_of_some (path : Path)
    {k : List UInt8} {t : Torrent} (hk : db.lookup k = some t) :
    (visit walker tree path db).lookup k = some t := by
  unfold visit
  split
  · split
    · exact hk
    · exact lookup_addTorrent_of_some _ (lookup_addTorrent_of_some _ hk)
  · exact hk

/-- A visit adds both torrents of a file. -/
theorem visit_adds (db : TorrentDb) {path : Path} {desc : TorrentDesc}
    (hpath : isTorrentPath path = true)
    (hdesc : parseFile walker tree path = some desc) :
    (∃ t, (visit walker tree path db).lookup
        (torrentKey (torrentV1 path desc)) = some t) ∧
      ∃ t, (visit walker tree path db).lookup
        (torrentKey (torrentV2 path desc)) = some t := by
  rw [visit, if_pos hpath, hdesc]
  refine ⟨?_, addTorrent_adds _ _⟩
  obtain ⟨t, ht⟩ := addTorrent_adds db (torrentV1 path desc)
  exact ⟨t, lookup_addTorrent_of_some _ ht⟩

/-- The torrents that a visit adds are those of the file it finds. -/
theorem lookup_visit_cases {path : Path} {k : List UInt8} {t : Torrent}
    (hk : (visit walker tree path db).lookup k = some t) :
    db.lookup k = some t ∨ tree.stat (cStr t.path) = .found := by
  unfold visit at hk
  split at hk
  · split at hk
    · exact Or.inl hk
    · rename_i desc hdesc
      have hfile : tree.stat (cStr path) = .found := by
        apply tree.stat_file
        intro hnone
        rw [parseFile, hnone] at hdesc
        cases hdesc
      rcases lookup_addTorrent_cases hk with hk | rfl
      · rcases lookup_addTorrent_cases hk with hk | rfl
        · exact Or.inl hk
        · exact Or.inr hfile
      · exact Or.inr hfile
  · exact Or.inl hk

theorem wellFormed_visit (h : WellFormed db) (path : Path) :
    WellFormed (visit walker tree path db) := by
  unfold visit
  split
  · split
    · exact h
    · apply TorrentDb.wellFormed_addTorrent
      · exact TorrentDb.wellFormed_addTorrent h (by simp [torrentV1,
          Torrent.new, InfoHash.ofSha1])
      · simp [torrentV2, Torrent.new, InfoHash.ofSha256]
  · exact h

/-- What every visit keeps is kept by a scan. -/
theorem visitAll_induction
    {opt : Options} {P : TorrentDb → Prop}
    (hvisit : ∀ db path, P db → P (visit walker tree path db))
    (paths : List Path) :
    ∀ {nbInodes : UInt32} {db : TorrentDb}, P db →
      P (visitAll opt walker tree paths nbInodes db) := by
  induction paths with
  | nil =>
      intro nbInodes db hdb
      exact hdb
  | cons path rest ih =>
      intro nbInodes db hdb
      unfold visitAll
      split
      · exact hdb
      · exact ih (hvisit db path hdb)

theorem lookup_scan_of_some (opt : Options)
    {k : List UInt8} {t : Torrent} (hk : db.lookup k = some t) :
    (scan opt walker tree db).lookup k = some t :=
  visitAll_induction (P := fun db => db.lookup k = some t)
    (fun _ path hk => lookup_visit_of_some path hk) _ hk

theorem lookup_scan_cases {opt : Options} {k : List UInt8} {t : Torrent}
    (hk : (scan opt walker tree db).lookup k = some t) :
    db.lookup k = some t ∨ tree.stat (cStr t.path) = .found := by
  revert hk
  apply visitAll_induction
    (P := fun db' => db'.lookup k = some t →
      db.lookup k = some t ∨ tree.stat (cStr t.path) = .found)
  · intro db' path hdb' hk
    rcases lookup_visit_cases hk with hk | hfound
    · exact hdb' hk
    · exact Or.inr hfound
  · exact Or.inl

theorem wellFormed_scan (opt : Options) (h : WellFormed db) :
    WellFormed (scan opt walker tree db) :=
  visitAll_induction (P := WellFormed)
    (fun _ path hdb => wellFormed_visit hdb path) _ h

/-- The count of inodes before the limit, after one more. -/
theorem nbInodes_below {opt : Options} {nbInodes : UInt32} {rest : Nat}
    (hlimit : nbInodes.toNat + (rest + 1) ≤ opt.maxScanInodes.toNat) :
    (nbInodes + 1).toNat = nbInodes.toNat + 1 ∧
      ¬ nbInodes + 1 > opt.maxScanInodes := by
  have hmax := opt.maxScanInodes.toNat_lt
  have hnext : (nbInodes + 1).toNat = nbInodes.toNat + 1 := by
    rw [UInt32.toNat_add]
    exact Nat.mod_eq_of_lt (by show nbInodes.toNat + 1 < 2 ^ 32; omega)
  refine ⟨hnext, ?_⟩
  rw [gt_iff_lt, UInt32.lt_iff_toNat_lt, hnext]
  omega

/-- Below the limit of inodes every path is visited. -/
theorem visitAll_adds
    {opt : Options} {path : Path} {desc : TorrentDesc}
    (hpath : isTorrentPath path = true)
    (hdesc : parseFile walker tree path = some desc)
    (paths : List Path) :
    ∀ (nbInodes : UInt32) (db : TorrentDb),
      nbInodes.toNat + paths.length ≤ opt.maxScanInodes.toNat →
      path ∈ paths →
      (∃ t, (visitAll opt walker tree paths nbInodes db).lookup
          (torrentKey (torrentV1 path desc)) = some t) ∧
        ∃ t, (visitAll opt walker tree paths nbInodes db).lookup
          (torrentKey (torrentV2 path desc)) = some t := by
  induction paths with
  | nil =>
      intro nbInodes db _ hmem
      cases hmem
  | cons first rest ih =>
      intro nbInodes db hlimit hmem
      rw [List.length_cons] at hlimit
      obtain ⟨hnext, hbelow⟩ := nbInodes_below hlimit
      rw [visitAll, if_neg hbelow]
      rcases List.mem_cons.mp hmem with rfl | hmem
      · obtain ⟨⟨t, ht⟩, ⟨t', ht'⟩⟩ := visit_adds db hpath hdesc
        refine ⟨⟨t, ?_⟩, ⟨t', ?_⟩⟩
        · exact visitAll_induction (P := fun db => db.lookup _ = some t)
            (fun _ path hk => lookup_visit_of_some path hk) _ ht
        · exact visitAll_induction (P := fun db => db.lookup _ = some t')
            (fun _ path hk => lookup_visit_of_some path hk) _ ht'
      · exact ih _ _ (by rw [hnext]; omega) hmem

end Visits

section Checks

variable {db : TorrentDb}

open TorrentDb (torrentKey WellFormed)

theorem lookup_removeAll (keys : List (List UInt8)) (k : List UInt8) :
    ∀ db : TorrentDb,
      (keys.foldl (fun db key => db.removeTorrent key) db).lookup k =
        if k ∈ keys then none else db.lookup k := by
  induction keys with
  | nil =>
      intro db
      rfl
  | cons key keys ih =>
      intro db
      rw [List.foldl_cons, ih, TorrentDb.removeTorrent, ExactMap.lookup_erase]
      by_cases hk : k = key
      · simp [hk]
      · simp [hk]

/--
A check removes exactly the stale torrents whose whole key is their key in the
database, which are those of a 20-byte hash.
-/
theorem lookup_check (h : WellFormed db) (root : Path) (tree : Tree)
    {k : List UInt8} {t : Torrent} (hk : db.lookup k = some t) :
    (check root tree db).lookup k =
      if stale root tree t ∧ t.infoHash.kind = .sha1 then none
      else some t := by
  rw [check, lookup_removeAll, hk]
  congr 1
  apply propext
  constructor
  · intro hmem
    obtain ⟨s, hs, hkey⟩ := List.mem_map.mp hmem
    obtain ⟨hs, hstale⟩ := List.mem_filter.mp hs
    obtain ⟨k', hk'⟩ := ExactMap.mem_values_iff.mp hs
    have hlen := h.length_key hk
    have hkind : s.infoHash.kind = .sha1 := by
      have hsize := InfoHash.length_bytes s.infoHash
      rw [Torrent.key] at hkey
      rw [hkey, hlen] at hsize
      cases hkind : s.infoHash.kind with
      | none => rw [hkind] at hsize; cases hsize
      | sha1 => rfl
      | sha256 => rw [hkind] at hsize; cases hsize
    have hsame : k' = k := (h.key_of_sha1 hk' hkind).symm.trans hkey
    rw [hsame, hk] at hk'
    obtain rfl := Option.some.inj hk'
    exact ⟨hstale, hkind⟩
  · rintro ⟨hstale, hkind⟩
    apply List.mem_map.mpr
    exact ⟨t, List.mem_filter.mpr ⟨ExactMap.mem_values_iff.mpr ⟨k, hk⟩,
      hstale⟩, h.key_of_sha1 hk hkind⟩

/-- A check brings nothing in. -/
theorem lookup_of_lookup_check {root : Path} {tree : Tree}
    {k : List UInt8} {t : Torrent}
    (hk : (check root tree db).lookup k = some t) : db.lookup k = some t := by
  rw [check, lookup_removeAll] at hk
  split at hk
  · cases hk
  · exact hk

theorem wellFormed_check (h : WellFormed db) (root : Path) (tree : Tree) :
    WellFormed (check root tree db) :=
  fun k t hk => h k t (lookup_of_lookup_check hk)

end Checks

section All

open TorrentDb (All)

variable {P : Torrent → Prop} {db : TorrentDb}

theorem all_visit (h : All P db)
    (hnew : ∀ infoHash name path length,
      P (Torrent.new infoHash name path length))
    (walker : Walker) (tree : Tree) (path : Path) :
    All P (visit walker tree path db) := by
  unfold visit
  split
  · split
    · exact h
    · exact (h.addTorrent (hnew _ _ _ _)).addTorrent (hnew _ _ _ _)
  · exact h

theorem all_check (h : All P db) (root : Path) (tree : Tree) :
    All P (check root tree db) :=
  fun k t hk => h k t (lookup_of_lookup_check hk)

end All

end FsTreeWhiteList

end Hefur
