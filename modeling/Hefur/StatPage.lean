import Hefur.Pages
import Hefur.TrackerHistory

/-!
# The stat page

The model of `stat-handler.cc`.

The page has one row for each torrent and sums up the rows.  A torrent whose
hash has no type would end the process (`Torrent::version`).

In a reachable tracker the page is always made, its rows describe the torrents
exactly, and what it says of a torrent is what the pages it links to say
(`stat_page_reachable`).
-/

namespace Hefur

open Bytes

/-- The options that switch the links of the page on and off. -/
structure StatOptions where
  udpPort : UInt16 := 6969
  disablePeersPage : Bool := false
  disableFilePage : Bool := false

/-- `Torrent::version`; without a type it calls `std::terminate`. -/
def Torrent.version (t : Torrent) : Option Nat :=
  match t.infoHash.kind with
  | .sha1 => some 1
  | .sha256 => some 2
  | .none => none

namespace StatHandler

structure Row where
  name : Text
  length : UInt64
  version : Nat
  magnetKey : Text
  infoHash : List UInt8
  leechers : UInt32
  seeders : UInt32
  completed : UInt32
  showPeers : Bool
  showTorrent : Bool
deriving DecidableEq

structure Totals where
  leechers : UInt64
  seeders : UInt64
  length : UInt64
  completed : UInt64
deriving DecidableEq

structure Page where
  trackerHttp : Text
  trackerUdp : Option Text
  torrents : List Row
  totals : Totals
deriving DecidableEq

/-- The reply to a request; `terminated` is the end of the process. -/
inductive Reply where
  | unhandled
  | terminated
  | page (page : Page)
deriving DecidableEq

def magnetKey (host : PageHost) (version : Nat) (torrent : Torrent) : Text :=
  (if version = 1 then ascii "btih:" else ascii "btmh:1220") ++
    host.b16 torrent.key

def row (opt : StatOptions) (host : PageHost) (version : Nat)
    (torrent : Torrent) : Row where
  name := torrent.name
  length := torrent.length
  version := version
  magnetKey := magnetKey host version torrent
  infoHash := torrent.key
  leechers := torrent.leechers
  seeders := torrent.seeders
  completed := torrent.completed
  showPeers := !opt.disablePeersPage
  showTorrent := !opt.disableFilePage

namespace Totals

def zero : Totals where
  leechers := 0
  seeders := 0
  length := 0
  completed := 0

/-- The sums after one more torrent. -/
def add (torrent : Torrent) (totals : Totals) : Totals where
  leechers := totals.leechers + torrent.leechers.toUInt64
  seeders := totals.seeders + torrent.seeders.toUInt64
  length := totals.length + torrent.length
  completed := totals.completed + torrent.completed.toUInt64

end Totals

/-- The loop over the torrents; it stops at one without a version. -/
def list (opt : StatOptions) (host : PageHost) :
    List Torrent → List Row → Totals → Option (List Row × Totals)
  | [], torrents, totals => some (torrents, totals)
  | torrent :: rest, torrents, totals =>
      match torrent.version with
      | none => none
      | some version =>
          list opt host rest (torrents ++ [row opt host version torrent])
            (totals.add torrent)

/-- `http://%v:%v/announce`. -/
def trackerHttp (name : Text) (port : UInt16) : Text :=
  ascii "http://" ++ name ++ ascii ":" ++ decimal port.toNat ++
    ascii "/announce"

/-- `udp://%v:%v`, with a UDP port. -/
def trackerUdp (opt : StatOptions) (name : Text) : Option Text :=
  if opt.udpPort = 0 then none
  else some (ascii "udp://" ++ name ++ ascii ":" ++ decimal opt.udpPort.toNat)

/-- `name` and `port` are the host and the port of the request. -/
def handle (opt : StatOptions) (host : PageHost) (name : Text) (port : UInt16)
    (db : TorrentDb) : Reply :=
  if host.templates = false then .unhandled
  else
    match list opt host (ExactMap.values db) [] Totals.zero with
    | none => .terminated
    | some (torrents, totals) =>
        .page
          { trackerHttp := trackerHttp name port
            trackerUdp := trackerUdp opt name
            torrents := torrents
            totals := totals }

section Rows

variable (opt : StatOptions) (host : PageHost)

theorem version_ne_none {torrent : Torrent}
    (hkind : torrent.infoHash.kind ≠ .none) : torrent.version ≠ none := by
  rw [Torrent.version]
  cases hsame : torrent.infoHash.kind with
  | none => exact (hkind hsame).elim
  | sha1 => exact Option.some_ne_none 1
  | sha256 => exact Option.some_ne_none 2

/-- The row of a torrent that has a version. -/
def rowOf (torrent : Torrent) : Row :=
  row opt host (torrent.version.getD 0) torrent

/-- The loop adds the row of every torrent, and every torrent to the sums. -/
theorem list_eq {torrents : List Torrent}
    (hversion : ∀ torrent ∈ torrents, torrent.version ≠ none)
    (rows : List Row) (totals : Totals) :
    list opt host torrents rows totals =
      some (rows ++ torrents.map (rowOf opt host),
        torrents.foldl (fun totals torrent => totals.add torrent) totals) := by
  induction torrents generalizing rows totals with
  | nil =>
      simp [list]
  | cons torrent rest ih =>
      have hrest := fun t ht => hversion t (List.mem_cons_of_mem torrent ht)
      obtain ⟨version, hsome⟩ :=
        Option.ne_none_iff_exists'.mp (hversion torrent List.mem_cons_self)
      have hrow : rowOf opt host torrent = row opt host version torrent := by
        rw [rowOf, hsome]
        rfl
      simp only [list, hsome, ih hrest, List.map_cons, hrow,
        List.foldl_cons, List.append_assoc, List.cons_append, List.nil_append]

/-- The sums of the page are sums of 64-bit words. -/
structure SumUp (rows : List Row) (totals : Totals) : Prop where
  leechers : totals.leechers =
    UInt64.ofNat (rows.map fun r => r.leechers.toNat).sum
  seeders : totals.seeders =
    UInt64.ofNat (rows.map fun r => r.seeders.toNat).sum
  length : totals.length =
    UInt64.ofNat (rows.map fun r => r.length.toNat).sum
  completed : totals.completed =
    UInt64.ofNat (rows.map fun r => r.completed.toNat).sum

theorem ofNat_add_toUInt64 (n : Nat) (w : UInt32) :
    UInt64.ofNat n + w.toUInt64 = UInt64.ofNat (n + w.toNat) := by
  rw [UInt64.ofNat_add]
  congr 1
  rw [← UInt64.ofNat_toNat (x := w.toUInt64)]
  simp

/-- One more row and its torrent keep the sums right. -/
theorem SumUp.add {rows : List Row} {totals : Totals} (h : SumUp rows totals)
    (torrent : Torrent) :
    SumUp (rows ++ [rowOf opt host torrent]) (totals.add torrent) := by
  constructor
  · simp only [Totals.add, h.leechers, ofNat_add_toUInt64, List.map_append,
      List.sum_append]
    rfl
  · simp only [Totals.add, h.seeders, ofNat_add_toUInt64, List.map_append,
      List.sum_append]
    rfl
  · simp only [Totals.add, h.length, List.map_append, List.sum_append,
      UInt64.ofNat_add]
    simp [rowOf, row]
  · simp only [Totals.add, h.completed, ofNat_add_toUInt64, List.map_append,
      List.sum_append]
    rfl

theorem sumUp_foldl (torrents : List Torrent) {rows : List Row}
    {totals : Totals} (h : SumUp rows totals) :
    SumUp (rows ++ torrents.map (rowOf opt host))
      (torrents.foldl (fun totals torrent => totals.add torrent) totals) := by
  induction torrents generalizing rows totals with
  | nil =>
      simpa using h
  | cons torrent rest ih =>
      have hrest := ih (h.add opt host torrent)
      rw [List.append_assoc] at hrest
      exact hrest

theorem sumUp_nil : SumUp [] Totals.zero :=
  ⟨rfl, rfl, rfl, rfl⟩

end Rows

section Agreement

/-- The version and the full hash that the `xt` of a magnet link names. -/
def readMagnetKey (host : PageHost) (text : Text) :
    Option (Nat × List UInt8) :=
  if ascii "btih:" <+: text then
    some (1, host.base16Decode (text.drop 5))
  else if ascii "btmh:1220" <+: text then
    some (2, host.base16Decode (text.drop 9))
  else none

/-- The query of the links to the other pages: `info_hash|b16`. -/
def linkQuery (host : PageHost) (r : Row) : Params :=
  [(ascii "info_hash", host.b16 r.infoHash)]

/--
The row says of a torrent of `db` what the torrent is, what a scrape for it
says and what the page of its peers shows.
-/
structure Describes (host : PageHost) (db : TorrentDb) (r : Row)
    (torrent : Torrent) : Prop where
  name : r.name = torrent.name
  length : r.length = torrent.length
  magnet : readMagnetKey host r.magnetKey = some (r.version, torrent.key)
  version : torrent.version = some r.version
  peers : PeersHandler.handle host (linkQuery host r) db =
    .found (r.infoHash.take 20) (PeersHandler.peers host.net torrent)
  seeders : r.seeders.toNat =
    (PeersHandler.peers host.net torrent).countP (fun peer => peer.left = 0)
  leechers : r.leechers.toNat =
    (PeersHandler.peers host.net torrent).countP (fun peer => 0 < peer.left)
  scrape : ∀ h : InfoHash, h.bytes = r.infoHash.take 20 →
    db.scrapeItem h =
      some
        { infoHash := h
          nleechers := r.leechers
          nseeders := r.seeders
          ndownloaded := r.completed }

variable {opt : StatOptions} {host : PageHost}

theorem readMagnetKey_magnetKey {torrent : Torrent} {version : Nat}
    (hversion : torrent.version = some version) :
    readMagnetKey host (magnetKey host version torrent) =
      some (version, torrent.key) := by
  have hcases : version = 1 ∨ version = 2 := by
    rw [Torrent.version] at hversion
    split at hversion
    · exact Or.inl (Option.some.inj hversion).symm
    · exact Or.inr (Option.some.inj hversion).symm
    · cases hversion
  rcases hcases with rfl | rfl
  · have hprefix : ascii "btih:" <+: magnetKey host 1 torrent :=
      List.prefix_append _ _
    rw [readMagnetKey, if_pos hprefix]
    exact congrArg (fun key => some (1, key)) (host.decode_b16 torrent.key)
  · have hprefix : ascii "btmh:1220" <+: magnetKey host 2 torrent :=
      List.prefix_append _ _
    have hother : ¬ ascii "btih:" <+: magnetKey host 2 torrent := by
      rintro ⟨rest, hrest⟩
      have hthird := congrArg (fun text => text[2]?) hrest
      simp [magnetKey, ascii] at hthird
    rw [readMagnetKey, if_neg hother, if_pos hprefix]
    exact congrArg (fun key => some (2, key)) (host.decode_b16 torrent.key)

/-- The row of a steady torrent under its own key. -/
theorem describes_rowOf {db : TorrentDb} (hwell : TorrentDb.WellFormed db)
    (htemplates : host.templates = true) {k : List UInt8} {torrent : Torrent}
    (hk : db.lookup k = some torrent) {maxPeers : Options}
    (hsteady : Torrent.Steady maxPeers torrent) :
    Describes host db (rowOf opt host torrent) torrent := by
  obtain ⟨version, hversion⟩ :=
    Option.ne_none_iff_exists'.mp (version_ne_none (hwell k torrent hk).2)
  have hrow : rowOf opt host torrent = row opt host version torrent := by
    rw [rowOf, hversion]
    rfl
  have hagree := hsteady.peersAgree
  rw [hrow]
  constructor
  · rfl
  · rfl
  · exact readMagnetKey_magnetKey hversion
  · exact hversion
  · have hlink : queryGet (ascii "info_hash")
        (linkQuery host (row opt host version torrent)) =
          link host torrent := rfl
    obtain ⟨key, hkey, hreply⟩ :=
      (resolves_peers hwell htemplates).1 k torrent hk hlink
    rw [hreply, ← (hwell key torrent hkey).1]
    rfl
  · rw [PeersHandler.peers, List.countP_map]
    exact hagree.seeders
  · rw [PeersHandler.peers, List.countP_map]
    exact hagree.leechers
  · intro h hbytes
    have hkey : h.bytes = k := hbytes.trans (hwell k torrent hk).1
    rw [TorrentDb.scrapeItem, hkey, hk]
    rfl

/-- The page of a well-formed database. -/
theorem handle_eq {db : TorrentDb} (hwell : TorrentDb.WellFormed db)
    (htemplates : host.templates = true) (name : Text) (port : UInt16) :
    handle opt host name port db =
      .page
        { trackerHttp := trackerHttp name port
          trackerUdp := trackerUdp opt name
          torrents := (ExactMap.values db).map (rowOf opt host)
          totals := (ExactMap.values db).foldl
            (fun totals torrent => totals.add torrent) Totals.zero } := by
  have hlisted : ∀ torrent ∈ ExactMap.values db,
      torrent.version ≠ none := by
    intro torrent hmem
    obtain ⟨k, hk⟩ := ExactMap.mem_values_iff.mp hmem
    exact version_ne_none (hwell k torrent hk).2
  rw [handle, if_neg (by simp [htemplates]), list_eq opt host hlisted,
    List.nil_append]

end Agreement

end StatHandler

section Reachable

open Tracker StatHandler

/--
**The stat page.**  In a reachable tracker the page is always made; it has one
row for each torrent, which agrees with the page of the torrent's peers, and
its totals sum up the rows.
-/
theorem stat_page_reachable {opt : Options}
    (hmax : opt.maxPeers.toNat < 2 ^ 32 - 1)
    {tracker : Host} {tree : Tree} {udp : UdpServer} {σ : Tracker}
    (hσ : Runs.Reachable (step opt tracker) (start tree udp) σ)
    {host : PageHost} (htemplates : host.templates = true)
    (pages : StatOptions) (name : Text) (port : UInt16) :
    ∃ page, StatHandler.handle pages host name port σ.tdb = .page page ∧
      List.Forall₂ (Describes host σ.tdb) page.torrents
        (ExactMap.values σ.tdb) ∧
      SumUp page.torrents page.totals := by
  have hwell := wellFormed_reachable hσ
  refine ⟨_, handle_eq hwell htemplates name port, ?_,
    sumUp_foldl pages host _ sumUp_nil⟩
  rw [List.forall₂_map_left_iff, List.forall₂_same]
  intro torrent hmem
  obtain ⟨k, hk⟩ := ExactMap.mem_values_iff.mp hmem
  exact describes_rowOf hwell htemplates hk
    (steady_reachable hmax hσ k torrent hk)

/-- The stat page of the tracker with one seeder. -/
theorem stat_page_reachable_seeded :
    ∃ page, StatHandler.handle {} PageHost.plain (ascii "localhost") 6969
        seeded.tdb = .page page ∧
      List.Forall₂ (Describes PageHost.plain seeded.tdb) page.torrents
        (ExactMap.values seeded.tdb) ∧
      SumUp page.torrents page.totals :=
  stat_page_reachable (by decide) reachable_seeded rfl {}
    (ascii "localhost") 6969

end Reachable

end Hefur
