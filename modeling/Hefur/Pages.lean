import Hefur.Presentation
import Hefur.Tracker

/-!
# The stat, peers and file pages

The model of `peers-handler.cc` and `file-handler.cc`, with the links to them
that `stat-handler.cc` and `stat.html` publish.

Both pages take the hexadecimal form of a hash.  A hash is stored under its
first 20 bytes, so that a page has to cut a longer one before it looks it up.

The amounts of a peer are rows of numbers here: the page prints them as sizes.

`resolves_iff`: the peers page resolves every published link, but the file page
has its length test the wrong way round and so resolves none of them.
-/

namespace Hefur

open Bytes

/-- `isValidHashSize`; the size is an `int`. -/
def InfoHash.isValidHashSize (size : Int) : Bool :=
  size = 20 || size = 32

/-- `str`: `a.b.c.d:port` or `[ipv6]:port`. -/
def Address.str (net : Inet) : Address → Text
  | .inet addr word => net.ntop4 addr ++ [58] ++ decimal (ntohs word).toNat
  | .inet6 addr word =>
      [91] ++ net.ntop6 addr ++ [93, 58] ++ decimal (ntohs word).toNat
  | .unspec _ => ascii "(unknown family)"

section Hexadecimal

/-- Two hexadecimal digits a byte. -/
def hexEncode (bytes : List UInt8) : Text :=
  bytes.flatMap fun b => [hexDigit (b.toNat / 16), hexDigit (b.toNat % 16)]

/-- The bytes of pairs of digits, up to the first that is none. -/
def hexDecode : Text → List UInt8
  | hi :: lo :: rest =>
      match hexValue hi, hexValue lo with
      | some h, some l => UInt8.ofNat (16 * h + l) :: hexDecode rest
      | _, _ => []
  | _ => []

theorem hexDecode_hexEncode (bytes : List UInt8) :
    hexDecode (hexEncode bytes) = bytes := by
  induction bytes with
  | nil =>
      rfl
  | cons b bytes ih =>
      have hb := b.toNat_lt
      have hhi := hexValue_hexDigit (b.toNat / 16) (by omega)
      have hlo := hexValue_hexDigit (b.toNat % 16) (by omega)
      have hbyte : UInt8.ofNat (16 * (b.toNat / 16) + b.toNat % 16) = b := by
        rw [Nat.div_add_mod, UInt8.ofNat_toNat]
      rw [hexEncode] at ih
      simp only [hexEncode, List.flatMap_cons, List.cons_append,
        List.nil_append, hexDecode, hhi, hlo, hbyte, ih]

end Hexadecimal

/--
What the pages take from their libraries.  `base16Decode` undoes the `b16`
filter of the templates; `templates` says whether the templates were loaded.
-/
structure PageHost where
  net : Inet
  templates : Bool
  b16 : List UInt8 → Text
  base16Decode : Text → List UInt8
  decode_b16 : ∀ bytes, base16Decode (b16 bytes) = bytes

/-- The pages with the concrete conversions. -/
def PageHost.plain : PageHost where
  net := Inet.plain
  templates := true
  b16 := hexEncode
  base16Decode := hexDecode
  decode_b16 := hexDecode_hexEncode

inductive Status where
  | badRequest
  | notFound
deriving DecidableEq

/--
The reply of a page: refused before any lookup, or what a lookup of `key` in
the database gave.
-/
inductive PageReply (α : Type) where
  | unhandled
  | refused (status : Status)
  | missing (key : List UInt8) (status : Status)
  | found (key : List UInt8) (content : α)
deriving DecidableEq

namespace StatHandler

/-- The `info_hash` of the links to a torrent: its full key. -/
def link (host : PageHost) (torrent : Torrent) : Text :=
  host.b16 torrent.key

end StatHandler

namespace PeersHandler

/-- A row of the page. -/
structure Row where
  address : Text
  peerid : Block 20
  downloaded : UInt64
  uploaded : UInt64
  left : UInt64
deriving DecidableEq

def row (net : Inet) (peer : Peer) : Row where
  address := peer.addr.str net
  peerid := peer.peerid
  downloaded := peer.downloaded
  uploaded := peer.uploaded
  left := peer.left

/-- The rows of a torrent: its peers in the order of `timeouts_`. -/
def peers (net : Inet) (torrent : Torrent) : List Row :=
  torrent.timeouts.map fun peer => row net (torrent.mem peer)

def handle (host : PageHost) (query : Params) (db : TorrentDb) :
    PageReply (List Row) :=
  let infoHash := host.base16Decode (queryGet (ascii "info_hash") query)
  if infoHash.length ≠ 20 ∧ infoHash.length ≠ 32 then .refused .notFound
  else
    let infoHash := infoHash.take 20
    if host.templates = false then .unhandled
    else
      match db.lookup infoHash with
      | none => .missing infoHash .notFound
      | some torrent => .found infoHash (peers host.net torrent)

end PeersHandler

namespace FileHandler

/-- The page streams the file at the path of the torrent. -/
def handle (host : PageHost) (query : Params) (db : TorrentDb) :
    PageReply Text :=
  let infoHash := host.base16Decode (queryGet (ascii "info_hash") query)
  -- the source refuses the valid sizes here, not the others
  if InfoHash.isValidHashSize (wrap32 infoHash.length) then
    .refused .badRequest
  else
    match db.lookup infoHash with
    | none => .missing infoHash .notFound
    | some torrent => .found infoHash torrent.path

end FileHandler

section Links

variable {host : PageHost} {query : Params} {db : TorrentDb}

/-- The query names a torrent of the database as the stat page does. -/
def Published (host : PageHost) (db : TorrentDb) (query : Params) : Prop :=
  ∃ k t, db.lookup k = some t ∧
    queryGet (ascii "info_hash") query = StatHandler.link host t

/--
A page serves the published links, each with the content of its torrent, and
refuses what has not the length of a hash.
-/
def Resolves {α : Type} (host : PageHost) (db : TorrentDb) (query : Params)
    (reply : PageReply α) (content : Torrent → α) : Prop :=
  (∀ k t, db.lookup k = some t →
    queryGet (ascii "info_hash") query = StatHandler.link host t →
    ∃ key, db.lookup key = some t ∧ reply = .found key (content t)) ∧
  ((host.base16Decode (queryGet (ascii "info_hash") query)).length ≠ 20 →
    (host.base16Decode (queryGet (ascii "info_hash") query)).length ≠ 32 →
    ∃ status, reply = .refused status)

/-- A full key has the length of a hash. -/
theorem TorrentDb.WellFormed.length_torrent_key
    (h : TorrentDb.WellFormed db) {k : List UInt8} {t : Torrent}
    (hk : db.lookup k = some t) :
    t.key.length = 20 ∨ t.key.length = 32 := by
  obtain ⟨-, hkind⟩ := h k t hk
  rw [Torrent.key, InfoHash.length_bytes]
  cases hhash : t.infoHash.kind with
  | none => exact (hkind hhash).elim
  | sha1 => exact Or.inl rfl
  | sha256 => exact Or.inr rfl

theorem decode_link {t : Torrent}
    (hlink : queryGet (ascii "info_hash") query = StatHandler.link host t) :
    host.base16Decode (queryGet (ascii "info_hash") query) = t.key := by
  rw [hlink, StatHandler.link, host.decode_b16]

/-- The sizes of hashes are small enough for an `int`. -/
theorem isValidHashSize_wrap32 {n : Nat} (hn : n = 20 ∨ n = 32) :
    InfoHash.isValidHashSize (wrap32 n) = true := by
  rcases hn with rfl | rfl <;> rfl

theorem resolves_peers (h : TorrentDb.WellFormed db)
    (htemplates : host.templates = true) :
    Resolves host db query (PeersHandler.handle host query db)
      (PeersHandler.peers host.net) := by
  constructor
  · intro k t hk hlink
    have hlength := h.length_torrent_key hk
    have hkey : t.key.take 20 = k := (h k t hk).1
    refine ⟨k, hk, ?_⟩
    have hvalid : ¬ (t.key.length ≠ 20 ∧ t.key.length ≠ 32) := by omega
    rw [PeersHandler.handle, decode_link hlink, if_neg hvalid,
      if_neg (by simp [htemplates]), hkey, hk]
  · intro h20 h32
    exact ⟨.notFound, by simp [PeersHandler.handle, h20, h32]⟩

/-- The file page fails on every query that its test should decide. -/
theorem resolves_file_iff (h : TorrentDb.WellFormed db) :
    Resolves host db query (FileHandler.handle host query db)
        Torrent.path ↔
      ¬ Published host db query ∧
        InfoHash.isValidHashSize (wrap32
          (host.base16Decode
            (queryGet (ascii "info_hash") query)).length) = true := by
  constructor
  · rintro ⟨hserves, hrefuses⟩
    constructor
    · rintro ⟨k, t, hk, hlink⟩
      obtain ⟨key, -, hreply⟩ := hserves k t hk hlink
      have hvalid := isValidHashSize_wrap32 (h.length_torrent_key hk)
      simp [FileHandler.handle, decode_link hlink, hvalid] at hreply
    · by_contra hvalid
      obtain ⟨status, hreply⟩ := hrefuses
        (fun h20 => hvalid (isValidHashSize_wrap32 (Or.inl h20)))
        (fun h32 => hvalid (isValidHashSize_wrap32 (Or.inr h32)))
      rw [FileHandler.handle, if_neg hvalid] at hreply
      cases hlookup : db.lookup (host.base16Decode
          (queryGet (ascii "info_hash") query)) with
      | none =>
          rw [hlookup] at hreply
          cases hreply
      | some t =>
          rw [hlookup] at hreply
          cases hreply
  · rintro ⟨hpublished, hvalid⟩
    constructor
    · intro k t hk hlink
      exact (hpublished ⟨k, t, hk, hlink⟩).elim
    · intro _ _
      exact ⟨.badRequest, by simp [FileHandler.handle, hvalid]⟩

/-- The peers page asks nothing that the file page would not ask too. -/
theorem resolves_peers_of_not_published
    (hpublished : ¬ Published host db query) :
    Resolves host db query (PeersHandler.handle host query db)
      (PeersHandler.peers host.net) := by
  constructor
  · intro k t hk hlink
    exact (hpublished ⟨k, t, hk, hlink⟩).elim
  · intro h20 h32
    exact ⟨.notFound, by simp [PeersHandler.handle, h20, h32]⟩

end Links

section Reachable

open Tracker

/--
**Links.**  In a reachable tracker the peers page resolves every query as it
should.  Both pages do so exactly when the query names no torrent of the
database and has the length of a hash, that is when nothing is asked of them.
-/
theorem resolves_iff
    {opt : Options} {tracker : Host} {tree : Tree} {udp : UdpServer}
    {σ : Tracker} (host : PageHost) (query : Params)
    (hσ : Runs.Reachable (step opt tracker) (start tree udp) σ) :
    (host.templates = true →
      Resolves host σ.tdb query (PeersHandler.handle host query σ.tdb)
        (PeersHandler.peers host.net)) ∧
    ((Resolves host σ.tdb query (PeersHandler.handle host query σ.tdb)
          (PeersHandler.peers host.net) ∧
        Resolves host σ.tdb query (FileHandler.handle host query σ.tdb)
          Torrent.path) ↔
      ¬ Published host σ.tdb query ∧
        InfoHash.isValidHashSize (wrap32
          (host.base16Decode
            (queryGet (ascii "info_hash") query)).length) = true) := by
  have hwell := wellFormed_reachable hσ
  refine ⟨resolves_peers hwell, ?_⟩
  rw [resolves_file_iff hwell]
  constructor
  · rintro ⟨-, hcondition⟩
    exact hcondition
  · intro hcondition
    exact ⟨resolves_peers_of_not_published hcondition.1, hcondition⟩

/-- The query of the links to the sample torrent. -/
def sampleLink : Params :=
  [(ascii "info_hash", hexEncode sampleDesc.infoHashV1.val)]

theorem resolves_iff_sample :
    Resolves PageHost.plain seeded.tdb sampleLink
        (PeersHandler.handle PageHost.plain sampleLink seeded.tdb)
        (PeersHandler.peers Inet.plain) :=
  (resolves_iff PageHost.plain sampleLink reachable_seeded).1 rfl

/-- The link to the sample torrent lists its peer but is no file. -/
theorem file_page_refuses_link :
    Runs.Reachable (step sampleOptions sampleHost)
        (start (treeWith pathA) UdpServer.new) seeded ∧
      Published PageHost.plain seeded.tdb sampleLink ∧
      FileHandler.handle PageHost.plain sampleLink seeded.tdb =
        .refused .badRequest ∧
      ¬ Resolves PageHost.plain seeded.tdb sampleLink
        (FileHandler.handle PageHost.plain sampleLink seeded.tdb)
        Torrent.path := by
  have hfound :
      (seeded.tdb.lookup sampleDesc.infoHashV1.val).isSome = true := by
    rfl
  obtain ⟨t, ht⟩ := Option.isSome_iff_exists.mp hfound
  have hwell := wellFormed_reachable reachable_seeded
  have hpublished : Published PageHost.plain seeded.tdb sampleLink := by
    have hkind : (seeded.tdb.lookup sampleDesc.infoHashV1.val).map
        (fun t => t.infoHash.kind) = some .sha1 := by
      rfl
    rw [ht] at hkind
    refine ⟨_, t, ht, ?_⟩
    rw [StatHandler.link, hwell.key_of_sha1 ht (Option.some.inj hkind)]
    rfl
  have hdecode : PageHost.plain.base16Decode
      (queryGet (ascii "info_hash") sampleLink) = sampleDesc.infoHashV1.val :=
    hexDecode_hexEncode _
  have hrefused : FileHandler.handle PageHost.plain sampleLink seeded.tdb =
      .refused .badRequest := by
    rw [FileHandler.handle, hdecode]
    exact if_pos (isValidHashSize_wrap32 (Or.inl rfl))
  refine ⟨reachable_seeded, hpublished, hrefused, ?_⟩
  rw [resolves_file_iff hwell]
  exact fun h => h.1 hpublished

end Reachable

end Hefur
