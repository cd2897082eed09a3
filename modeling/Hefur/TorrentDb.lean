import Hefur.TorrentInvariant

/-!
# The torrent database

The model of `torrent-db.hh` and `torrent-db.cc`.

`torrents_` is a trie of torrents under the bytes that `torrentKey` gives, that
is the first 20 bytes of the full key.  Lookups and removals bring their own
bytes.  `tdb` itself is never null while the servers run.

`wellFormed_*`: the operations keep every torrent under its own `torrentKey`,
and every stored hash keeps the type it was made with.
-/

namespace Hefur

open Bytes

namespace Torrent

/-- What an announce or a cleanup never changes. -/
def identity (t : Torrent) : InfoHash × Text × Text × UInt64 :=
  (t.infoHash, t.name, t.path, t.length)

section Identity

theorem identity_decrement (left : UInt64) (t : Torrent) :
    (t.decrement left).identity = t.identity := by
  unfold decrement; split <;> rfl

theorem identity_increment (left : UInt64) (t : Torrent) :
    (t.increment left).identity = t.identity := by
  unfold increment; split <;> rfl

theorem identity_removePeer (peer : Ptr) (t : Torrent) :
    (t.removePeer peer).identity = t.identity :=
  identity_decrement _ t

theorem identity_evictFront (opt : Options) (t : Torrent) :
    (t.evictFront opt).identity = t.identity := by
  unfold evictFront
  split
  · split
    · rfl
    · exact identity_removePeer _ t
  · rfl

theorem identity_createOrUpdatePeer
    (opt : Options) (now : Int) (request : AnnounceRequest)
    (peer : Option Ptr) (t : Torrent) :
    (t.createOrUpdatePeer opt now request peer).2.identity =
      t.identity := by
  cases peer with
  | none =>
      rw [createOrUpdatePeer_none]
      exact identity_increment _ t
  | some p =>
      rw [createOrUpdatePeer_some]
      exact (identity_increment _ _).trans (identity_decrement _ t)

theorem identity_announce
    (opt : Options) (now : Int) (request : AnnounceRequest) (t : Torrent) :
    (t.announce opt now request).2.identity = t.identity := by
  by_cases hevent : request.event = .stopped
  · obtain ⟨c, hstate⟩ := announce_state_stopped opt now hevent t
    rw [hstate]
    split
    · exact identity_removePeer _ _
    · rfl
  · obtain ⟨c, hstate⟩ := announce_state opt now hevent t
    rw [hstate, identity_evictFront, identity_createOrUpdatePeer]
    rfl

theorem identity_cleanup (now : Int) (t : Torrent) :
    (t.cleanup now).identity = t.identity :=
  cleanup_induction (P := fun s => s.identity = t.identity)
    (fun s p _ hs => (identity_removePeer p s).trans hs) rfl

end Identity

end Torrent

/-- `torrents_`. -/
abbrev TorrentDb := ExactMap (List UInt8) Torrent

namespace TorrentDb

/-- `torrent->key().substr(0, 20)`. -/
def torrentKey (torrent : Torrent) : List UInt8 :=
  torrent.key.take 20

def notFound : AnnounceResponse where
  error := true
  errorMsg := ascii "torrent not found"

def announce (opt : Options) (now : Int) (request : AnnounceRequest)
    (db : TorrentDb) : AnnounceResponse × TorrentDb :=
  match db.lookup request.infoHash.bytes with
  | none => (notFound, db)
  | some torrent =>
      let (response, torrent) := torrent.announce opt now request
      ({ response with interval := opt.interval },
        ExactMap.modify request.infoHash.bytes (fun _ => torrent) db)

/-- The item of one requested hash, when its torrent is found. -/
def scrapeItem (db : TorrentDb) (infoHash : InfoHash) :
    Option ScrapeResponse.Item :=
  (db.lookup infoHash.bytes).map fun torrent =>
    { infoHash := infoHash
      nleechers := torrent.leechers
      nseeders := torrent.seeders
      ndownloaded := torrent.completed }

/-- `scrape`: hashes that are not found are skipped. -/
def scrape (opt : Options) (request : ScrapeRequest) (db : TorrentDb) :
    ScrapeResponse where
  error := false
  errorMsg := []
  interval := opt.scrapeInterval * 60
  items := request.infoHashs.filterMap (scrapeItem db)

/-- `cleanup`: every torrent reads the clock for itself. -/
def cleanup (now : List UInt8 → Int) (db : TorrentDb) : TorrentDb :=
  ExactMap.mapValues (fun k torrent => torrent.cleanup (now k)) db

/-- `addTorrent`: the torrent is dropped if its key is present. -/
def addTorrent (torrent : Torrent) (db : TorrentDb) : TorrentDb :=
  ExactMap.insertNew (torrentKey torrent) torrent db

def removeTorrent (infoHash : List UInt8) (db : TorrentDb) : TorrentDb :=
  db.erase infoHash

section Lookup

variable {db : TorrentDb}

theorem announce_of_none
    {request : AnnounceRequest} (opt : Options) (now : Int)
    (hnone : db.lookup request.infoHash.bytes = none) :
    db.announce opt now request = (notFound, db) := by
  rw [announce, hnone]

theorem announce_of_some
    {request : AnnounceRequest} {torrent : Torrent}
    (opt : Options) (now : Int)
    (hsome : db.lookup request.infoHash.bytes = some torrent) :
    db.announce opt now request =
      ({ (torrent.announce opt now request).1 with interval := opt.interval },
        ExactMap.modify request.infoHash.bytes
          (fun _ => (torrent.announce opt now request).2) db) := by
  rw [announce, hsome]

/-- An announce changes the torrent under the announced hash, no other. -/
theorem lookup_announce
    (opt : Options) (now : Int) (request : AnnounceRequest) (k : List UInt8) :
    (db.announce opt now request).2.lookup k =
      if k = request.infoHash.bytes then
        (db.lookup k).map fun torrent => (torrent.announce opt now request).2
      else db.lookup k := by
  cases hfound : db.lookup request.infoHash.bytes with
  | none =>
      rw [announce_of_none opt now hfound]
      split
      · rename_i hk
        rw [hk, hfound]
        rfl
      · rfl
  | some torrent =>
      rw [announce_of_some opt now hfound, ExactMap.lookup_modify]
      split
      · rename_i hk
        rw [hk, hfound]
        rfl
      · rfl

theorem lookup_cleanup (now : List UInt8 → Int) (k : List UInt8) :
    (db.cleanup now).lookup k =
      (db.lookup k).map fun torrent => torrent.cleanup (now k) :=
  ExactMap.lookup_mapValues _ db k

end Lookup

section WellFormed

/-- Every torrent is stored under its own key and has a typed hash. -/
def WellFormed (db : TorrentDb) : Prop :=
  ∀ k t, db.lookup k = some t →
    torrentKey t = k ∧ t.infoHash.kind ≠ .none

theorem WellFormed.length_key {db : TorrentDb} (h : WellFormed db)
    {k : List UInt8} {t : Torrent} (hk : db.lookup k = some t) :
    k.length = 20 := by
  obtain ⟨hkey, hkind⟩ := h k t hk
  rw [← hkey, torrentKey, List.length_take, Torrent.key,
    InfoHash.length_bytes]
  revert hkind
  cases t.infoHash.kind <;> decide

/-- A key of a full v1 hash is its torrent's whole key. -/
theorem WellFormed.key_of_sha1 {db : TorrentDb} (h : WellFormed db)
    {k : List UInt8} {t : Torrent} (hk : db.lookup k = some t)
    (hkind : t.infoHash.kind = .sha1) :
    t.key = k := by
  have hlen : t.key.length = 20 := by
    rw [Torrent.key, InfoHash.length_bytes, hkind]
    rfl
  rw [← (h k t hk).1, torrentKey, List.take_of_length_le (by omega)]

/-- No torrent is stored under the bytes of an untyped hash. -/
theorem WellFormed.lookup_nil {db : TorrentDb} (h : WellFormed db) :
    db.lookup [] = none := by
  cases hnil : db.lookup [] with
  | none =>
      rfl
  | some t =>
      have hlen := h.length_key hnil
      simp at hlen

theorem wellFormed_empty : WellFormed (∅ : TorrentDb) := by
  intro k t hk
  simp at hk

/-- Replacing torrents by themselves with other peers keeps a database. -/
theorem WellFormed.mapped {db db' : TorrentDb} (h : WellFormed db)
    (hsame : ∀ k t', db'.lookup k = some t' →
      ∃ t, db.lookup k = some t ∧ t'.identity = t.identity) :
    WellFormed db' := by
  intro k t' hk
  obtain ⟨t, ht, hid⟩ := hsame k t' hk
  have hhash : t'.infoHash = t.infoHash := congrArg Prod.fst hid
  rw [torrentKey, Torrent.key, hhash]
  exact h k t ht

theorem wellFormed_announce {db : TorrentDb} (h : WellFormed db)
    (opt : Options) (now : Int) (request : AnnounceRequest) :
    WellFormed (db.announce opt now request).2 := by
  apply h.mapped
  intro k t' hk
  rw [lookup_announce] at hk
  split at hk
  · obtain ⟨t, ht, rfl⟩ := Option.map_eq_some_iff.mp hk
    exact ⟨t, ht, Torrent.identity_announce opt now request t⟩
  · exact ⟨t', hk, rfl⟩

theorem wellFormed_cleanup {db : TorrentDb} (h : WellFormed db)
    (now : List UInt8 → Int) : WellFormed (db.cleanup now) := by
  apply h.mapped
  intro k t' hk
  rw [lookup_cleanup] at hk
  obtain ⟨t, ht, rfl⟩ := Option.map_eq_some_iff.mp hk
  exact ⟨t, ht, Torrent.identity_cleanup (now k) t⟩

theorem wellFormed_addTorrent {db : TorrentDb} (h : WellFormed db)
    {torrent : Torrent} (hkind : torrent.infoHash.kind ≠ .none) :
    WellFormed (db.addTorrent torrent) := by
  intro k t hk
  rw [addTorrent, ExactMap.lookup_insertNew] at hk
  split at hk
  · rename_i hnew
    obtain rfl := Option.some.inj hk
    exact ⟨hnew.1.symm, hkind⟩
  · exact h k t hk

end WellFormed

section All

/-- Every torrent of the database satisfies `P`. -/
def All (P : Torrent → Prop) (db : TorrentDb) : Prop :=
  ∀ k t, db.lookup k = some t → P t

variable {P : Torrent → Prop} {db : TorrentDb}

theorem all_empty : All P (∅ : TorrentDb) := by
  intro k t hk
  simp at hk

theorem All.addTorrent (h : All P db) {torrent : Torrent}
    (hnew : P torrent) : All P (db.addTorrent torrent) := by
  intro k t hk
  rw [TorrentDb.addTorrent, ExactMap.lookup_insertNew] at hk
  split at hk
  · rw [← Option.some.inj hk]
    exact hnew
  · exact h k t hk

theorem All.announce (h : All P db)
    {opt : Options} {now : Int} {request : AnnounceRequest}
    (hannounce : ∀ t, db.lookup request.infoHash.bytes = some t →
      P (t.announce opt now request).2) :
    All P (db.announce opt now request).2 := by
  intro k t' hk
  rw [lookup_announce] at hk
  split at hk
  · rename_i hkey
    obtain ⟨t, ht, rfl⟩ := Option.map_eq_some_iff.mp hk
    exact hannounce t (hkey ▸ ht)
  · exact h k t' hk

theorem All.cleanup (h : All P db) (now : List UInt8 → Int)
    (hcleanup : ∀ t now, P t → P (t.cleanup now)) :
    All P (db.cleanup now) := by
  intro k t' hk
  rw [lookup_cleanup] at hk
  obtain ⟨t, ht, rfl⟩ := Option.map_eq_some_iff.mp hk
  exact hcleanup t (now k) (h k t ht)

end All

end TorrentDb

end Hefur
