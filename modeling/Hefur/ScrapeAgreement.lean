import Hefur.Tracker

/-!
# The scrape of the UDP tracker

A UDP scrape reply carries no hashes: the client reads its entries in the order
of its question.  `LinesUp` says that this reading is right, and that it gives
the numbers of the HTTP scrape.

`scrape` of the database skips the hashes it does not know, so the entries
behind an unknown hash move forward.  The main result is
`scrape_linesUp_iff`: the reply lines up exactly if all hashes are known and
fit into the buffer of the server.
-/

namespace Hefur
namespace UdpServer

open Bytes
open Tracker (pathA treeWith sampleClient sampleDesc sampleHost sampleOptions
  seeded reachable_seeded)

/-- The numbers of one torrent. -/
structure Counters where
  seeders : UInt32
  completed : UInt32
  leechers : UInt32
deriving DecidableEq

section Readers

/-- The hashes that a scrape datagram carries. -/
def Datagram.hashes (d : Datagram) : List (Block 20) :=
  (List.range ((d.bytes.length - 16) / 20)).map fun i =>
    peek (16 + i * 20) 20 d.bytes

/-- The numbers of the torrent stored under `h`, zeros if there is none. -/
def counters (db : TorrentDb) (h : Block 20) : Counters :=
  match db.lookup h.val with
  | some t => ⟨t.seeders, t.completed, t.leechers⟩
  | none => ⟨0, 0, 0⟩

/-- The entry that a client finds at position `i` of a reply. -/
def entry (reply : List UInt8) (i : Nat) : Counters where
  seeders := UInt32.ofNat (readBE (8 + 12 * i) 4 reply)
  completed := UInt32.ofNat (readBE (8 + 12 * i + 4) 4 reply)
  leechers := UInt32.ofNat (readBE (8 + 12 * i + 8) 4 reply)

/-- The item of `h` with these numbers. -/
def Counters.item (c : Counters) (h : Block 20) : ScrapeResponse.Item where
  infoHash := .ofSha1 h
  nleechers := c.leechers
  nseeders := c.seeders
  ndownloaded := c.completed

/-- An HTTP scrape reply reports these numbers for `h`. -/
def Reports (page : Reply) (h : Block 20) (c : Counters) : Prop :=
  ∃ items, page = .body items ∧ ScrapeHandler.fileItems (c.item h) <:+: items

/-- The reply answers the hashes one by one, with the numbers of HTTP. -/
structure LinesUp (opt : Options) (db : TorrentDb)
    (hashes : List (Block 20)) (reply : List UInt8) : Prop where
  length : reply.length = 8 + 12 * hashes.length
  entries : ∀ i h, hashes[i]? = some h → entry reply i = counters db h
  http : ∀ i h query, hashes[i]? = some h → db.lookup h.val ≠ none →
    h.val ∈ queryAll (ascii "info_hash") query →
      Reports (ScrapeHandler.handle opt query db) h (entry reply i)

end Readers

section Entries

theorem length_scrapeResponse
    (transactionId : Block 4) (rp : ScrapeResponse) :
    (scrapeResponse transactionId rp).length = 8 + 12 * rp.items.length := by
  have hbase := length_response (8 + 12 * rp.items.length) 2 transactionId
    (by omega)
  rw [scrapeResponse, length_pokeArray writesSlot_writeTorrent _ (by omega),
    hbase]

theorem ofBE_word (w : UInt32) :
    UInt32.ofNat (ofBE (toBE 4 w.toNat).val) = w := by
  rw [ofBE_toBE (by have := w.toNat_lt; omega), UInt32.ofNat_toNat]

/-- A slot of the reply holds the three numbers of its item. -/
theorem peek_writeTorrent {off : Nat} (item : ScrapeResponse.Item)
    {m : List UInt8} (hin : off + 12 ≤ m.length) :
    (peek (off + 0) 4 (writeTorrent off item m)).val =
        (toBE 4 item.nseeders.toNat).val ∧
      (peek (off + 4) 4 (writeTorrent off item m)).val =
        (toBE 4 item.ndownloaded.toNat).val ∧
      (peek (off + 8) 4 (writeTorrent off item m)).val =
        (toBE 4 item.nleechers.toNat).val := by
  have hword : ∀ w : UInt32, (toBE 4 w.toNat).val.length = 4 :=
    fun w => (toBE 4 w.toNat).property
  have hseeders :
      (poke off (toBE 4 item.nseeders.toNat).val m).length = m.length :=
    length_poke_block rfl (by omega)
  have hleechers : (poke (off + 8) (toBE 4 item.nleechers.toNat).val
      (poke off (toBE 4 item.nseeders.toNat).val m)).length = m.length :=
    length_poke_block hseeders (by omega)
  refine ⟨?_, ?_, ?_⟩
  · rw [writeTorrent, Nat.add_zero,
      peek_poke_before (by omega) (by rw [hword, hleechers]; omega),
      peek_poke_before (by omega) (by rw [hword, hseeders]; omega),
      peek_poke_same (hword _) (by omega)]
  · rw [writeTorrent, peek_poke_same (hword _) (by omega)]
  · rw [writeTorrent,
      peek_poke_after (by rw [hword]) (by rw [hword, hleechers]; omega),
      peek_poke_same (hword _) (by omega)]

/-- The entry at a position is that of the item at this position. -/
theorem entry_scrapeResponse
    (transactionId : Block 4) {rp : ScrapeResponse} {i : Nat}
    {c : Counters} {h : Block 20} (hitem : rp.items[i]? = some (c.item h)) :
    entry (scrapeResponse transactionId rp) i = c := by
  have hin : 8 + 12 * rp.items.length ≤
      (response (8 + 12 * rp.items.length) 2 transactionId).length :=
    le_of_eq (length_response _ _ _ (by omega)).symm
  have hseeders := peek_pokeArray_slot writesSlot_writeTorrent (by omega)
    (fun item _ hm => (peek_writeTorrent item hm).1) rp.items hitem hin
  have hcompleted := peek_pokeArray_slot writesSlot_writeTorrent (by omega)
    (fun item _ hm => (peek_writeTorrent item hm).2.1) rp.items hitem hin
  have hleechers := peek_pokeArray_slot writesSlot_writeTorrent (by omega)
    (fun item _ hm => (peek_writeTorrent item hm).2.2) rp.items hitem hin
  rw [entry, readBE, readBE, readBE, scrapeResponse, hcompleted, hleechers,
    ← Nat.add_zero (8 + 12 * i), hseeders]
  simp only [ofBE_word, Counters.item]

end Entries

section Items

variable {opt : Options} {db : TorrentDb} {d : Datagram}

/-- The server reads the hashes that fit into its buffer. -/
theorem infoHashs_scrapeRequest (d : Datagram) :
    (scrapeRequest d.filled d.size).infoHashs =
      (d.hashes.take 204).map .ofSha1 := by
  have hsize := d.size_eq
  have hcount : (d.size - 16) / 20 =
      min 204 ((d.bytes.length - 16) / 20) := by
    omega
  rw [scrapeRequest, Datagram.hashes, ← List.map_take, List.take_range,
    List.map_map, hcount]
  apply List.map_congr_left
  intro i hi
  rw [List.mem_range] at hi
  rw [Function.comp_apply, peek_filled (by omega) (by omega)]

/-- The item of a known hash carries its counters. -/
theorem scrapeItem_known {h : Block 20} (hknown : db.lookup h.val ≠ none) :
    db.scrapeItem (.ofSha1 h) = some ((counters db h).item h) := by
  obtain ⟨t, ht⟩ := Option.ne_none_iff_exists'.mp hknown
  rw [TorrentDb.scrapeItem, InfoHash.bytes_ofSha1, counters, ht]
  rfl

theorem isSome_scrapeItem_iff {h : Block 20} :
    (db.scrapeItem (.ofSha1 h)).isSome ↔ db.lookup h.val ≠ none := by
  rw [TorrentDb.scrapeItem, InfoHash.bytes_ofSha1, Option.isSome_map,
    Option.isSome_iff_ne_none]

/-- With all hashes known there is one item for each of them. -/
theorem items_of_known {hashes : List (Block 20)}
    (hknown : ∀ h ∈ hashes, db.lookup h.val ≠ none) :
    (hashes.map InfoHash.ofSha1).filterMap db.scrapeItem =
      hashes.map fun h => (counters db h).item h := by
  rw [List.filterMap_map]
  exact List.filterMap_eq_map_iff_forall_eq_some.mpr
    fun h hh => scrapeItem_known (hknown h hh)

/-- There are as many items as hashes only if all hashes are known. -/
theorem known_of_length_items {hashes : List (Block 20)}
    (hlength : ((hashes.map InfoHash.ofSha1).filterMap db.scrapeItem).length =
      hashes.length) :
    ∀ h ∈ hashes, db.lookup h.val ≠ none := by
  rw [List.filterMap_map, List.filterMap_length_eq_length] at hlength
  intro h hh
  exact isSome_scrapeItem_iff.mp (hlength h hh)

/-- HTTP reports the counters of a known hash. -/
theorem reports_counters {h : Block 20} {query : Params}
    (hknown : db.lookup h.val ≠ none)
    (hquery : h.val ∈ queryAll (ascii "info_hash") query) :
    Reports (ScrapeHandler.handle opt query db) h (counters db h) := by
  have hasked : InfoHash.ofSha1 h ∈ (ScrapeHandler.request query).infoHashs :=
    List.mem_filterMap.mpr ⟨h.val, hquery, dif_pos h.property⟩
  have hitem : (counters db h).item h ∈
      (db.scrape opt (ScrapeHandler.request query)).items :=
    List.mem_filterMap.mpr ⟨.ofSha1 h, hasked, scrapeItem_known hknown⟩
  obtain ⟨before, after, hsplit⟩ := List.append_of_mem hitem
  have hfile : ScrapeHandler.fileItems ((counters db h).item h) <:+:
      (db.scrape opt (ScrapeHandler.request query)).items.flatMap
        ScrapeHandler.fileItems := by
    rw [hsplit, List.flatMap_append, List.flatMap_cons, ← List.append_assoc]
    exact List.infix_append _ _ _
  exact ⟨_, rfl, hfile.trans (List.infix_append _ _ _)⟩

/-- The reply lines up exactly if it has an entry for every hash. -/
theorem linesUp_iff (transactionId : Block 4) :
    LinesUp opt db d.hashes
        (scrapeResponse transactionId
          (db.scrape opt (scrapeRequest d.filled d.size))) ↔
      (∀ h ∈ d.hashes, db.lookup h.val ≠ none) ∧ d.hashes.length ≤ 204 := by
  have hitems : (db.scrape opt (scrapeRequest d.filled d.size)).items =
      ((d.hashes.take 204).map InfoHash.ofSha1).filterMap db.scrapeItem := by
    rw [TorrentDb.scrape, infoHashs_scrapeRequest]
  constructor
  · intro hlines
    have hlength := hlines.length
    rw [length_scrapeResponse, hitems] at hlength
    have hfiltered := List.length_filterMap_le db.scrapeItem
      ((d.hashes.take 204).map InfoHash.ofSha1)
    rw [List.length_map, List.length_take] at hfiltered
    have hfits : d.hashes.length ≤ 204 := by omega
    rw [List.take_of_length_le hfits] at hlength
    exact ⟨known_of_length_items (by omega), hfits⟩
  · rintro ⟨hknown, hfits⟩
    rw [List.take_of_length_le hfits, items_of_known hknown] at hitems
    have hentry : ∀ i h, d.hashes[i]? = some h →
        entry (scrapeResponse transactionId
          (db.scrape opt (scrapeRequest d.filled d.size))) i =
            counters db h := by
      intro i h hi
      apply entry_scrapeResponse (h := h)
      rw [hitems, List.getElem?_map, hi]
      rfl
    refine ⟨?_, hentry, ?_⟩
    · rw [length_scrapeResponse, hitems, List.length_map]
    · intro i h query hi hlookup hquery
      rw [hentry i h hi]
      exact reports_counters hlookup hquery

end Items

section Agreement

variable {s : UdpServer} {d : Datagram}

/-- A scrape with an accepted id is answered, if there is memory. -/
theorem receiveDatagram_scrape (opt : Options) (db : TorrentDb)
    (hlong : 16 ≤ d.bytes.length) (haction : d.action = 2)
    (haccepted : Accepted s d) :
    s.receiveDatagram opt d db =
      (s.push d.alloc d.addr
        (scrapeResponse (transactionId d.filled)
          (db.scrape opt (scrapeRequest d.filled d.size))), db) := by
  have hsize := d.size_eq
  rw [receiveDatagram_of_scrape opt s db (by omega) haction, handleScrape,
    if_neg]
  · rfl
  · rw [not_or, connectionIdField_filled (by omega), not_not,
      checkConnectionId_iff]
    exact ⟨by omega, haccepted⟩

/--
**When a UDP scrape lines up.**  The reply to a scrape with an accepted id has
one right entry per requested hash exactly if every requested hash is known and
the datagram asks for at most 204 hashes.
-/
theorem scrape_linesUp_iff (opt : Options) (db : TorrentDb)
    (hlong : 16 ≤ d.bytes.length) (haction : d.action = 2)
    (haccepted : Accepted s d) :
    ∃ reply, s.receiveDatagram opt d db =
        (s.push d.alloc d.addr reply, db) ∧
      (LinesUp opt db d.hashes reply ↔
        (∀ h ∈ d.hashes, db.lookup h.val ≠ none) ∧
          d.hashes.length ≤ 204) :=
  ⟨_, receiveDatagram_scrape opt db hlong haction haccepted, linesUp_iff _⟩

/-- A scrape with the connection id zero. -/
def scrapeDatagram (hashes : List (Block 20)) : Datagram where
  now := 0
  bytes :=
    List.replicate 8 0 ++ [0, 0, 0, 2] ++ ascii "rqst" ++
      hashes.flatMap Subtype.val
  addr := sampleClient
  buffer := zeros 4096
  raw := zeros 18
  alloc := true

/-- A scrape of the sample torrent alone. -/
theorem scrape_linesUp_iff_sample :
    let d := scrapeDatagram [sampleDesc.infoHashV1]
    ∃ reply, seeded.udp.receiveDatagram sampleOptions d seeded.tdb =
        (seeded.udp.push true sampleClient reply, seeded.tdb) ∧
      LinesUp sampleOptions seeded.tdb d.hashes reply := by
  intro d
  have haccepted : Accepted seeded.udp d := by decide
  obtain ⟨reply, hstep, hlines⟩ := scrape_linesUp_iff sampleOptions
    seeded.tdb (by decide) (by decide) haccepted
  exact ⟨reply, hstep, hlines.mpr (by decide)⟩

/--
Asked for an unknown hash and then for the sample torrent, the server sends one
entry, and the seeder stands where the client looks for the unknown hash.
-/
theorem linesUp_false_of_unknown :
    let d := scrapeDatagram [zeros 20, sampleDesc.infoHashV1]
    Runs.Reachable (Tracker.step sampleOptions sampleHost)
        (Tracker.start (treeWith pathA) new) seeded ∧
      16 ≤ d.bytes.length ∧ d.action = 2 ∧ Accepted seeded.udp d ∧
      ∃ reply,
        seeded.udp.receiveDatagram sampleOptions d seeded.tdb =
          ({ seeded.udp with sbufs := [⟨d.addr, reply⟩] }, seeded.tdb) ∧
        entry reply 0 = ⟨1, 0, 0⟩ ∧
        counters seeded.tdb (zeros 20) = ⟨0, 0, 0⟩ ∧
        ¬ LinesUp sampleOptions seeded.tdb d.hashes reply := by
  intro d
  have haccepted : Accepted seeded.udp d := by decide
  have hstep := receiveDatagram_scrape sampleOptions seeded.tdb
    (by decide) (by decide) haccepted
  have hitem : (seeded.tdb.scrape sampleOptions
      (scrapeRequest d.filled d.size)).items[0]? =
        some (Counters.item ⟨1, 0, 0⟩ sampleDesc.infoHashV1) := by
    rw [TorrentDb.scrape, infoHashs_scrapeRequest]
    decide
  refine ⟨reachable_seeded, by decide, by decide, haccepted, _, hstep,
    entry_scrapeResponse _ hitem, by decide, ?_⟩
  rw [linesUp_iff]
  rintro ⟨hknown, -⟩
  exact hknown (zeros 20) (by decide) (by decide)

end Agreement

end UdpServer
end Hefur
