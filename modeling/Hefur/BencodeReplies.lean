import Hefur.Lib.Bencoding
import Hefur.Tracker

/-!
# Replies in bencode

The encoder emits its items in the order of the calls (`Bencode.encode`).  Each
reply is the encoding of one value (`encode_success`, `encode_failure`,
`encode_fileItems`); the order of the keys is what the handlers make it.

The announce page writes its keys in order.  The scrape page does not: it writes
`flags` before `files`, `incomplete` before `downloaded`, and the hashes in the
order of the request.  `wellFormed_serve_iff` draws the line.
-/

namespace Hefur

open Bytes
open Bencoding (Value)

namespace Bencode

/-- What the encoder emits for a call. -/
def Token.bytes : Token → List UInt8
  | .startDict => [100]
  | .startList => [108]
  | .finish => [101]
  | .pushInt value => 105 :: (decimal value ++ [101])
  | .pushData data => Bencoding.encodeData data

def encode (items : List Token) : List UInt8 :=
  items.flatMap Token.bytes

@[simp] theorem encode_nil : encode [] = [] := by
  rfl

@[simp] theorem encode_cons (item : Token) (items : List Token) :
    encode (item :: items) = item.bytes ++ encode items := by
  rfl

@[simp] theorem encode_append (items items' : List Token) :
    encode (items ++ items') = encode items ++ encode items' :=
  List.flatMap_append

end Bencode

open Bencode (encode)

/-- The body of the reply is one canonical value. -/
def Reply.WellFormed : Reply → Prop
  | .unhandled => False
  | .body items => Bencoding.WellFormed (encode items)

theorem Reply.WellFormed.handled {reply : Reply} (h : reply.WellFormed) :
    reply ≠ .unhandled := by
  rintro rfl
  exact h

namespace AnnounceHandler

section Values

def failureValue (reason : Text) : Value :=
  .dict [(ascii "failure reason", .data reason)]

def peerValue (net : Inet) (addr : Address) : Value :=
  .dict [(ascii "ip", .data (addr.ipStr net)),
    (ascii "port", .int addr.port.toNat)]

def successValue (net : Inet) (compact : Bool) (rp : AnnounceResponse) :
    Value :=
  .dict ((ascii "interval", .int rp.interval.toNat) ::
    if compact then
      [(ascii "peers", .data (rp.addrs.flatMap compact4)),
        (ascii "peers6", .data (rp.addrs.flatMap compact6))]
    else [(ascii "peers", .list (rp.addrs.map (peerValue net)))])

theorem encode_failure (reason : Text) :
    encode (failure reason) = (failureValue reason).encode := by
  simp [failure, failureValue, Value.encode, Bencoding.encodeEntries,
    Bencode.Token.bytes]

theorem encode_peerItems (net : Inet) (addrs : List Address) :
    encode (addrs.flatMap (peerItems net)) =
      Bencoding.encodeItems (addrs.map (peerValue net)) := by
  induction addrs with
  | nil =>
      rfl
  | cons addr addrs ih =>
      rw [List.flatMap_cons, Bencode.encode_append, ih, List.map_cons,
        Bencoding.encodeItems]
      simp [peerItems, peerValue, Value.encode, Bencoding.encodeEntries,
        decimalInt, Bencode.Token.bytes]

theorem encode_success (net : Inet) (compact : Bool)
    (rp : AnnounceResponse) :
    encode (success net compact rp) =
      (successValue net compact rp).encode := by
  cases compact with
  | true =>
      simp [success, successValue, Value.encode, Bencoding.encodeEntries,
        decimalInt, Bencode.Token.bytes]
  | false =>
      simp [success, successValue, Value.encode, Bencoding.encodeEntries,
        decimalInt, Bencode.Token.bytes, encode_peerItems]

theorem canonical_failureValue (reason : Text) :
    (failureValue reason).Canonical := by
  apply Value.Canonical.dict
  · exact List.pairwise_singleton _ _
  · intro entry hentry
    rw [List.mem_singleton.mp hentry]
    exact .data reason

theorem canonical_peerValue (net : Inet) (addr : Address) :
    (peerValue net addr).Canonical := by
  apply Value.Canonical.dict
  · exact List.pairwise_pair.mpr (show ascii "ip" < ascii "port" by decide)
  · intro entry hentry
    simp only [List.mem_cons, List.not_mem_nil, or_false] at hentry
    rcases hentry with rfl | rfl
    · exact .data _
    · exact .int _

theorem canonical_successValue (net : Inet) (compact : Bool)
    (rp : AnnounceResponse) :
    (successValue net compact rp).Canonical := by
  apply Value.Canonical.dict
  · cases compact with
    | true =>
        show [ascii "interval", ascii "peers", ascii "peers6"].Pairwise (· < ·)
        decide
    | false =>
        show [ascii "interval", ascii "peers"].Pairwise (· < ·)
        decide
  · intro entry hentry
    rcases List.mem_cons.mp hentry with rfl | hentry
    · exact .int _
    · cases compact with
      | true =>
          simp only [if_true, List.mem_cons, List.not_mem_nil,
            or_false] at hentry
          rcases hentry with rfl | rfl
          · exact .data _
          · exact .data _
      | false =>
          simp only [Bool.false_eq_true, if_false, List.mem_cons,
            List.not_mem_nil, or_false] at hentry
          subst hentry
          apply Value.Canonical.list
          intro v hv
          obtain ⟨addr, -, rfl⟩ := List.mem_map.mp hv
          exact canonical_peerValue net addr

/-- An announce is answered well formed, unless it is not handled at all. -/
theorem wellFormed_handle_iff (opt : Options) (net : Inet) (now : Int)
    (raw : Block 18) (remoteAddr : Sockaddr) (query : Params)
    (db : TorrentDb) :
    (handle opt net now raw remoteAddr query db).1.WellFormed ↔
      (queryGet (ascii "peer_id") query).length = 20 ∧
        (queryGet (ascii "info_hash") query).length = 20 := by
  by_cases hsize : (queryGet (ascii "peer_id") query).length = 20 ∧
      (queryGet (ascii "info_hash") query).length = 20
  · refine ⟨fun _ => hsize, fun _ => ?_⟩
    rw [handle, announce, request, dif_pos hsize]
    dsimp only [Option.map_some]
    split
    · exact ⟨_, canonical_failureValue _, encode_failure _⟩
    · exact ⟨_, canonical_successValue _ _ _, encode_success _ _ _⟩
  · refine ⟨fun h => ?_, fun h => (hsize h).elim⟩
    rw [handle, announce, request, dif_neg hsize] at h
    exact h.elim

end Values

end AnnounceHandler

namespace ScrapeHandler

section Values

def fileEntry (item : ScrapeResponse.Item) : List UInt8 × Value :=
  (item.infoHash.bytes32.val.take 20,
    .dict [(ascii "complete", .int item.nseeders.toNat),
      (ascii "incomplete", .int item.nleechers.toNat),
      (ascii "downloaded", .int item.ndownloaded.toNat)])

def scrapeValue (rp : ScrapeResponse) : Value :=
  .dict [(ascii "flags",
      .dict [(ascii "min_request_interval", .int rp.interval.toNat)]),
    (ascii "files", .dict (rp.items.map fileEntry))]

theorem encode_fileItems (items : List ScrapeResponse.Item) :
    encode (items.flatMap fileItems) =
      Bencoding.encodeEntries (items.map fileEntry) := by
  induction items with
  | nil =>
      rfl
  | cons item items ih =>
      rw [List.flatMap_cons, Bencode.encode_append, ih, List.map_cons,
        fileEntry, Bencoding.encodeEntries]
      simp [fileItems, Value.encode, Bencoding.encodeEntries,
        decimalInt, Bencode.Token.bytes]

/-- The reply is one value, that of the scrape response. -/
theorem handle_eq_body (opt : Options) (query : Params) (db : TorrentDb) :
    ∃ items, handle opt query db = .body items ∧
      encode items = (scrapeValue (db.scrape opt (request query))).encode := by
  refine ⟨_, rfl, ?_⟩
  simp [scrapeValue, Value.encode, Bencoding.encodeEntries,
    decimalInt, Bencode.Token.bytes, encode_fileItems]

/-- The keys of the outer dictionary are never in order. -/
theorem not_wellFormed_handle (opt : Options) (query : Params)
    (db : TorrentDb) : ¬ (handle opt query db).WellFormed := by
  obtain ⟨items, hbody, hitems⟩ := handle_eq_body opt query db
  rw [hbody, Reply.WellFormed, hitems, Bencoding.wellFormed_encode_iff]
  intro hcanonical
  cases hcanonical with
  | dict hkeys _ =>
      have hsorted : ascii "flags" < ascii "files" :=
        List.pairwise_pair.mp hkeys
      revert hsorted
      decide

end Values

end ScrapeHandler

namespace Tracker

section Replies

variable {opt : Options} {host : Host} {remoteAddr : Sockaddr}
variable {rq : HttpRequest} {now : Int} {raw : Block 18} {tdb : TorrentDb}

theorem serve_announce (hlocation : rq.location = ascii "/announce") :
    serve opt host remoteAddr rq now raw tdb =
      AnnounceHandler.handle opt host.net now raw remoteAddr rq.query tdb :=
  if_pos hlocation

/-- No other page writes a well-formed body. -/
theorem not_wellFormed_serve (hlocation : rq.location ≠ ascii "/announce") :
    ¬ (serve opt host remoteAddr rq now raw tdb).1.WellFormed := by
  rw [serve, if_neg hlocation]
  split
  · exact ScrapeHandler.not_wellFormed_handle opt rq.query tdb
  · exact not_false

/-- An announce that is handled had the right sizes. -/
theorem sizes_of_handled {query : Params}
    (hhandled : (AnnounceHandler.handle opt host.net now raw remoteAddr query
      tdb).1 ≠ .unhandled) :
    (queryGet (ascii "peer_id") query).length = 20 ∧
      (queryGet (ascii "info_hash") query).length = 20 := by
  by_contra hsize
  apply hhandled
  rw [AnnounceHandler.handle, AnnounceHandler.announce,
    AnnounceHandler.request, dif_neg hsize]
  rfl

end Replies

/--
**Well-formed replies.**  The reply to an HTTP request is one bencoded value
with sorted dictionaries exactly if the request is an announce whose peer id
and info hash have the right size, that is an announce that is handled.
-/
theorem wellFormed_serve_iff (opt : Options) (host : Host)
    (remoteAddr : Sockaddr) (rq : HttpRequest) (now : Int) (raw : Block 18)
    (tdb : TorrentDb) :
    ((serve opt host remoteAddr rq now raw tdb).1.WellFormed ↔
      rq.location = ascii "/announce" ∧
        (queryGet (ascii "peer_id") rq.query).length = 20 ∧
        (queryGet (ascii "info_hash") rq.query).length = 20) ∧
    ((serve opt host remoteAddr rq now raw tdb).1.WellFormed ↔
      rq.location = ascii "/announce" ∧
        (serve opt host remoteAddr rq now raw tdb).1 ≠ .unhandled) := by
  by_cases hlocation : rq.location = ascii "/announce"
  · rw [serve_announce hlocation, AnnounceHandler.wellFormed_handle_iff]
    refine ⟨by simp [hlocation], ?_⟩
    constructor
    · intro hsize
      exact ⟨hlocation, Reply.WellFormed.handled
        ((AnnounceHandler.wellFormed_handle_iff opt host.net now raw
          remoteAddr rq.query tdb).mpr hsize)⟩
    · rintro ⟨-, hhandled⟩
      exact sizes_of_handled hhandled
  · have hnot : ¬ (serve opt host remoteAddr rq now raw tdb).1.WellFormed :=
      not_wellFormed_serve hlocation
    simp [hnot, hlocation]

/-- A scrape of the sample torrent. -/
def sampleScrape : HttpRequest where
  location := ascii "/scrape"
  query := [(ascii "info_hash", sampleDesc.infoHashV1.val)]
  headers := []

/-- The reply to the scrape of one torrent is a body, but not well formed. -/
theorem scrape_reply_not_wellFormed :
    (serve sampleOptions sampleHost sampleClient sampleScrape 0 (zeros 18)
        seeded.tdb).1 ≠ .unhandled ∧
      ¬ (serve sampleOptions sampleHost sampleClient sampleScrape 0 (zeros 18)
        seeded.tdb).1.WellFormed := by
  constructor
  · intro hunhandled
    cases hunhandled
  · exact not_wellFormed_serve (by decide)

end Tracker

end Hefur
