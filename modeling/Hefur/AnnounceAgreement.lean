import Hefur.Decimal
import Hefur.Tracker

/-!
# Announces over UDP and over HTTP

Both servers turn an announce into an internal request.  `UdpCarries` and
`HttpCarries` say that a datagram and a query carry the same `AnnounceValues`.

* `announce_typed_agree`: apart from the type of the hash, the two internal
  requests have the same effect and the same answer.
* The UDP server leaves that type unset, and a hash without a type has no
  bytes.  So it refuses every announce, and the two servers agree exactly on
  the torrents that HTTP does not find either (`announce_agree_iff_unknown`).
-/

namespace Hefur

open Bytes
open Tracker (pathA treeWith sampleClient sampleDesc sampleHost sampleOptions
  seeded reachable_seeded)

section Values

/-- What an announce says, whatever carries it. -/
structure AnnounceValues where
  infoHash : Block 20
  peerid : Block 20
  event : AnnounceRequest.Event
  downloaded : Nat
  uploaded : Nat
  left : Nat
  numWant : Int
  port : UInt16
  downloaded_lt : downloaded < 2 ^ 63
  uploaded_lt : uploaded < 2 ^ 63
  left_lt : left < 2 ^ 63
  numWant_ge : -2 ^ 31 ≤ numWant
  numWant_lt : numWant < 2 ^ 31

/-- The internal request with these values. -/
def AnnounceValues.request (v : AnnounceValues) (infoHash : InfoHash)
    (numWant : UInt32) (addr : Address) (skipIpv6 : Bool) :
    AnnounceRequest where
  peerid := v.peerid
  infoHash := infoHash
  numWant := numWant
  event := v.event
  downloaded := UInt64.ofNat v.downloaded
  uploaded := UInt64.ofNat v.uploaded
  left := UInt64.ofNat v.left
  addr := addr
  skipIpv6 := skipIpv6

namespace AnnounceRequest

/-- The number of an event in a datagram. -/
def Event.code : Event → Nat
  | .none => 0
  | .completed => 1
  | .started => 2
  | .stopped => 3

/-- The `event` parameter of a query. -/
def Event.text : Event → Text
  | .none => []
  | .completed => ascii "completed"
  | .started => ascii "started"
  | .stopped => ascii "stopped"

theorem convert_code (event : Event) :
    UdpServer.convert event.code = event := by
  cases event <;> rfl

theorem parseEvent_text (event : Event) : parseEvent event.text = event := by
  cases event <;> decide

end AnnounceRequest

variable {d : UdpServer.Datagram} {query : Params} {v : AnnounceValues}

/-- The fields of an announce datagram that carries `v`. -/
structure UdpCarries (d : UdpServer.Datagram) (v : AnnounceValues) :
    Prop where
  long : 98 ≤ d.bytes.length
  action : d.action = 1
  infoHash : peek 16 20 d.bytes = v.infoHash
  peerid : peek 36 20 d.bytes = v.peerid
  downloaded : UdpServer.readBE 56 8 d.bytes = v.downloaded
  left : UdpServer.readBE 64 8 d.bytes = v.left
  uploaded : UdpServer.readBE 72 8 d.bytes = v.uploaded
  event : UdpServer.readBE 80 4 d.bytes = v.event.code
  numWant : (UdpServer.readBE 92 4 d.bytes : Int) = v.numWant % 2 ^ 32
  port : UdpServer.readBE 96 2 d.bytes = v.port.toNat

/-- The parameters of a query that carries `v`. -/
structure HttpCarries (query : Params) (v : AnnounceValues) : Prop where
  infoHash : queryGet (ascii "info_hash") query = v.infoHash.val
  peerid : queryGet (ascii "peer_id") query = v.peerid.val
  downloaded : queryGet (ascii "downloaded") query = decimal v.downloaded
  uploaded : queryGet (ascii "uploaded") query = decimal v.uploaded
  left : queryGet (ascii "left") query = decimal v.left
  event : queryGet (ascii "event") query = v.event.text
  numWant : query.lookup (ascii "numwant") = some (decimalInt v.numWant)
  port : queryGet (ascii "port") query = decimal v.port.toNat

/-- The internal request of the UDP server for a datagram that carries `v`. -/
theorem announceRequest_of_carries (opt : Options) (hv : UdpCarries d v) :
    UdpServer.announceRequest opt d d.filled =
      v.request (InfoHash.empty.setBytes20 v.infoHash)
        (UInt32.ofInt v.numWant)
        ((if opt.allowProxy then .inet (peek 84 4 d.bytes) 0
          else Address.ofSockaddr d.raw d.addr).setPort v.port) true := by
  have hlong := hv.long
  have hsize := d.size_eq
  have hfield : ∀ off len : Nat, 12 ≤ off → off + len ≤ 98 →
      peek off len d.filled = peek off len d.bytes :=
    fun off len hoff hin => UdpServer.peek_filled (by omega) (Or.inr hoff)
  have hword : ∀ off len : Nat, 12 ≤ off → off + len ≤ 98 →
      UdpServer.readBE off len d.filled = UdpServer.readBE off len d.bytes :=
    fun off len hoff hin => by
      rw [UdpServer.readBE, hfield off len hoff hin, UdpServer.readBE]
  have hwant : UInt32.ofNat (UdpServer.readBE 92 4 d.bytes) =
      UInt32.ofInt v.numWant := by
    rw [UInt32.ofInt, ← hv.numWant, Int.toNat_natCast]
  simp only [UdpServer.announceRequest, AnnounceValues.request,
    hfield 36 20 (by omega) (by omega),
    hfield 16 20 (by omega) (by omega),
    hfield 84 4 (by omega) (by omega),
    hword 56 8 (by omega) (by omega),
    hword 64 8 (by omega) (by omega),
    hword 72 8 (by omega) (by omega),
    hword 80 4 (by omega) (by omega),
    hword 92 4 (by omega) (by omega),
    hword 96 2 (by omega) (by omega),
    hv.infoHash, hv.peerid, hv.downloaded, hv.left, hv.uploaded, hv.event,
    hwant, hv.port, AnnounceRequest.convert_code, UInt16.ofNat_toNat]

/-- The internal request of the HTTP server for a query that carries `v`. -/
theorem request_of_carries (opt : Options) (net : Inet) (raw : Block 18)
    (remoteAddr : Sockaddr) (hv : HttpCarries query v) :
    AnnounceHandler.request opt net raw remoteAddr query =
      some
        (v.request (.ofSha1 v.infoHash)
          (UInt32.ofInt (min v.numWant (toInt32 opt.maxNumwant)))
          ((AnnounceHandler.requestAddr opt net raw remoteAddr
            (queryGet (ascii "ip") query)).setPort v.port) false) := by
  have hsizes : (queryGet (ascii "peer_id") query).length = 20 ∧
      (queryGet (ascii "info_hash") query).length = 20 := by
    rw [hv.peerid, hv.infoHash]
    exact ⟨v.peerid.property, v.infoHash.property⟩
  have hpeerid : (⟨queryGet (ascii "peer_id") query, hsizes.1⟩ : Block 20) =
      v.peerid := Subtype.ext hv.peerid
  have hhash : (⟨queryGet (ascii "info_hash") query, hsizes.2⟩ : Block 20) =
      v.infoHash := Subtype.ext hv.infoHash
  have hwant : AnnounceHandler.numWant opt query =
      UInt32.ofInt (min v.numWant (toInt32 opt.maxNumwant)) := by
    rw [AnnounceHandler.numWant, hv.numWant]
    simp only [atoi_decimalInt v.numWant_ge v.numWant_lt]
  rw [AnnounceHandler.request, dif_pos hsizes, hpeerid, hhash,
    AnnounceHandler.requestOf, hwant, hv.event, hv.downloaded, hv.uploaded,
    hv.left, hv.port, AnnounceRequest.parseEvent_text,
    ofInt_atoll_decimal v.downloaded_lt, ofInt_atoll_decimal v.uploaded_lt,
    ofInt_atoll_decimal v.left_lt, ofInt_atoi_decimal]
  rfl

end Values

section Effects

namespace Torrent

/-- Bounding the number by the maximum changes nothing before the clamp. -/
theorem clampNumWant_min {opt : Options} {want : Int}
    (hlow : -2 ^ 31 ≤ want) (hhigh : want < 2 ^ 31)
    (hmin : opt.minNumwant ≤ opt.maxNumwant)
    (hmax : opt.maxNumwant.toNat < 2 ^ 31) :
    clampNumWant opt (UInt32.ofInt (min want (toInt32 opt.maxNumwant))) =
      clampNumWant opt (UInt32.ofInt want) := by
  have hle : opt.minNumwant.toNat ≤ opt.maxNumwant.toNat :=
    UInt32.le_iff_toNat_le.mp hmin
  have hminInt := toInt32_of_lt (w := opt.minNumwant) (by omega)
  have hmaxInt := toInt32_of_lt hmax
  by_cases hwant : want ≤ toInt32 opt.maxNumwant
  · rw [min_eq_left hwant]
  · have hbound : UInt32.ofInt (toInt32 opt.maxNumwant) = opt.maxNumwant := by
      apply UInt32.toNat_inj.mp
      rw [hmaxInt, UInt32.ofInt, UInt32.toNat_ofNat']
      omega
    rw [min_eq_right (by omega), hbound, clampNumWant, clampNumWant,
      toInt32_ofInt hlow hhigh, if_neg (by omega), if_neg (by omega),
      if_neg (by omega), if_pos (by omega)]

/--
An announcing IPv4 peer gets no IPv6 addresses anyway, and the requested number
of peers only matters after the clamp.
-/
theorem announce_congr (opt : Options) (now : Int) (t : Torrent)
    {request : AnnounceRequest} {numWant : UInt32} {skipIpv6 : Bool}
    (hwant : clampNumWant opt numWant = clampNumWant opt request.numWant)
    (hfamily : request.addr.family = .inet) :
    t.announce opt now
        { request with numWant := numWant, skipIpv6 := skipIpv6 } =
      t.announce opt now request := by
  have hskips : skips
      { request with numWant := numWant, skipIpv6 := skipIpv6 } =
        skips request := by
    funext peer
    simp [skips, hfamily]
  have hcollect : ∀ (want : UInt32) (peers : List Peer)
      (addrs : List Address),
      collectAddrs { request with numWant := numWant, skipIpv6 := skipIpv6 }
          want peers addrs =
        collectAddrs request want peers addrs := by
    intro want peers
    induction peers with
    | nil =>
        intro addrs
        rfl
    | cons peer peers ih =>
        intro addrs
        rw [collectAddrs, collectAddrs, hskips, ih, ih]
  simp only [announce, hwant, hcollect]
  rfl

end Torrent

namespace TorrentDb

theorem announce_congr (opt : Options) (now : Int) (db : TorrentDb)
    {request : AnnounceRequest} {numWant : UInt32} {skipIpv6 : Bool}
    (hwant : Torrent.clampNumWant opt numWant =
      Torrent.clampNumWant opt request.numWant)
    (hfamily : request.addr.family = .inet) :
    db.announce opt now
        { request with numWant := numWant, skipIpv6 := skipIpv6 } =
      db.announce opt now request := by
  simp only [announce, Torrent.announce_congr opt now _ hwant hfamily]

end TorrentDb

/-- The request with the type of its hash set. -/
def AnnounceRequest.typed (request : AnnounceRequest) : AnnounceRequest :=
  { request with infoHash := { request.infoHash with kind := .sha1 } }

variable {d : UdpServer.Datagram} {query : Params} {v : AnnounceValues}

/-- The announcing address of an IPv4 socket. -/
theorem setPort_of_v4 {addr : Address} {src : Block 4} (port : UInt16)
    (hsrc : addr.ip = some (.v4 src)) :
    addr.setPort port = .inet src (htons port) := by
  obtain ⟨word, rfl⟩ := Address.exists_withPort_of_ip hsrc
  rfl

/--
**The two internal requests have the same effect, apart from the type.**
Without `allow-proxy` and with sensible bounds on the number of peers, an
announce from an IPv4 address does over HTTP what it would do over UDP if the
UDP server set the type of the hash.
-/
theorem announce_typed_agree
    {opt : Options} {net : Inet} {src : Block 4} {raw : Block 18}
    {remoteAddr : Sockaddr} (db : TorrentDb)
    (hproxy : opt.allowProxy = false)
    (hmin : opt.minNumwant ≤ opt.maxNumwant)
    (hmax : opt.maxNumwant.toNat < 2 ^ 31)
    (hudp : UdpCarries d v) (hhttp : HttpCarries query v)
    (hsrcUdp : (Address.ofSockaddr d.raw d.addr).ip = some (.v4 src))
    (hsrcHttp : (Address.ofSockaddr raw remoteAddr).ip = some (.v4 src)) :
    AnnounceHandler.announce opt net d.now raw remoteAddr query db =
      some (db.announce opt d.now
        (UdpServer.announceRequest opt d d.filled).typed) := by
  have haddrUdp : (if opt.allowProxy then .inet (peek 84 4 d.bytes) 0
      else Address.ofSockaddr d.raw d.addr) =
        Address.ofSockaddr d.raw d.addr := by
    rw [hproxy]
    rfl
  have haddrHttp : AnnounceHandler.requestAddr opt net raw remoteAddr
      (queryGet (ascii "ip") query) = Address.ofSockaddr raw remoteAddr := by
    simp [AnnounceHandler.requestAddr, hproxy]
  have htyped : (UdpServer.announceRequest opt d d.filled).typed =
      v.request (.ofSha1 v.infoHash) (UInt32.ofInt v.numWant)
        (.inet src (htons v.port)) true := by
    rw [announceRequest_of_carries opt hudp, haddrUdp,
      setPort_of_v4 v.port hsrcUdp]
    rfl
  rw [AnnounceHandler.announce, request_of_carries opt net raw remoteAddr hhttp,
    Option.map_some, haddrHttp, setPort_of_v4 v.port hsrcHttp, htyped]
  apply congrArg some
  exact @TorrentDb.announce_congr opt d.now db
    (v.request (.ofSha1 v.infoHash) (UInt32.ofInt v.numWant)
      (.inet src (htons v.port)) true) _ _
    (Torrent.clampNumWant_min v.numWant_ge v.numWant_lt hmin hmax) rfl

end Effects

section Agreement

/-- How an announce ends for the client. -/
inductive Outcome where
  | refused (message : Text)
  | success (interval : UInt32) (addrs : List Address)

/-- What a UDP reply tells the client. -/
def UdpServer.Shows (data : List UInt8) : Outcome → Prop
  | .refused message => ∃ id, data = errorResponse id message
  | .success interval addrs =>
      ∃ id rp, data = announceResponse id rp ∧
        rp.interval = interval ∧ rp.addrs = addrs

/-- What an HTTP reply tells the client. -/
def AnnounceHandler.Shows (net : Inet) (page : Reply) : Outcome → Prop
  | .refused message => page = .body (failure message)
  | .success interval addrs =>
      ∃ compact rp, page = .body (success net compact rp) ∧
        rp.interval = interval ∧ rp.addrs = addrs

/-- Both servers reach the same database and tell their clients the same. -/
structure Agree (net : Inet) (udp : List UInt8 × TorrentDb)
    (http : Reply × TorrentDb) : Prop where
  tdb : udp.2 = http.2
  outcome : ∃ o, UdpServer.Shows udp.1 o ∧ AnnounceHandler.Shows net http.1 o

namespace UdpServer

variable {s : UdpServer} {d : Datagram} {db : TorrentDb}

/-- The hash of a UDP announce has no bytes. -/
theorem bytes_announceRequest (opt : Options) (d : Datagram)
    (buf : List UInt8) : (announceRequest opt d buf).infoHash.bytes = [] :=
  InfoHash.bytes_of_kind_none rfl

/-- The UDP server refuses every announce. -/
theorem receiveDatagram_announce (opt : Options)
    (hdb : TorrentDb.WellFormed db)
    (hlong : 98 ≤ d.bytes.length) (haction : d.action = 1)
    (haccepted : Accepted s d) :
    s.receiveDatagram opt d db =
      (s.push d.alloc d.addr
        (errorResponse (transactionId d.filled)
          TorrentDb.notFound.errorMsg), db) := by
  have hsize := d.size_eq
  have hnone : db.lookup (announceRequest opt d d.filled).infoHash.bytes =
      none := by
    rw [bytes_announceRequest]
    exact hdb.lookup_nil
  rw [receiveDatagram_of_announce opt s db (by omega) haction, handleAnnounce,
    announce_of_admitted opt db (by omega) haccepted,
    TorrentDb.announce_of_none opt d.now hnone]
  rfl

end UdpServer

namespace AnnounceHandler

variable (opt : Options) (net : Inet) (now : Int) (raw : Block 18)
variable (remoteAddr : Sockaddr)
variable {query : Params} {v : AnnounceValues} {db : TorrentDb}

/-- HTTP refuses the announce of a torrent that is not found. -/
theorem handle_unknown (hhttp : HttpCarries query v)
    (hunknown : db.lookup v.infoHash.val = none) :
    handle opt net now raw remoteAddr query db =
      (.body (failure TorrentDb.notFound.errorMsg), db) := by
  rw [handle, announce, request_of_carries opt net raw remoteAddr hhttp,
    Option.map_some, TorrentDb.announce_of_none opt now]
  · rfl
  · rw [AnnounceValues.request, InfoHash.bytes_ofSha1]
    exact hunknown

/-- HTTP answers the announce of a torrent that is found. -/
theorem handle_known (hhttp : HttpCarries query v)
    {t : Torrent} (hknown : db.lookup v.infoHash.val = some t) :
    ∃ rp, (handle opt net now raw remoteAddr query db).1 =
      .body (success net (query.lookup (ascii "compact")).isSome rp) := by
  have hlookup : ∀ numWant addr skipIpv6,
      db.lookup (v.request (.ofSha1 v.infoHash) numWant addr
        skipIpv6).infoHash.bytes = some t := by
    intro numWant addr skipIpv6
    rw [AnnounceValues.request, InfoHash.bytes_ofSha1]
    exact hknown
  rw [handle, announce, request_of_carries opt net raw remoteAddr hhttp,
    Option.map_some, TorrentDb.announce_of_some opt now (hlookup _ _ _)]
  simp only [Torrent.error_announce, Bool.false_eq_true, if_false]
  exact ⟨_, rfl⟩

end AnnounceHandler

/-- A refusal over UDP and an answer over HTTP are different outcomes. -/
theorem not_agree_of_refused {net : Inet} {id : Block 4} {message : Text}
    {compact : Bool} {rp : AnnounceResponse} {db db' : TorrentDb}
    {page : Reply}
    (hpage : page = .body (AnnounceHandler.success net compact rp)) :
    ¬ Agree net (UdpServer.errorResponse id message, db) (page, db') := by
  rintro ⟨-, outcome, hudp, hhttp⟩
  cases outcome with
  | refused reason =>
      have hbody := Reply.body.inj (hpage.symm.trans hhttp)
      have hkey : some (Bencode.Token.pushData (ascii "interval")) =
          some (.pushData (ascii "failure reason")) :=
        congrArg (fun items => items[1]?) hbody
      revert hkey
      decide
  | success interval addrs =>
      obtain ⟨id', rp', hdata, -, -⟩ := hudp
      have herror := (UdpServer.heads_errorResponse id message).action
      have hannounce := (UdpServer.heads_announceResponse id' rp').action
      rw [← hdata, herror] at hannounce
      omega

/--
**When UDP and HTTP announces agree.**  An announce datagram with an accepted
id and a query with the same values lead to the same database and the same
outcome exactly if no torrent is stored under the announced hash.
-/
theorem announce_agree_iff_unknown
    {opt : Options} {host : Host} {tree : Tree} {udp : UdpServer}
    {σ : Tracker}
    (hσ : Runs.Reachable (Tracker.step opt host) (Tracker.start tree udp) σ)
    {d : UdpServer.Datagram} {query : Params} {v : AnnounceValues}
    (hudp : UdpCarries d v) (haccepted : UdpServer.Accepted σ.udp d)
    (hhttp : HttpCarries query v) (raw : Block 18) (remoteAddr : Sockaddr) :
    ∃ data tdb,
      σ.udp.receiveDatagram opt d σ.tdb =
        (σ.udp.push d.alloc d.addr data, tdb) ∧
      (Agree host.net (data, tdb)
          (AnnounceHandler.handle opt host.net d.now raw remoteAddr query
            σ.tdb) ↔
        σ.tdb.lookup v.infoHash.val = none) := by
  refine ⟨_, _, UdpServer.receiveDatagram_announce opt
    (Tracker.wellFormed_reachable hσ) hudp.long hudp.action haccepted, ?_⟩
  cases hfound : σ.tdb.lookup v.infoHash.val with
  | none =>
      rw [AnnounceHandler.handle_unknown opt host.net d.now raw remoteAddr
        hhttp hfound]
      exact iff_of_true ⟨rfl, .refused _, ⟨_, rfl⟩, rfl⟩ rfl
  | some t =>
      obtain ⟨rp, hpage⟩ := AnnounceHandler.handle_known opt host.net
        d.now raw remoteAddr hhttp hfound
      exact iff_of_false (not_agree_of_refused hpage)
        (Option.some_ne_none t)

/-- The announce of a leecher that wants 50 peers. -/
def sampleValues (infoHash : Block 20) : AnnounceValues where
  infoHash := infoHash
  peerid := ⟨ascii "-XX0001-000000000002", rfl⟩
  event := .started
  downloaded := 0
  uploaded := 0
  left := 1
  numWant := 50
  port := 6882
  downloaded_lt := by decide
  uploaded_lt := by decide
  left_lt := by decide
  numWant_ge := by decide
  numWant_lt := by decide

/-- The datagram of an announce, with the connection id zero. -/
def announceDatagram (v : AnnounceValues) : UdpServer.Datagram where
  now := 0
  bytes :=
    List.replicate 8 0 ++ [0, 0, 0, 1] ++ ascii "rqst" ++ v.infoHash.val ++
      v.peerid.val ++ (toBE 8 v.downloaded).val ++ (toBE 8 v.left).val ++
      (toBE 8 v.uploaded).val ++ (toBE 4 v.event.code).val ++
      List.replicate 8 0 ++ (toBE 4 (v.numWant % 2 ^ 32).toNat).val ++
      (toBE 2 v.port.toNat).val
  addr := sampleClient
  buffer := zeros 4096
  raw := zeros 18
  alloc := true

/-- The query of an announce. -/
def announceQuery (v : AnnounceValues) : Params :=
  [(ascii "info_hash", v.infoHash.val), (ascii "peer_id", v.peerid.val),
    (ascii "downloaded", decimal v.downloaded),
    (ascii "uploaded", decimal v.uploaded), (ascii "left", decimal v.left),
    (ascii "event", v.event.text), (ascii "numwant", decimalInt v.numWant),
    (ascii "port", decimal v.port.toNat)]

theorem httpCarries_announceQuery (v : AnnounceValues) :
    HttpCarries (announceQuery v) v := by
  constructor <;> rfl

theorem udpCarries_sampleValues {infoHash : Block 20}
    (hhash : infoHash ∈ [zeros 20, sampleDesc.infoHashV1]) :
    UdpCarries (announceDatagram (sampleValues infoHash))
      (sampleValues infoHash) := by
  simp only [List.mem_cons, List.not_mem_nil, or_false] at hhash
  rcases hhash with rfl | rfl <;> constructor <;> decide

/-- The announce of a torrent that nobody has listed. -/
theorem announce_agree_iff_unknown_sample :
    let v := sampleValues (zeros 20)
    ∃ data tdb,
      seeded.udp.receiveDatagram sampleOptions (announceDatagram v)
          seeded.tdb =
        (seeded.udp.push true sampleClient data, tdb) ∧
      Agree sampleHost.net (data, tdb)
        (AnnounceHandler.handle sampleOptions sampleHost.net 0 (zeros 18)
          sampleClient (announceQuery v) seeded.tdb) := by
  intro v
  obtain ⟨data, tdb, hstep, hagree⟩ := announce_agree_iff_unknown
    reachable_seeded (udpCarries_sampleValues (by decide)) (by decide)
    (httpCarries_announceQuery v) (zeros 18) sampleClient
  exact ⟨data, tdb, hstep, hagree.mpr (by decide)⟩

/--
A client that announces the sample torrent over HTTP is told about the seeder;
over UDP it is told that the torrent is not found.
-/
theorem agree_false_of_listed :
    let v := sampleValues sampleDesc.infoHashV1
    let d := announceDatagram v
    Runs.Reachable (Tracker.step sampleOptions sampleHost)
        (Tracker.start (treeWith pathA) UdpServer.new) seeded ∧
      sampleOptions.allowProxy = false ∧
      sampleOptions.minNumwant ≤ sampleOptions.maxNumwant ∧
      sampleOptions.maxNumwant.toNat < 2 ^ 31 ∧
      UdpCarries d v ∧ UdpServer.Accepted seeded.udp d ∧
      HttpCarries (announceQuery v) v ∧
      ∃ data tdb,
        seeded.udp.receiveDatagram sampleOptions d seeded.tdb =
          ({ seeded.udp with sbufs := [⟨d.addr, data⟩] }, tdb) ∧
        ¬ Agree sampleHost.net (data, tdb)
          (AnnounceHandler.handle sampleOptions sampleHost.net d.now
            (zeros 18) d.addr (announceQuery v) seeded.tdb) := by
  intro v d
  have hudp : UdpCarries d v := udpCarries_sampleValues (by decide)
  have haccepted : UdpServer.Accepted seeded.udp d := by decide
  have hstep := UdpServer.receiveDatagram_announce sampleOptions
    (Tracker.wellFormed_reachable reachable_seeded)
    hudp.long hudp.action haccepted
  have hknown : seeded.tdb.lookup v.infoHash.val ≠ none := by decide
  obtain ⟨t, ht⟩ := Option.ne_none_iff_exists'.mp hknown
  obtain ⟨rp, hpage⟩ := AnnounceHandler.handle_known sampleOptions
    sampleHost.net d.now (zeros 18) d.addr (httpCarries_announceQuery v) ht
  exact ⟨reachable_seeded, rfl, by decide, by decide, hudp, haccepted,
    httpCarries_announceQuery v, _, _, hstep, not_agree_of_refused hpage⟩

end Agreement

end Hefur
