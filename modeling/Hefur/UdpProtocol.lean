import Hefur.PeerLists
import Hefur.ScrapeAgreement

/-!
# The messages of the UDP protocol

`Request` and `Reply` are the messages as the structures of `udp-server.hh` lay
them out.  `Request.encode` is what a client sends, and `Reply.decode` what it
reads; `decode_encode` says that the server reads the request that was sent.

`Server` works on messages instead of bytes: it has the same secrets, and a
queue of replies.  The UDP tracker refines it (`udp_refines`): whatever
datagrams come in, in whatever order with the other events, the queued bytes are
read back as the replies of `Server`, and the databases are the same.
-/

namespace Hefur
namespace UdpProtocol

open Bytes UdpServer

section Messages

/-- The fields of an announce behind those of every request. -/
structure Announce where
  infoHash : Block 20
  peerid : Block 20
  downloaded : UInt64
  left : UInt64
  uploaded : UInt64
  event : UInt32
  ip : Block 4
  key : UInt32
  numWant : UInt32
  port : UInt16
deriving DecidableEq

inductive Request where
  | connect (connId : UInt64) (transactionId : Block 4)
  | announce (connId : UInt64) (transactionId : Block 4) (fields : Announce)
  | scrape (connId : UInt64) (transactionId : Block 4)
      (hashes : List (Block 20))
deriving DecidableEq

inductive Reply where
  | connect (transactionId : Block 4) (connId : UInt64)
  | announce (transactionId : Block 4) (interval leechers seeders : UInt32)
      (peers : List Address)
  | scrape (transactionId : Block 4) (torrents : List Counters)
  | error (transactionId : Block 4) (msg : Text)
deriving DecidableEq

def word32 (w : UInt32) : Block 4 :=
  toBE 4 w.toNat

def word64 (w : UInt64) : Block 8 :=
  toBE 8 w.toNat

/-- The 16 bytes in front; the connection id is never swapped. -/
def head (connId : UInt64) (action : Nat) (transactionId : Block 4)
    (rest : List UInt8) : List UInt8 :=
  (toLE 8 connId.toNat).val ++
    ((toBE 4 action).val ++ (transactionId.val ++ rest))

def Announce.encode (a : Announce) : List UInt8 :=
  a.infoHash.val ++ (a.peerid.val ++
    ((word64 a.downloaded).val ++ ((word64 a.left).val ++
      ((word64 a.uploaded).val ++ ((word32 a.event).val ++
        (a.ip.val ++ ((word32 a.key).val ++
          ((word32 a.numWant).val ++ (toBE 2 a.port.toNat).val))))))))

/-- What a client sends. -/
def Request.encode : Request → List UInt8
  | .connect connId transactionId => head connId 0 transactionId []
  | .announce connId transactionId a => head connId 1 transactionId a.encode
  | .scrape connId transactionId hashes =>
      head connId 2 transactionId (hashes.flatMap Subtype.val)

def Announce.decode (data : List UInt8) : Announce where
  infoHash := peek 16 20 data
  peerid := peek 36 20 data
  downloaded := UInt64.ofNat (readBE 56 8 data)
  left := UInt64.ofNat (readBE 64 8 data)
  uploaded := UInt64.ofNat (readBE 72 8 data)
  event := UInt32.ofNat (readBE 80 4 data)
  ip := peek 84 4 data
  key := UInt32.ofNat (readBE 88 4 data)
  numWant := UInt32.ofNat (readBE 92 4 data)
  port := UInt16.ofNat (readBE 96 2 data)

/-- The whole hashes behind the head. -/
def hashesIn (data : List UInt8) : List (Block 20) :=
  (List.range ((data.length - 16) / 20)).map fun i =>
    peek (16 + i * 20) 20 data

/-- The request in a datagram: what is too short or has no action is none. -/
def Request.decode (data : List UInt8) : Option Request :=
  if data.length < 16 then none
  else
    match readBE 8 4 data with
    | 0 => some (.connect (connectionIdField data) (transactionId data))
    | 1 =>
        if data.length < 98 then none
        else some (.announce (connectionIdField data) (transactionId data)
          (Announce.decode data))
    | 2 =>
        some (.scrape (connectionIdField data) (transactionId data)
          (hashesIn data))
    | _ => none

/-- What a client reads. -/
def Reply.decode (data : List UInt8) : Option Reply :=
  if data.length < 8 then none
  else
    match readBE 0 4 data with
    | 0 =>
        if data.length = 16 then
          some (.connect (peek 4 4 data)
            (UInt64.ofNat (ofLE (peek 8 8 data).val)))
        else none
    | 1 =>
        if data.length < 20 then none
        else
          (readPeers4 (data.drop 20)).map fun peers =>
            .announce (peek 4 4 data) (UInt32.ofNat (readBE 8 4 data))
              (UInt32.ofNat (readBE 12 4 data))
              (UInt32.ofNat (readBE 16 4 data)) peers
    | 2 =>
        some (.scrape (peek 4 4 data)
          ((List.range ((data.length - 8) / 12)).map (entry data)))
    | 3 => some (.error (peek 4 4 data) (data.drop 8))
    | _ => none

end Messages

section RoundTrip

variable {k off len : Nat} {rest : List UInt8}

theorem ofNat_connId (w : UInt64) :
    UInt64.ofNat (ofLE (toLE 8 w.toNat).val) = w := by
  rw [ofLE_toLE (by have := w.toNat_lt; omega), UInt64.ofNat_toNat]

section Head

variable (connId : UInt64) {action : Nat} (transactionId : Block 4)

end Head

end RoundTrip

section Replies

variable (transactionId : Block 4)

/-- A reply whose action and transaction id are read back. -/
theorem head_reply {action : Nat} {data : List UInt8}
    (h : Heads action transactionId data) :
    readBE 0 4 data = action ∧ peek 4 4 data = transactionId :=
  ⟨h.action, h.transactionId⟩

theorem decode_connectResponse (connId : UInt64) :
    Reply.decode (connectResponse transactionId connId) =
      some (.connect transactionId connId) := by
  obtain ⟨haction, hid⟩ :=
    head_reply transactionId (heads_connectResponse transactionId connId)
  have hbase := length_response 16 0 transactionId (by omega)
  have hlen : (connectResponse transactionId connId).length = 16 :=
    length_poke_block hbase (by omega)
  have hconn : peek 8 8 (connectResponse transactionId connId) =
      toLE 8 connId.toNat := by
    apply Subtype.ext
    exact peek_poke_same (toLE 8 connId.toNat).property (by omega)
  rw [Reply.decode, hlen, if_neg (by omega), haction]
  simp only [if_true, hid, hconn, ofNat_connId]

theorem decode_errorResponse (msg : Text) :
    Reply.decode (errorResponse transactionId msg) =
      some (.error transactionId msg) := by
  obtain ⟨haction, hid⟩ :=
    head_reply transactionId (heads_errorResponse transactionId msg)
  have hbase := length_response (8 + msg.length) 3 transactionId (by omega)
  have hlen : (errorResponse transactionId msg).length = 8 + msg.length := by
    rw [errorResponse, length_poke (by omega), hbase]
  have hmsg : (errorResponse transactionId msg).drop 8 = msg := by
    rw [errorResponse, drop_poke (by omega),
      List.drop_eq_nil_of_le (by omega), List.append_nil]
  rw [Reply.decode, hlen, if_neg (by omega), haction]
  simp only [hid, hmsg]

/-- The three words of an item. -/
def itemCounters (item : ScrapeResponse.Item) : Counters where
  seeders := item.nseeders
  completed := item.ndownloaded
  leechers := item.nleechers

theorem decode_scrapeResponse {rp : ScrapeResponse}
    (hitems : ∀ item ∈ rp.items, ∃ h, item.infoHash = .ofSha1 h) :
    Reply.decode (scrapeResponse transactionId rp) =
      some (.scrape transactionId (rp.items.map itemCounters)) := by
  obtain ⟨haction, hid⟩ :=
    head_reply transactionId (heads_scrapeResponse transactionId rp)
  have hlen := length_scrapeResponse transactionId rp
  have hentries : (List.range rp.items.length).map
      (entry (scrapeResponse transactionId rp)) =
        rp.items.map itemCounters := by
    apply List.ext_getElem?
    intro i
    rw [List.getElem?_map, List.getElem?_map]
    cases hitem : rp.items[i]? with
    | none =>
        have hout := List.getElem?_eq_none_iff.mp hitem
        rw [List.getElem?_eq_none (by rw [List.length_range]; omega)]
        rfl
    | some item =>
        obtain ⟨hin, -⟩ := List.getElem?_eq_some_iff.mp hitem
        obtain ⟨h, hhash⟩ := hitems item (List.mem_of_getElem? hitem)
        have hshape : rp.items[i]? = some ((itemCounters item).item h) := by
          rw [hitem, Counters.item, ← hhash]
          rfl
        rw [List.getElem?_range hin, Option.map_some, Option.map_some,
          entry_scrapeResponse transactionId hshape]
  rw [Reply.decode, hlen, if_neg (by omega), haction]
  simp only [hid, Nat.add_sub_cancel_left,
    Nat.mul_div_cancel_left _ (show 0 < 12 by omega), hentries]

section Peers

/-- The slot of a peer; that of a peer without IPv4 address stays zero. -/
def slot : Address → Block 6
  | .inet bytes word => packed bytes word
  | _ => zeros 6

/-- The address that a client reads in the slot of a peer. -/
def slotAddress : Address → Address
  | .inet bytes word => .inet bytes word
  | _ => .inet (zeros 4) 0

theorem readEntry4_slot (a : Address) :
    readEntry4 (slot a) = slotAddress a := by
  have hzeros : zeros 6 = packed (zeros 4) 0 := by decide
  cases a with
  | inet bytes word => exact readEntry4_packed bytes word
  | unspec raw =>
      show readEntry4 (zeros 6) = _
      rw [hzeros]
      exact readEntry4_packed (zeros 4) 0
  | inet6 bytes word =>
      show readEntry4 (zeros 6) = _
      rw [hzeros]
      exact readEntry4_packed (zeros 4) 0

/-- Writing a slot of zeros puts the slot of the peer there. -/
theorem writePeer_zeros {off n : Nat} {a : Address} {m : List UInt8}
    (hoff : off ≤ m.length)
    (hzeros : m.drop off = List.replicate (6 + n) 0) :
    writePeer off a m =
      m.take off ++ ((slot a).val ++ List.replicate n 0) := by
  have hin : off + 6 ≤ m.length := by
    have hlen := congrArg List.length hzeros
    rw [List.length_drop, List.length_replicate] at hlen
    omega
  have hrest : m.drop (off + 6) = List.replicate n 0 := by
    rw [← List.drop_drop, hzeros, List.drop_replicate]
    congr 1
    omega
  have hunwritten : m = m.take off ++ (List.replicate 6 0 ++
      List.replicate n 0) := by
    rw [← List.replicate_add, ← hzeros, List.take_append_drop]
  cases a with
  | inet bytes word =>
      obtain ⟨hsix, hpoke⟩ :=
        writePeer_eq_poke (a := .inet bytes word) rfl
      rw [hpoke hin, poke, hsix, hrest, List.append_assoc]
      rfl
  | unspec raw => exact hunwritten
  | inet6 bytes word => exact hunwritten

/-- Writing the peers into zeros puts their slots there. -/
theorem pokeArray_zeros (addrs : List Address) :
    ∀ {off : Nat} {m : List UInt8}, off ≤ m.length →
      m.drop off = List.replicate (6 * addrs.length) 0 →
        pokeArray writePeer 6 off addrs m =
          m.take off ++ (addrs.map slot).flatMap Subtype.val := by
  induction addrs with
  | nil =>
      intro off m hoff hzeros
      have hall : m.take off = m := by
        apply List.take_of_length_le
        have hlen := congrArg List.length hzeros
        rw [List.length_drop, List.length_replicate] at hlen
        simp only [List.length_nil] at hlen
        omega
      simp [pokeArray, hall]
  | cons a addrs ih =>
      intro off m hoff hzeros
      have hsplit : 6 * (a :: addrs).length = 6 + 6 * addrs.length := by
        rw [List.length_cons]
        omega
      rw [hsplit] at hzeros
      have hwrite := writePeer_zeros (a := a) hoff hzeros
      have hfront : (m.take off ++ (slot a).val).length = off + 6 := by
        rw [List.length_append, List.length_take, (slot a).property]
        omega
      rw [← List.append_assoc] at hwrite
      have hroom : off + 6 ≤ (writePeer off a m).length := by
        rw [hwrite, List.length_append, hfront]
        omega
      have hrest : (writePeer off a m).drop (off + 6) =
          List.replicate (6 * addrs.length) 0 := by
        rw [hwrite, List.drop_left' hfront]
      rw [pokeArray, ih hroom hrest, hwrite, List.take_left' hfront,
        List.map_cons, List.flatMap_cons, List.append_assoc]

/-- Behind the header, memory is still zero. -/
theorem drop_announceHeader (rp : AnnounceResponse) :
    (announceHeader transactionId rp).drop 20 =
      List.replicate (6 * rp.addrs.length) 0 := by
  have hword : ∀ w : UInt32, (toBE 4 w.toNat).val.length = 4 :=
    fun w => (toBE 4 w.toNat).property
  have haction := (toBE 4 1).property
  have hid := transactionId.property
  have hzeros : (zeros (20 + 6 * rp.addrs.length)).val.length =
      20 + 6 * rp.addrs.length := (zeros _).property
  have hinner : (poke 4 transactionId.val
      (zeros (20 + 6 * rp.addrs.length)).val).length =
        20 + 6 * rp.addrs.length := length_poke_block hzeros (by omega)
  have hbase := length_response (20 + 6 * rp.addrs.length) 1 transactionId
    (by omega)
  have hinterval := length_poke_block (b := toBE 4 rp.interval.toNat)
    hbase (show 8 + 4 ≤ _ by omega)
  have hleechers := length_poke_block (b := toBE 4 rp.nleechers.toNat)
    hinterval (show 12 + 4 ≤ _ by omega)
  rw [announceHeader,
    drop_poke_after (by rw [hword]) (by rw [hword, hleechers]; omega),
    drop_poke_after (by rw [hword]; omega) (by rw [hword, hinterval]; omega),
    drop_poke_after (by rw [hword]; omega) (by rw [hword, hbase]; omega),
    response, drop_poke_after (by omega) (by omega),
    drop_poke_after (by omega) (by omega)]
  show (List.replicate _ _).drop 20 = _
  rw [List.drop_replicate, Nat.add_sub_cancel_left]

/-- The peers of an announce reply are read back slot by slot. -/
theorem readPeers4_announceResponse (rp : AnnounceResponse) :
    readPeers4 ((announceResponse transactionId rp).drop 20) =
      some (rp.addrs.map slotAddress) := by
  have hlen := length_announceHeader transactionId rp
  have hresponse : announceResponse transactionId rp =
      (announceHeader transactionId rp).take 20 ++
        (rp.addrs.map slot).flatMap Subtype.val :=
    pokeArray_zeros (m := announceHeader transactionId rp) rp.addrs
      (by omega) (drop_announceHeader transactionId rp)
  rw [hresponse, List.drop_left' (by rw [List.length_take]; omega),
    readPeers4, entries_flatMap (by omega), Option.map_some, List.map_map]
  congr 1
  apply List.map_congr_left
  intro a _
  exact readEntry4_slot a

end Peers

theorem decode_announceResponse (rp : AnnounceResponse) :
    Reply.decode (announceResponse transactionId rp) =
      some (.announce transactionId rp.interval rp.nleechers rp.nseeders
        (rp.addrs.map slotAddress)) := by
  obtain ⟨haction, hid⟩ :=
    head_reply transactionId (heads_announceResponse transactionId rp)
  have hlen := length_announceResponse transactionId rp
  have hfields := readBE_announceHeader transactionId rp
  have hword : ∀ off, off + 4 ≤ 20 →
      readBE off 4 (announceResponse transactionId rp) =
        readBE off 4 (announceHeader transactionId rp) := by
    intro off hin
    rw [readBE, peek_announceResponse _ _ hin, readBE]
  rw [Reply.decode, hlen, if_neg (by omega), haction]
  simp only [if_neg (show ¬ 20 + 6 * rp.addrs.length < 20 by omega),
    readPeers4_announceResponse, hid, hword 8 (by omega),
    hword 12 (by omega), hword 16 (by omega), hfields.1, hfields.2.1,
    hfields.2.2, UInt32.ofNat_toNat, Option.map_some]

end Replies

section Server

/-- What a client has sent, and what else counts when it is handled. -/
structure Message where
  now : Int
  addr : Sockaddr
  raw : Block 18
  alloc : Bool
  request : Option Request

/-- The three secrets, and the replies that wait. -/
structure Server where
  newest : Secret
  older : Secret
  oldest : Secret
  outbox : List (Sockaddr × Reply)

inductive Event where
  | genSecret (rnd : Option Secret)
  | sendto (result : SendResult)
  | message (m : Message)

/-- The database request that an announce stands for. -/
def Announce.request (opt : Options) (m : Message) (a : Announce) :
    AnnounceRequest where
  peerid := a.peerid
  infoHash := InfoHash.empty.setBytes20 a.infoHash
  numWant := a.numWant
  event := convert a.event.toNat
  downloaded := a.downloaded
  uploaded := a.uploaded
  left := a.left
  addr :=
    (if opt.allowProxy then .inet a.ip 0
      else Address.ofSockaddr m.raw m.addr).setPort a.port
  skipIpv6 := true

def announceReply (transactionId : Block 4) (rp : AnnounceResponse) :
    Reply :=
  if rp.error then .error transactionId rp.errorMsg
  else
    .announce transactionId rp.interval rp.nleechers rp.nseeders
      (rp.addrs.map slotAddress)

/-- The numbers of the torrents that are known, in the order asked. -/
def scrapeReply (transactionId : Block 4) (db : TorrentDb)
    (hashes : List (Block 20)) : Reply :=
  .scrape transactionId (hashes.filterMap fun h =>
    (db.lookup h.val).map fun t => ⟨t.seeders, t.completed, t.leechers⟩)

namespace Server

/-- The id was given to this address under one of the secrets. -/
def Knows (s : Server) (connId : UInt64) (addr : Sockaddr) : Prop :=
  connId = connectionId s.newest addr ∨
    connId = connectionId s.older addr ∨ connId = connectionId s.oldest addr

instance (s : Server) (connId : UInt64) (addr : Sockaddr) :
    Decidable (s.Knows connId addr) :=
  inferInstanceAs (Decidable (_ ∨ _ ∨ _))

/-- The reply to a message, if it gets one, and the database after it. -/
def answer (opt : Options) (m : Message) (s : Server) (db : TorrentDb) :
    Option Reply × TorrentDb :=
  match m.request with
  | none => (none, db)
  | some (.connect _ id) =>
      (some (.connect id (connectionId s.newest m.addr)), db)
  | some (.announce connId id a) =>
      if s.Knows connId m.addr then
        (some (announceReply id (db.announce opt m.now (a.request opt m)).1),
          (db.announce opt m.now (a.request opt m)).2)
      else (none, db)
  | some (.scrape connId id hashes) =>
      if s.Knows connId m.addr then (some (scrapeReply id db hashes), db)
      else (none, db)

/-- Queue the reply, if there is one, and memory for it. -/
def post (m : Message) (reply : Option Reply) (s : Server) : Server :=
  { s with
    outbox :=
      if m.alloc then (reply.map fun r => (m.addr, r)).toList ++ s.outbox
      else s.outbox }

def step (opt : Options) (st : Server × TorrentDb) :
    Event → Server × TorrentDb
  | .genSecret rnd =>
      ({ st.1 with
        newest := rnd.getD st.1.newest
        older := st.1.newest
        oldest := st.1.older }, st.2)
  | .sendto result =>
      (if result = .again then st.1
        else { st.1 with outbox := st.1.outbox.tail }, st.2)
  | .message m =>
      (st.1.post m (st.1.answer opt m st.2).1, (st.1.answer opt m st.2).2)

/-- A server without secrets of its own. -/
def new : Server where
  newest := zeros 32
  older := zeros 32
  oldest := zeros 32
  outbox := []

end Server

/-- The message in a datagram. -/
def Message.ofDatagram (d : Datagram) : Message where
  now := d.now
  addr := d.addr
  raw := d.raw
  alloc := d.alloc
  request := Request.decode d.received

/-- The event of the messages that an event of the bytes is. -/
def Event.read : UdpServer.Event → Event
  | .genSecret _ rnd => .genSecret rnd
  | .sendto _ result => .sendto result
  | .recvfrom d => .message (.ofDatagram d)

/-- The queued bytes are read as this reply. -/
def Carries (b : SendToBuffer) (r : Sockaddr × Reply) : Prop :=
  b.addr = r.1 ∧ Reply.decode b.data = some r.2

/-- The two levels hold the same secrets, replies and database. -/
structure Simulates (st : UdpServer × TorrentDb) (abs : Server × TorrentDb) :
    Prop where
  secrets : st.1.secrets = #v[abs.1.newest, abs.1.older, abs.1.oldest]
  outbox : List.Forall₂ Carries st.1.sbufs abs.1.outbox
  db : st.2 = abs.2

end Server

section Refinement

variable {opt : Options} {d : Datagram} {s : UdpServer} {db : TorrentDb}
variable {t : Server}

/-- The fields that are read in the buffer are those of the datagram. -/
theorem peek_filled_received {off len : Nat} (hin : off + len ≤ d.size)
    (hapart : off + len ≤ 8 ∨ 12 ≤ off) :
    peek off len d.filled = peek off len d.received := by
  have hsize : d.received.length = d.size := rfl
  have hmax := d.size_eq
  rw [peek_filled hin hapart, Datagram.received, peek_take (by omega)
    (by omega)]

theorem action_received (hsize : 16 ≤ d.size) :
    readBE 8 4 d.received = d.action := by
  have hmax := d.size_eq
  rw [Datagram.action, readBE, readBE, Datagram.received,
    peek_take (by omega) (by omega)]

theorem transactionId_received (hsize : 16 ≤ d.size) :
    UdpServer.transactionId d.filled =
      UdpServer.transactionId d.received :=
  peek_filled_received hsize (by omega)

theorem connectionIdField_received (hsize : 16 ≤ d.size) :
    connectionIdField d.filled = connectionIdField d.received := by
  rw [connectionIdField, peek_filled_received (by omega) (by omega)]
  rfl

/-- What is dropped at once has no request in it. -/
theorem decode_dropped (hdrop : d.size < 16 ∨ 2 < d.action) :
    Request.decode d.received = none := by
  have hlen : d.received.length = d.size := rfl
  rw [Request.decode]
  split
  · rfl
  · rw [action_received (by omega)]
    split <;> first | omega | rfl

theorem decode_connect (hsize : 16 ≤ d.size) (haction : d.action = 0) :
    Request.decode d.received =
      some (.connect (connectionIdField d.received)
        (UdpServer.transactionId d.received)) := by
  have hlong : ¬ d.received.length < 16 := Nat.not_lt.mpr hsize
  rw [Request.decode, if_neg hlong, action_received hsize, haction]
  rfl

/-- An announce without all of its fields is no announce. -/
theorem decode_announced (hsize : 16 ≤ d.size) (haction : d.action = 1) :
    Request.decode d.received =
      if d.size < 98 then none
      else some (.announce (connectionIdField d.received)
        (UdpServer.transactionId d.received)
        (Announce.decode d.received)) := by
  have hlong : ¬ d.received.length < 16 := Nat.not_lt.mpr hsize
  rw [Request.decode, if_neg hlong, action_received hsize, haction]
  rfl

theorem decode_scrape (hsize : 16 ≤ d.size) (haction : d.action = 2) :
    Request.decode d.received =
      some (.scrape (connectionIdField d.received)
        (UdpServer.transactionId d.received) (hashesIn d.received)) := by
  have hlong : ¬ d.received.length < 16 := Nat.not_lt.mpr hsize
  rw [Request.decode, if_neg hlong, action_received hsize, haction]
  rfl

/-- The server asks its database for the hashes of the request. -/
theorem infoHashs_received (d : Datagram) :
    (scrapeRequest d.filled d.size).infoHashs =
      (hashesIn d.received).map .ofSha1 := by
  have hlen : d.received.length = d.size := rfl
  rw [scrapeRequest, hashesIn, List.map_map, hlen]
  apply List.map_congr_left
  intro i hi
  rw [List.mem_range] at hi
  rw [Function.comp_apply, peek_filled_received (by omega) (by omega)]

/-- The internal request is that of the fields in the datagram. -/
theorem request_decode (hsize : 98 ≤ d.size) :
    (Announce.decode d.received).request opt (.ofDatagram d) =
      announceRequest opt d d.filled := by
  have hevent : ∀ b : Block 4, (UInt32.ofNat (ofBE b.val)).toNat =
      ofBE b.val := by
    intro b
    have hlt := ofBE_lt b.val
    rw [b.property] at hlt
    rw [UInt32.toNat_ofNat']
    omega
  simp (disch := omega) only [Announce.request, Announce.decode,
    Message.ofDatagram, announceRequest, readBE, peek_filled_received,
    hevent]

theorem knows_iff (hsize : 16 ≤ d.size)
    (hsecrets : s.secrets = #v[t.newest, t.older, t.oldest]) :
    t.Knows (connectionIdField d.received) d.addr ↔
      s.checkConnectionId (connectionIdField d.filled) d.addr = true := by
  rw [connectionIdField_received hsize, checkConnectionId, hsecrets,
    Server.Knows]
  simp only [Bool.or_eq_true, decide_eq_true_eq]
  exact or_assoc.symm

theorem Server.post_none (m : Message) : t.post m none = t := by
  rw [Server.post]
  split <;> rfl

/-- A queued reply is carried by the bytes that were queued for it. -/
theorem Simulates.push (h : Simulates (s, db) (t, db)) {db' : TorrentDb}
    {data : List UInt8} {reply : Reply}
    (hdata : Reply.decode data = some reply) :
    Simulates (s.push d.alloc d.addr data, db')
      (t.post (.ofDatagram d) (some reply), db') := by
  rw [UdpServer.push, Server.post]
  refine ⟨?_, ?_, rfl⟩
  · split
    · exact h.secrets
    · exact h.secrets
  · show List.Forall₂ Carries _ (if d.alloc then _ else _)
    split
    · exact .cons ⟨rfl, hdata⟩ h.outbox
    · exact h.outbox

/-- A message without an answer changes nothing. -/
theorem simulates_unanswered (h : Simulates (s, db) (t, db))
    (hanswer : t.answer opt (.ofDatagram d) db = (none, db)) :
    Simulates (s, db) (Server.step opt (t, db) (.message (.ofDatagram d))) := by
  rw [Server.step, hanswer, Server.post_none]
  exact h

theorem simulates_dropped (h : Simulates (s, db) (t, db))
    (hnone : Request.decode d.received = none) :
    Simulates (s, db) (Server.step opt (t, db) (.message (.ofDatagram d))) := by
  apply simulates_unanswered h
  rw [Server.answer, Message.ofDatagram, hnone]

theorem simulates_connect (h : Simulates (s, db) (t, db))
    (hsize : 16 ≤ d.size) (haction : d.action = 0) :
    Simulates (s.handleConnect d d.filled d.size, db)
      (Server.step opt (t, db) (.message (.ofDatagram d))) := by
  have hconnId : s.connectId d = connectionId t.newest d.addr := by
    rw [connectId, h.secrets]
    rfl
  have hanswer : t.answer opt (.ofDatagram d) db =
      (some (.connect (UdpServer.transactionId d.received) (s.connectId d)),
        db) := by
    rw [Server.answer, Message.ofDatagram, decode_connect hsize haction,
      hconnId]
  rw [Server.step, hanswer, handleConnect, if_neg (by omega),
    transactionId_received hsize]
  exact h.push (decode_connectResponse _ _)

theorem simulates_announce (h : Simulates (s, db) (t, db))
    (hsize : 16 ≤ d.size) (haction : d.action = 1) :
    Simulates (s.handleAnnounce opt d d.filled d.size db)
      (Server.step opt (t, db) (.message (.ofDatagram d))) := by
  have hknows := knows_iff hsize h.secrets
  by_cases hrefused : d.size < 98 ∨
      ¬ s.checkConnectionId (connectionIdField d.filled) d.addr
  · rw [handleAnnounce, announce, if_pos hrefused]
    by_cases hshort : d.size < 98
    · apply simulates_dropped h
      rw [decode_announced hsize haction, if_pos hshort]
    · have hforeign : ¬ t.Knows (connectionIdField d.received) d.addr :=
        hknows.not.mpr (hrefused.resolve_left hshort)
      apply simulates_unanswered h
      rw [Server.answer, Message.ofDatagram,
        decode_announced hsize haction, if_neg hshort]
      exact if_neg hforeign
  · obtain ⟨hlong, hid⟩ := not_or.mp hrefused
    have hanswer : t.answer opt (.ofDatagram d) db =
        (some (announceReply (UdpServer.transactionId d.received)
          (db.announce opt d.now (announceRequest opt d d.filled)).1),
          (db.announce opt d.now (announceRequest opt d d.filled)).2) := by
      rw [Server.answer, ← request_decode (by omega)]
      simp only [Message.ofDatagram]
      rw [decode_announced hsize haction, if_neg hlong]
      exact if_pos (hknows.mpr (not_not.mp hid))
    rw [Server.step, hanswer, handleAnnounce, announce, if_neg hrefused,
      announceReply, ← transactionId_received hsize]
    dsimp only
    split
    · exact h.push (decode_errorResponse _ _)
    · exact h.push (decode_announceResponse _ _)

/-- The bytes of a scrape reply are read as the numbers that are known. -/
theorem decode_scrapeReply (transactionId : Block 4) (d : Datagram) :
    Reply.decode (scrapeResponse transactionId
        (db.scrape opt (scrapeRequest d.filled d.size))) =
      some (scrapeReply transactionId db (hashesIn d.received)) := by
  have hcounters : (db.scrape opt
      (scrapeRequest d.filled d.size)).items.map itemCounters =
        (hashesIn d.received).filterMap fun h => (db.lookup h.val).map fun t =>
          ⟨t.seeders, t.completed, t.leechers⟩ := by
    rw [TorrentDb.scrape, infoHashs_received, List.filterMap_map,
      List.map_filterMap]
    apply List.filterMap_congr
    intro h _
    rw [Function.comp_apply, TorrentDb.scrapeItem, InfoHash.bytes_ofSha1,
      Option.map_map]
    rfl
  rw [decode_scrapeResponse, hcounters, scrapeReply]
  intro item hitem
  obtain ⟨infoHash, hasked, hfound⟩ := List.mem_filterMap.mp hitem
  rw [infoHashs_received] at hasked
  obtain ⟨hash, -, rfl⟩ := List.mem_map.mp hasked
  obtain ⟨_, -, rfl⟩ := Option.map_eq_some_iff.mp hfound
  exact ⟨hash, rfl⟩

theorem simulates_scrape (h : Simulates (s, db) (t, db))
    (hsize : 16 ≤ d.size) (haction : d.action = 2) :
    Simulates (s.handleScrape opt d d.filled d.size db, db)
      (Server.step opt (t, db) (.message (.ofDatagram d))) := by
  have hknows := knows_iff hsize h.secrets
  by_cases hadmit :
      s.checkConnectionId (connectionIdField d.filled) d.addr = true
  · have hanswer : t.answer opt (.ofDatagram d) db =
        (some (scrapeReply (UdpServer.transactionId d.received) db
          (hashesIn d.received)), db) := by
      rw [Server.answer, Message.ofDatagram, decode_scrape hsize haction]
      exact if_pos (hknows.mpr hadmit)
    rw [Server.step, hanswer, handleScrape, if_neg (by
      rw [not_or, not_not]
      exact ⟨by omega, hadmit⟩), transactionId_received hsize]
    exact h.push (decode_scrapeReply _ d)
  · rw [handleScrape, if_pos (Or.inr hadmit)]
    apply simulates_unanswered h
    rw [Server.answer, Message.ofDatagram, decode_scrape hsize haction]
    exact if_neg (hknows.not.mpr hadmit)

theorem simulates_receive (h : Simulates (s, db) (t, db)) :
    Simulates (s.receiveDatagram opt d db)
      (Server.step opt (t, db) (.message (.ofDatagram d))) := by
  rcases receiveDatagram_cases opt d s db with
    ⟨hwhy, hstep⟩ | ⟨hsize, ⟨haction, hstep⟩ | ⟨haction, hstep⟩ |
      ⟨haction, hstep⟩⟩
  · rw [hstep]
    exact simulates_dropped h (decode_dropped hwhy)
  · rw [hstep]
    exact simulates_connect h hsize haction
  · rw [hstep]
    exact simulates_announce h hsize haction
  · rw [hstep]
    exact simulates_scrape h hsize haction

/-- One event of the bytes is one event of the messages. -/
theorem simulates_step {st : UdpServer × TorrentDb} {abs : Server × TorrentDb}
    (h : Simulates st abs) (e : UdpServer.Event) :
    Simulates (UdpServer.step opt st e)
      (Server.step opt abs (Event.read e)) := by
  obtain ⟨s, db⟩ := st
  obtain ⟨t, db'⟩ := abs
  obtain rfl : db = db' := h.db
  cases e with
  | genSecret now rnd =>
      refine ⟨?_, h.outbox, rfl⟩
      have hsecrets : s.secrets = #v[t.newest, t.older, t.oldest] := h.secrets
      rw [UdpServer.step, genSecret, hsecrets]
      rfl
  | sendto now result =>
      have hqueue : List.Forall₂ Carries s.sbufs t.outbox := h.outbox
      have htail := List.forall₂_drop 1 hqueue
      rw [List.drop_one, List.drop_one] at htail
      rw [UdpServer.step, sendFront_eq]
      by_cases hagain : result = .again
      · simp only [Event.read, Server.step, if_pos hagain]
        exact h
      · simp only [Event.read, Server.step, if_neg hagain]
        exact ⟨h.secrets, htail, rfl⟩
  | recvfrom d =>
      exact simulates_receive h

/--
**The UDP tracker refines the server of messages.**  After its start and any
rounds of its loop, the bytes in its queue are read back as the replies of that
server, and the secrets and the databases are the same.
-/
theorem udp_refines (opt : Options) (now : Int)
    (rnd0 rnd1 rnd2 : Option Secret) (db : TorrentDb) (turns : List Turn) :
    let started := (UdpServer.new.start now rnd0 rnd1 rnd2, db)
    Simulates (Runs.run (turn opt) started turns)
      (Runs.run (Server.step opt) (Server.new, db)
        ([.genSecret rnd0, .genSecret rnd1, .genSecret rnd2] ++
          (loopEvents opt started turns).map Event.read)) := by
  intro started
  rw [← run_loopEvents, Runs.run_append]
  have hstart : Simulates started
      (Runs.run (Server.step opt) (Server.new, db)
        [.genSecret rnd0, .genSecret rnd1, .genSecret rnd2]) :=
    ⟨rfl, .nil, rfl⟩
  exact Runs.run_simulates (R := Simulates) Event.read
    (fun _ _ e h => simulates_step h e) hstart _

end Refinement

end UdpProtocol
end Hefur
