import Hefur.TorrentDb

/-!
# The UDP tracker

The model of `udp-server.hh` and `udp-server.cc`.

`receive` reads every datagram into one buffer of 4096 bytes and looks at it
through packed structures; the model reads the fields at their offsets.  What
the environment decides is part of the events: the clock, the random bytes, the
outcome of each system call, the bytes the buffer held before a datagram came
in, and whether `calloc` finds memory for a reply.

`turn` is one round of the loop in `run`.  It is made of the elementary events
of `step`: rotations of the secrets, calls to `sendto` and calls to `recvfrom`
(`run_turnEvents`, `run_loopEvents`), so that what every event keeps is kept by
the loop.
-/

namespace Hefur

open Bytes

abbrev Secret := Block 32

/-- A queued reply; `len_` is the length of `data`. -/
structure SendToBuffer where
  addr : Sockaddr
  data : List UInt8

/-- `secrets_`, newest first, the queue of replies and the next rotation. -/
structure UdpServer where
  secrets : Vector Secret 3
  sbufs : List SendToBuffer
  nextTimeout : Int

namespace UdpServer

/-- A datagram, and what else `receive` finds when it handles it. -/
structure Datagram where
  now : Int
  bytes : List UInt8
  addr : Sockaddr
  buffer : Block 4096
  raw : Block 18
  alloc : Bool

section Packets

/-- `be16toh`, `be32toh` and `be64toh` of a field. -/
def readBE (off len : Nat) (buf : List UInt8) : Nat :=
  ofBE (peek off len buf).val

/-- `conn->connection_id_`, which is never swapped. -/
def connectionIdField (buf : List UInt8) : UInt64 :=
  UInt64.ofNat (ofLE (peek 0 8 buf).val)

/-- `conn->action_`, in the byte order of the host. -/
def actionField (buf : List UInt8) : Nat :=
  ofLE (peek 8 4 buf).val

/-- `conn->action_ = be32toh(conn->action_)`. -/
def swapAction (buf : List UInt8) : List UInt8 :=
  poke 8 (peek 8 4 buf).val.reverse buf

def transactionId (buf : List UInt8) : Block 4 :=
  peek 12 4 buf

/-- A `calloc`ed reply with the two fields that every reply starts with. -/
def response (len : Nat) (action : Nat) (transactionId : Block 4) :
    List UInt8 :=
  poke 0 (toBE 4 action).val (poke 4 transactionId.val (zeros len).val)

def connectResponse (transactionId : Block 4) (connectionId : UInt64) :
    List UInt8 :=
  poke 8 (toLE 8 connectionId.toNat).val (response 16 0 transactionId)

def errorResponse (transactionId : Block 4) (msg : Text) : List UInt8 :=
  poke 8 msg (response (8 + msg.length) 3 transactionId)

/-- One slot of `peers_`; it stays empty if the peer is not IPv4. -/
def writePeer (off : Nat) (addr : Address) (m : List UInt8) : List UInt8 :=
  match addr with
  | .inet bytes word =>
      poke (off + 4) (toLE 2 word.toNat).val (poke off bytes.val m)
  | _ => m

def announceResponse (transactionId : Block 4) (rp : AnnounceResponse) :
    List UInt8 :=
  pokeArray writePeer 6 20 rp.addrs
    (poke 16 (toBE 4 rp.nseeders.toNat).val
      (poke 12 (toBE 4 rp.nleechers.toNat).val
        (poke 8 (toBE 4 rp.interval.toNat).val
          (response (20 + 6 * rp.addrs.length) 1 transactionId))))

/-- One slot of `torrents_`. -/
def writeTorrent (off : Nat) (item : ScrapeResponse.Item)
    (m : List UInt8) : List UInt8 :=
  poke (off + 4) (toBE 4 item.ndownloaded.toNat).val
    (poke (off + 8) (toBE 4 item.nleechers.toNat).val
      (poke off (toBE 4 item.nseeders.toNat).val m))

def scrapeResponse (transactionId : Block 4) (rp : ScrapeResponse) :
    List UInt8 :=
  pokeArray writeTorrent 12 8 rp.items
    (response (8 + 12 * rp.items.length) 2 transactionId)

end Packets

section ConnectionIds

/-- `(ip[j] * secret.s_[j]) ^ secret.s_[j + 1]`. -/
def mix (secret : Secret) (ip : List UInt8) (j : Nat) : Nat :=
  ((ip.getD j 0).toNat * (secret.val.getD j 0).toNat) ^^^
    (secret.val.getD (j + 1) 0).toNat

/-- The loop of both `connectionId` functions. -/
def connectionIdOf (secret : Secret) (ip : List UInt8) : UInt64 :=
  (List.range ip.length).foldl
    (fun connId j => connId + UInt64.ofNat (mix secret ip j)) 0

def connectionId (secret : Secret) : Sockaddr → UInt64
  | .inet sin => connectionIdOf secret sin.sinAddr.val
  | .inet6 sin6 => connectionIdOf secret sin6.sin6Addr.val
  | .other _ => 42

def checkConnectionId (s : UdpServer) (connId : UInt64) (addr : Sockaddr) :
    Bool :=
  connId = connectionId s.secrets[0] addr ||
    connId = connectionId s.secrets[1] addr ||
    connId = connectionId s.secrets[2] addr

/-- `genSecret`; without random bytes `secrets_[0]` keeps its old ones. -/
def genSecret (now : Int) (rnd : Option Secret) (s : UdpServer) :
    UdpServer :=
  { s with
    secrets := #v[rnd.getD s.secrets[0], s.secrets[0], s.secrets[1]]
    nextTimeout := wrap64 (now + second) }

/-- A server that was just constructed. -/
def new : UdpServer where
  secrets := #v[zeros 32, zeros 32, zeros 32]
  sbufs := []
  nextTimeout := 0

/-- `start`, as far as the loop can see: it generates three secrets. -/
def start (now : Int) (rnd0 rnd1 rnd2 : Option Secret) (s : UdpServer) :
    UdpServer :=
  ((s.genSecret now rnd0).genSecret now rnd1).genSecret now rnd2

end ConnectionIds

section Handlers

/-- `calloc` a reply and push it, if there is memory. -/
def push (alloc : Bool) (addr : Sockaddr) (data : List UInt8)
    (s : UdpServer) : UdpServer :=
  if alloc then { s with sbufs := ⟨addr, data⟩ :: s.sbufs } else s

/-- The id that is given to the sender of `d`. -/
def connectId (s : UdpServer) (d : Datagram) : UInt64 :=
  connectionId s.secrets[0] d.addr

def handleConnect (d : Datagram) (buf : List UInt8) (size : Nat)
    (s : UdpServer) : UdpServer :=
  if size < 16 then s
  else
    s.push d.alloc d.addr
      (connectResponse (transactionId buf) (s.connectId d))

def sendFailure (d : Datagram) (buf : List UInt8) (msg : Text)
    (s : UdpServer) : UdpServer :=
  s.push d.alloc d.addr (errorResponse (transactionId buf) msg)

def convert : Nat → AnnounceRequest.Event
  | 1 => .completed
  | 2 => .started
  | 3 => .stopped
  | _ => .none

/-- The internal request of an announce; the type of its hash is not set. -/
def announceRequest (opt : Options) (d : Datagram) (buf : List UInt8) :
    AnnounceRequest where
  peerid := peek 36 20 buf
  infoHash := InfoHash.empty.setBytes20 (peek 16 20 buf)
  numWant := UInt32.ofNat (readBE 92 4 buf)
  event := convert (readBE 80 4 buf)
  downloaded := UInt64.ofNat (readBE 56 8 buf)
  uploaded := UInt64.ofNat (readBE 72 8 buf)
  left := UInt64.ofNat (readBE 64 8 buf)
  addr :=
    (if opt.allowProxy then .inet (peek 84 4 buf) 0
      else Address.ofSockaddr d.raw d.addr).setPort
        (UInt16.ofNat (readBE 96 2 buf))
  skipIpv6 := true

/-- The database call of `handleAnnounce`, if the datagram is admitted. -/
def announce (opt : Options) (d : Datagram) (buf : List UInt8) (size : Nat)
    (s : UdpServer) (db : TorrentDb) :
    Option (AnnounceResponse × TorrentDb) :=
  if size < 98 ∨ ¬ s.checkConnectionId (connectionIdField buf) d.addr then
    none
  else some (db.announce opt d.now (announceRequest opt d buf))

def handleAnnounce (opt : Options) (d : Datagram) (buf : List UInt8)
    (size : Nat) (s : UdpServer) (db : TorrentDb) :
    UdpServer × TorrentDb :=
  match s.announce opt d buf size db with
  | none => (s, db)
  | some (rp, db) =>
      if rp.error then (s.sendFailure d buf rp.errorMsg, db)
      else
        (s.push d.alloc d.addr (announceResponse (transactionId buf) rp), db)

def scrapeRequest (buf : List UInt8) (size : Nat) : ScrapeRequest where
  infoHashs := (List.range ((size - 16) / 20)).map fun i =>
    .ofSha1 (peek (16 + i * 20) 20 buf)

def handleScrape (opt : Options) (d : Datagram) (buf : List UInt8)
    (size : Nat) (s : UdpServer) (db : TorrentDb) : UdpServer :=
  if size < 16 ∨ ¬ s.checkConnectionId (connectionIdField buf) d.addr then s
  else
    let rp := db.scrape opt (scrapeRequest buf size)
    if rp.error then s.sendFailure d buf rp.errorMsg
    else s.push d.alloc d.addr (scrapeResponse (transactionId buf) rp)

end Handlers

section Receive

/-- What `recvfrom` copies into the buffer. -/
def Datagram.received (d : Datagram) : List UInt8 :=
  d.bytes.take 4096

def Datagram.size (d : Datagram) : Nat :=
  d.received.length

/-- The buffer with the datagram in it, when it is dispatched. -/
def Datagram.filled (d : Datagram) : List UInt8 :=
  swapAction (poke 0 d.received d.buffer.val)

/-- One round of the loop in `receive`. -/
def receiveDatagram (opt : Options) (d : Datagram) (s : UdpServer)
    (db : TorrentDb) : UdpServer × TorrentDb :=
  if d.size < 16 then (s, db)
  else
    match actionField d.filled with
    | 0 => (s.handleConnect d d.filled d.size, db)
    | 1 => s.handleAnnounce opt d d.filled d.size db
    | 2 => (s.handleScrape opt d d.filled d.size db, db)
    | _ => (s, db)

/-- `receive`, until `recvfrom` has nothing left or 64 replies wait. -/
def receive (opt : Options) :
    List Datagram → UdpServer → TorrentDb → UdpServer × TorrentDb
  | [], s, db => (s, db)
  | d :: rest, s, db =>
      if s.sbufs.length < 64 then
        let (s, db) := s.receiveDatagram opt d db
        receive opt rest s db
      else (s, db)

end Receive

section Loop

/-- The result of `sendto`: sent, "try again", or another error. -/
inductive SendResult where
  | sent
  | again
  | failed
deriving DecidableEq

/-- `send`, over the results that `sendto` gives at the given times. -/
def send : List (Int × SendResult) → UdpServer → UdpServer
  | [], s => s
  | (_, result) :: rest, s =>
      match s.sbufs with
      | [] => s
      | _ :: sbufs =>
          if result = .again then s
          else send rest { s with sbufs := sbufs }

/-- What `poll` reports, with what the call it leads to then finds. -/
inductive Poll where
  | failed
  | timeout
  | writable (results : List (Int × SendResult))
  | readable (datagrams : List Datagram)

/-- What one round of the loop meets; `wake` is the clock of `genSecret`. -/
structure Turn where
  now : Int
  wake : Int
  rnd : Option Secret
  poll : Poll

/-- The timeout given to `poll`, in milliseconds. -/
def timeout (s : UdpServer) (now : Int) : Int :=
  wrap32 (Int.tdiv (wrap64 (s.nextTimeout - now)) millisecond)

/-- One round of the loop in `run`. -/
def turn (opt : Options) (st : UdpServer × TorrentDb) (t : Turn) :
    UdpServer × TorrentDb :=
  let (s, db) := st
  if s.timeout t.now ≤ 0 then (s.genSecret t.wake t.rnd, db)
  else
    match t.poll with
    | .failed => (s, db)
    | .timeout => (s.genSecret t.wake t.rnd, db)
    | .writable results => (s.send results, db)
    | .readable datagrams => receive opt datagrams s db

end Loop

section Events

/-- What can happen to a server, one system call at a time. -/
inductive Event where
  | genSecret (now : Int) (rnd : Option Secret)
  | sendto (now : Int) (result : SendResult)
  | recvfrom (d : Datagram)

def Event.clock : Event → Int
  | .genSecret now _ => now
  | .sendto now _ => now
  | .recvfrom d => d.now

/-- `sendto` for the front of the queue. -/
def sendFront (result : SendResult) (s : UdpServer) : UdpServer :=
  match s.sbufs with
  | [] => s
  | _ :: sbufs => if result = .again then s else { s with sbufs := sbufs }

theorem sendFront_eq (result : SendResult) (s : UdpServer) :
    s.sendFront result =
      if result = .again then s else { s with sbufs := s.sbufs.tail } := by
  obtain ⟨secrets, sbufs, nextTimeout⟩ := s
  cases sbufs with
  | nil => exact (ite_self _).symm
  | cons front sbufs => rfl

def step (opt : Options) (st : UdpServer × TorrentDb) :
    Event → UdpServer × TorrentDb
  | .genSecret now rnd => (st.1.genSecret now rnd, st.2)
  | .sendto _ result => (st.1.sendFront result, st.2)
  | .recvfrom d => st.1.receiveDatagram opt d st.2

/-- The calls to `sendto` that `send` makes. -/
def sendEvents : List (Int × SendResult) → UdpServer → List Event
  | [], _ => []
  | (now, result) :: rest, s =>
      match s.sbufs with
      | [] => []
      | _ :: sbufs =>
          .sendto now result ::
            if result = .again then []
            else sendEvents rest { s with sbufs := sbufs }

/-- The calls to `recvfrom` in which `receive` gets a datagram. -/
def receiveEvents (opt : Options) :
    List Datagram → UdpServer → TorrentDb → List Event
  | [], _, _ => []
  | d :: rest, s, db =>
      if s.sbufs.length < 64 then
        .recvfrom d ::
          receiveEvents opt rest (s.receiveDatagram opt d db).1
            (s.receiveDatagram opt d db).2
      else []

/-- The events of one round of the loop. -/
def turnEvents (opt : Options) (st : UdpServer × TorrentDb) (t : Turn) :
    List Event :=
  if st.1.timeout t.now ≤ 0 then [.genSecret t.wake t.rnd]
  else
    match t.poll with
    | .failed => []
    | .timeout => [.genSecret t.wake t.rnd]
    | .writable results => sendEvents results st.1
    | .readable datagrams => receiveEvents opt datagrams st.1 st.2

/-- The events of the rounds of the loop, in order. -/
def loopEvents (opt : Options) :
    UdpServer × TorrentDb → List Turn → List Event
  | _, [] => []
  | st, t :: turns => turnEvents opt st t ++ loopEvents opt (turn opt st t) turns

theorem run_sendEvents
    (opt : Options) (results : List (Int × SendResult)) (db : TorrentDb) :
    ∀ s : UdpServer,
      Runs.run (step opt) (s, db) (sendEvents results s) =
        (s.send results, db) := by
  induction results with
  | nil =>
      intro s
      rfl
  | cons r rest ih =>
      intro s
      obtain ⟨now, result⟩ := r
      unfold sendEvents send
      cases hs : s.sbufs with
      | nil =>
          rfl
      | cons front sbufs =>
          by_cases hagain : result = .again
          · simp [hagain, step, sendFront, hs]
          · simp [hagain, step, sendFront, hs, ih]

theorem run_receiveEvents
    (opt : Options) (datagrams : List Datagram) :
    ∀ (s : UdpServer) (db : TorrentDb),
      Runs.run (step opt) (s, db) (receiveEvents opt datagrams s db) =
        receive opt datagrams s db := by
  induction datagrams with
  | nil =>
      intro s db
      rfl
  | cons d rest ih =>
      intro s db
      unfold receiveEvents receive
      split
      · rw [Runs.run_cons]
        exact ih _ _
      · rfl

/-- A round of the loop does what its events do. -/
theorem run_turnEvents
    (opt : Options) (st : UdpServer × TorrentDb) (t : Turn) :
    Runs.run (step opt) st (turnEvents opt st t) = turn opt st t := by
  obtain ⟨s, db⟩ := st
  unfold turnEvents turn
  by_cases hdue : s.timeout t.now ≤ 0
  · simp [hdue, step]
  · simp only [hdue, if_false]
    cases t.poll with
    | failed => rfl
    | timeout => rfl
    | writable results => exact run_sendEvents opt results db s
    | readable datagrams => exact run_receiveEvents opt datagrams s db

/-- **The loop does what the sequence of its events does.** -/
theorem run_loopEvents
    (opt : Options) (turns : List Turn) :
    ∀ st : UdpServer × TorrentDb,
      Runs.run (step opt) st (loopEvents opt st turns) =
        Runs.run (turn opt) st turns := by
  induction turns with
  | nil =>
      intro st
      rfl
  | cons t turns ih =>
      intro st
      rw [loopEvents, Runs.run_append, run_turnEvents, ih]
      rfl

end Events

end UdpServer

end Hefur
