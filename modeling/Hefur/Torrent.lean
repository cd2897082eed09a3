import Hefur.Announce
import Hefur.Lib.ExactMap

/-!
# Torrents and their peers

The model of `peer.hh`, `torrent.hh` and `torrent.cc`.

A torrent keeps one set of peers in three forms: the list `timeouts`, the trie
`peers` and the counters `leechers` and `seeders`.  The first two hold pointers
to peers, so the model has a memory: `mem` maps a pointer to the peer it points
to, and `brk` is the next pointer that `new` returns.  A deleted peer is reset,
so that a stale pointer no longer shows its data.

`underflow` is a ghost field: it records whether a counter was ever decremented
at zero.  Nothing reads it.

The functions take the options and, where the source reads the clock, the
reading `now`.
-/

namespace Hefur

open Bytes

structure Peer where
  addr : Address
  left : UInt64
  downloaded : UInt64
  uploaded : UInt64
  timeoutTs : Int
  peerid : Block 20
deriving DecidableEq

namespace Peer

/-- `Peer()`; the address is the default one. -/
def default : Peer where
  addr := .unspec (zeros 18)
  left := 0
  downloaded := 0
  uploaded := 0
  timeoutTs := 0
  peerid := zeros 20

/-- `Peer::addr`, the key of the index of peers. -/
def key (peer : Peer) : List UInt8 :=
  peer.addr.key

def isSeeder (peer : Peer) : Bool :=
  peer.left = 0

end Peer

abbrev Ptr := Nat

structure Torrent where
  infoHash : InfoHash
  name : Text
  path : Text
  length : UInt64
  mem : Ptr → Peer
  brk : Ptr
  timeouts : List Ptr
  peers : ExactMap (List UInt8) Ptr
  leechers : UInt32
  seeders : UInt32
  completed : UInt32
  underflow : Bool

namespace Torrent

/-- The constructor. -/
def new (infoHash : InfoHash) (name path : Text) (length : UInt64) :
    Torrent where
  infoHash := infoHash
  name := name
  path := path
  length := length
  mem := fun _ => Peer.default
  brk := 0
  timeouts := []
  peers := ∅
  leechers := 0
  seeders := 0
  completed := 0
  underflow := false

def key (t : Torrent) : List UInt8 :=
  t.infoHash.bytes

/-- Store a peer behind a pointer. -/
def write (peer : Ptr) (p : Peer) (t : Torrent) : Torrent :=
  { t with mem := Function.update t.mem peer p }

/-- `if (left == 0) --seeders_; else --leechers_;` -/
def decrement (left : UInt64) (t : Torrent) : Torrent :=
  if left = 0 then
    { t with
      seeders := t.seeders - 1
      underflow := t.underflow || t.seeders = 0 }
  else
    { t with
      leechers := t.leechers - 1
      underflow := t.underflow || t.leechers = 0 }

/-- `if (left == 0) ++seeders_; else ++leechers_;` -/
def increment (left : UInt64) (t : Torrent) : Torrent :=
  if left = 0 then
    { t with seeders := t.seeders + 1 }
  else
    { t with leechers := t.leechers + 1 }

/-- `removePeer`: unlink the peer, unindex it and delete it. -/
def removePeer (peer : Ptr) (t : Torrent) : Torrent :=
  let t := t.decrement (t.mem peer).left
  let t := { t with timeouts := t.timeouts.erase peer }
  let t := { t with peers := t.peers.erase (t.mem peer).key }
  t.write peer Peer.default

/-- The time at which a peer heard of at `now` expires. -/
def timeoutAt (opt : Options) (now : Int) : Int :=
  wrap64 (now + wrap64 (minute * (opt.announceInterval + 5).toNat))

/-- `updateTimeout`: put the peer at the back of `timeouts_`. -/
def updateTimeout (opt : Options) (now : Int)
    (peer : Ptr) (remove : Bool) (t : Torrent) : Torrent :=
  let t :=
    if remove then { t with timeouts := t.timeouts.erase peer } else t
  let t :=
    t.write peer { t.mem peer with timeoutTs := timeoutAt opt now }
  { t with timeouts := t.timeouts ++ [peer] }

/-- `new Peer`. -/
def newPeer (t : Torrent) : Ptr × Torrent :=
  (t.brk, { t.write t.brk Peer.default with brk := t.brk + 1 })

/-- The peer after the assignments of `createOrUpdatePeer`. -/
def assignPeer (request : AnnounceRequest) (p : Peer) : Peer :=
  { p with
    left := request.left
    downloaded := request.downloaded
    uploaded := request.uploaded
    addr := request.addr
    peerid := request.peerid }

/-- `createOrUpdatePeer`; it never returns null. -/
def createOrUpdatePeer (opt : Options) (now : Int)
    (request : AnnounceRequest) (peer : Option Ptr) (t : Torrent) :
    Option Ptr × Torrent :=
  let update := peer.isSome
  let t :=
    match peer with
    | some p => t.decrement (t.mem p).left
    | none => t
  let (p, t) :=
    match peer with
    | some p => (p, t)
    | none => t.newPeer
  let t := t.write p (assignPeer request (t.mem p))
  let t := t.increment (t.mem p).left
  let t :=
    if update then t
    else { t with peers := ExactMap.insertNew (t.mem p).key p t.peers }
  (some p, t.updateTimeout opt now p update)

/-- `std::clamp<int>(num_want, MIN_NUMWANT, MAX_NUMWANT)`. -/
def clampNumWant (opt : Options) (numWant : UInt32) : UInt32 :=
  if toInt32 numWant < toInt32 opt.minNumwant then opt.minNumwant
  else if toInt32 opt.maxNumwant < toInt32 numWant then opt.maxNumwant
  else numWant

/-- The peers that the reply to `request` leaves out. -/
def skips (request : AnnounceRequest) (peer : Peer) : Bool :=
  ((request.addr.family = .inet || request.skipIpv6) &&
      peer.addr.family = .inet6) ||
    peer.peerid = request.peerid || request.addr.same peer.addr

/-- The loop that fills `addrs_`, over the peers still to be visited. -/
def collectAddrs (request : AnnounceRequest) (numWant : UInt32) :
    List Peer → List Address → List Address
  | [], addrs => addrs
  | peer :: rest, addrs =>
      if addrs.length ≥ numWant.toNat then addrs
      else if skips request peer then collectAddrs request numWant rest addrs
      else collectAddrs request numWant rest (addrs ++ [peer.addr])

/-- `if (leechers_ + seeders_ > MAX_PEERS) removePeer(timeouts_.front())`. -/
def evictFront (opt : Options) (t : Torrent) : Torrent :=
  if t.leechers + t.seeders > opt.maxPeers then
    match t.timeouts with
    | [] => t
    | front :: _ => t.removePeer front
  else t

/-- `++completed_` when a registered leecher reports a finished download. -/
def countCompletion (request : AnnounceRequest) (peer : Option Ptr)
    (t : Torrent) : Torrent :=
  match peer with
  | some p =>
      if (t.mem p).left > 0 ∧ request.left = 0 ∧ request.event = .completed
      then { t with completed := t.completed + 1 } else t
  | none => t

def announce (opt : Options) (now : Int) (request : AnnounceRequest)
    (t : Torrent) : AnnounceResponse × Torrent :=
  let response : AnnounceResponse :=
    { error := false
      errorMsg := []
      nleechers := t.leechers
      nseeders := t.seeders
      ncompleted := t.completed }
  let peer := t.peers.lookup request.addr.key
  let t := t.countCompletion request peer
  if request.event = .stopped then
    match peer with
    | some p => (response, t.removePeer p)
    | none => (response, t)
  else
    match t.createOrUpdatePeer opt now request peer with
    | (none, t) =>
        ({ response with
            error := true, errorMsg := ascii "internal error (2)" }, t)
    | (some _, t) =>
        let numWant := clampNumWant opt request.numWant
        let addrs :=
          collectAddrs request numWant (t.timeouts.reverse.map t.mem) []
        ({ response with addrs := addrs }, t.evictFront opt)

theorem timeouts_removePeer_front
    {peer : Ptr} {t : Torrent} {rest : List Ptr}
    (ht : t.timeouts = peer :: rest) :
    (t.removePeer peer).timeouts = rest := by
  have hdec : (t.decrement (t.mem peer).left).timeouts = t.timeouts := by
    unfold decrement
    split <;> rfl
  simp [removePeer, write, hdec, ht]

/-- `cleanup`: remove peers from the front until one has not timed out. -/
def cleanup (now : Int) (t : Torrent) : Torrent :=
  match _ht : t.timeouts with
  | [] => t
  | peer :: _ =>
      if (t.mem peer).timeoutTs > now then t
      else cleanup now (t.removePeer peer)
termination_by t.timeouts.length
decreasing_by
  rw [timeouts_removePeer_front _ht, _ht]
  simp

/-- The operations that change a torrent. -/
inductive Op where
  | announce (now : Int) (request : AnnounceRequest)
  | cleanup (now : Int)

/-- The clock reading an operation uses. -/
def Op.clock : Op → Int
  | .announce now _ => now
  | .cleanup now => now

def step (opt : Options) (t : Torrent) : Op → Torrent
  | .announce now request => (t.announce opt now request).2
  | .cleanup now => t.cleanup now

end Torrent

end Hefur
