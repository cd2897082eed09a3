import Hefur.PeerAddresses
import Hefur.PeerLists
import Hefur.PeerSelection
import Hefur.Spoofing
import Hefur.TorrentCleanup
import Hefur.TrackerHistory

/-!
# Clients find each other

The purpose of a tracker: a client that announces itself is told about the
others, and about no one else.

* `clients_meet`: an announce on one connection is followed to the page that is
  read on another one, through everything that the threads do in between.
* `listed_are_announced`: every address that is read in a page is that of a
  client that has announced itself since the torrent was listed, has not stopped
  and has not expired.

`Current` says that an announce still counts after the operations `since`; its
peer is then among the latest of the swarm, and behind it there are only those
that have announced themselves since (`heldBefore_current`).
-/

namespace Hefur

open Bytes

namespace Torrent

open Recency

section Current

/--
The client behind `request` is running, has not announced itself again, has not
expired, and has not been pushed out by others.
-/
structure Current (opt : Options) (now : Int) (request : AnnounceRequest)
    (since : List Op) : Prop where
  running : request.event ≠ .stopped
  last : request.addr.key ∉ announcers since
  clock : ClockFits opt now
  live : ∀ c, .cleanup c ∈ since → c < now + lifetime opt
  room : (announcers since).card < opt.maxPeers.toNat

/-- The reply to `asker` may list the client behind `request`. -/
structure MayList (asker request : AnnounceRequest) : Prop where
  running : asker.event ≠ .stopped
  key : request.addr.key ≠ asker.addr.key
  peerid : request.peerid ≠ asker.peerid
  family : ¬ (request.addr.family = .inet6 ∧
    (asker.addr.family = .inet ∨ asker.skipIpv6 = true))

/-- The clients, other than the asking one, that have announced since. -/
def othersSince (asker : AnnounceRequest) (since : List Op) :
    Finset (List UInt8) :=
  (announcers since).erase asker.addr.key

variable {opt : Options} {t : Torrent} {now : Int}
variable {request asker : AnnounceRequest} {since : List Op}

/-- Behind a current peer there are only those that announced since. -/
theorem heldBefore_current (h : Rep t)
    (hcurrent : Current opt now request since) :
    ∃ q : Queue Peer.key,
      Refines (Runs.run (Torrent.step opt)
        (t.step opt (.announce now request)) since) q ∧
      HeldBefore (peerOf opt now request) (announcers since) q := by
  have hfirst := h.step_refines opt (.announce now request)
  have hroom := hcurrent.room
  have hback : HeldBefore (peerOf opt now request) ∅
      (act (overfull opt) h.queue (Op.act opt (.announce now request))) := by
    apply heldBefore_announce _ hcurrent.running
    intro len hover
    have hlong := overfull_gt hover
    omega
  have hkept := run_keeps (fun _ => overfull_gt)
    (since.map (Op.act opt)) hback
    (by rw [key_peerOf, namedKeys_acts]; exact hcurrent.last)
    (neverDead_acts hcurrent.clock request hcurrent.live)
    (by rw [namedKeys_acts, Finset.empty_union]; exact hroom)
  rw [namedKeys_acts, Finset.empty_union] at hkept
  exact ⟨_, refines_run hfirst opt since, hkept⟩

/-- A reply for enough peers lists a current one. -/
theorem mem_addrs_of_current (h : Rep t)
    (hcurrent : Current opt now request since)
    (hmay : MayList asker request)
    (hwant : (othersSince asker since).card <
      (clampNumWant opt asker.numWant).toNat) (now' : Int) :
    request.addr ∈ ((Runs.run (Torrent.step opt)
      (t.step opt (.announce now request)) since).announce opt now'
        asker).1.addrs := by
  obtain ⟨q, hrefines, hheld⟩ := heldBefore_current h hcurrent
  have heligible : Eligible asker (peerOf opt now request) :=
    ⟨hmay.peerid, fun heq => hmay.key (congrArg Address.key heq),
      hmay.family⟩
  have htaken := hheld.mem_take
    (f := fun peer =>
      decide (peer.key ≠ asker.addr.key ∧ Eligible asker peer))
    (T := othersSince asker since)
    (decide_eq_true ⟨hmay.key, heligible⟩)
    (fun y hy hsince =>
      Finset.mem_erase.mpr ⟨(of_decide_eq_true hy).1, hsince⟩)
    hwant
  rw [addrs_eq hrefines.rep now' hmay.running, hrefines.swarm,
    ← List.map_take]
  exact List.mem_map_of_mem htaken

end Current

section Announced

/--
`x` is the peer of the last announce of its key, which was no stop, and no
cleanup since came after its time.
-/
def Announced (opt : Options) (ops : List Op) (x : Peer) : Prop :=
  ∃ now request since, LastAnnounce ops now request since ∧
    x = peerOf opt now request ∧ request.event ≠ .stopped ∧
    ∀ c, .cleanup c ∈ since → c < now + keptFor opt

variable {opt : Options} {t : Torrent} {ops since : List Op}
variable {now : Int} {request : AnnounceRequest} {x : Peer}

theorem LastAnnounce.concat (hlast : LastAnnounce ops now request since)
    {op : Op} (hother : op.announcer ≠ some request.addr.key) :
    LastAnnounce (ops ++ [op]) now request (since ++ [op]) := by
  obtain ⟨before, rfl, hfresh⟩ := hlast
  refine ⟨before, by simp, ?_⟩
  rw [announcers_append, Finset.mem_union, not_or]
  refine ⟨hfresh, ?_⟩
  rw [announcers, List.mem_toFinset]
  simpa using hother

/-- What a cleanup leaves has not expired, if the peers are in order. -/
theorem timeoutTs_of_mem_cleanup (h : Rep t) (hordered : TimeoutsOrdered t)
    {c : Int} (hx : x ∈ (t.cleanup c).swarm) : c < x.timeoutTs := by
  rw [swarm_cleanup c h, dropWhile_eq_filter] at hx
  · simpa using (List.mem_filter.mp hx).2
  · apply (timeoutsOrdered_iff.mp hordered).imp
    intro x y hle hdead
    simp only [decide_eq_true_eq] at hdead ⊢
    omega

/-- A peer that an operation keeps is still announced after it. -/
theorem Announced.concat (h : Announced opt ops x)
    (hfits : ∀ op ∈ ops, op.ExpiryFits opt) {op : Op}
    (hother : op.announcer ≠ some x.key)
    (hlive : ∀ c, op = .cleanup c → c < x.timeoutTs) :
    Announced opt (ops ++ [op]) x := by
  obtain ⟨now, request, since, hlast, rfl, hevent, hsince⟩ := h
  obtain ⟨hlow, hhigh⟩ := hfits _ hlast.mem hevent
  have htimeout : (peerOf opt now request).timeoutTs = now + keptFor opt :=
    wrap64_eq_self hlow hhigh
  rw [key_peerOf] at hother
  refine ⟨now, request, since ++ [op], hlast.concat hother, rfl, hevent, ?_⟩
  intro c hc
  rcases List.mem_append.mp hc with hc | hc
  · exact hsince c hc
  · rw [← htimeout]
    exact hlive c (List.mem_singleton.mp hc).symm

/-- Under a clock that never goes back, all peers of a torrent are announced. -/
theorem announced_of_mem_swarm
    (hinit : Refines t (Queue.empty Peer.key))
    (hclock : (ops.map Op.clock).Pairwise (· ≤ ·))
    (hfits : ∀ op ∈ ops, op.ExpiryFits opt)
    (hx : x ∈ (Runs.run (Torrent.step opt) t ops).swarm) :
    Announced opt ops x := by
  induction ops using List.reverseRecOn with
  | nil =>
      rw [Runs.run_nil, hinit.swarm] at hx
      cases hx
  | append_singleton ops op ih =>
      have hrep := (refines_run hinit opt ops).rep
      rw [List.map_append, List.pairwise_append] at hclock
      have hfits' : ∀ op' ∈ ops, op'.ExpiryFits opt := fun op' hop =>
        hfits op' (List.mem_append_left _ hop)
      have hordered := timeoutsOrdered_run hinit hclock.1 hfits'
      rw [Runs.run_append, Runs.run_cons, Runs.run_nil] at hx
      rcases mem_swarm_step hrep opt op hx with
        ⟨hold, hother⟩ | ⟨now, request, rfl, hevent, rfl⟩
      · apply (ih hclock.1 hfits' hold).concat hfits' hother
        rintro c rfl
        exact timeoutTs_of_mem_cleanup hrep hordered hx
      · refine ⟨now, request, [], ⟨ops, rfl, ?_⟩, rfl, hevent, ?_⟩
        · exact Finset.notMem_empty _
        · intro c hc
          cases hc

end Announced

end Torrent

namespace Tracker

section Meeting

variable {opt : Options} {host : Host} {tree : Tree} {udp : UdpServer}

/-- The torrents of a reachable tracker are represented. -/
theorem rep_reachable {σ : Tracker}
    (hσ : Runs.Reachable (step opt host) (start tree udp) σ) :
    σ.tdb.All Torrent.Rep :=
  all_reachable (fun infoHash name path length ops =>
    Torrent.rep_run opt infoHash name path length ops) hσ

/-- A page is read as a compact list of these peers. -/
def ReadsPeers (page : Option Output) (channel : Nat)
    (peers : List Address) : Prop :=
  ∃ items body interval peers4 peers6,
    page = some (.page channel (.body items)) ∧
    Bencoding.Denotes (Bencode.encode items) body ∧
    readCompact body = some (interval, peers4, peers6) ∧
    peers = peers4 ++ peers6

/-- What is read in a compact page are the addresses of known family. -/
theorem readsPeers_success (net : Inet) (channel : Nat)
    (rp : AnnounceResponse) :
    ∃ peers, ReadsPeers (some (.page channel (.body
        (AnnounceHandler.success net true rp)))) channel peers ∧
      ∀ a, a ∈ peers ↔ a ∈ rp.addrs ∧ a.family ≠ .unspec := by
  refine ⟨_, ⟨_, _, _, _, _, rfl, ?_, readCompact_successValue net rp, rfl⟩,
    ?_⟩
  · rw [AnnounceHandler.encode_success]
    exact Bencoding.denotes_encode _
  · intro a
    rw [List.mem_append, List.mem_filter, List.mem_filter, ← and_or_left]
    apply and_congr_right
    intro _
    cases a.family <;> decide

/-- The page for an announce of a torrent that is listed. -/
theorem output_announce (now : Int) {σ : Tracker} {channel : Nat}
    {rq : HttpRequest} {raw : Block 18} {request : AnnounceRequest}
    {t : Torrent} (hrq : httpAnnounced opt host σ channel rq raw = some request)
    (ht : σ.tdb.lookup request.infoHash.bytes = some t) :
    output opt host σ (.request channel rq now raw) =
      some (.page channel (.body (AnnounceHandler.success host.net
        (rq.query.lookup (ascii "compact")).isSome
        { (t.announce opt now request).1 with
          interval := opt.interval }))) := by
  obtain ⟨remoteAddr, hchannel, hlocation, hrequest⟩ :=
    httpAnnounced_eq_some hrq
  rw [output, hchannel, Option.map_some]
  simp only [serve_announce hlocation, AnnounceHandler.handle,
    AnnounceHandler.announce, hrequest, Option.map_some,
    TorrentDb.announce_of_some opt now ht, Torrent.error_announce,
    Bool.false_eq_true, if_false]

/--
**Clients find each other.**  A client has announced itself on a torrent, and
its announce is still current.  Whatever has happened since, another client
that asks over HTTP, for more peers than there are others that have announced
since, reads the first client's address in the page it gets.
-/
theorem clients_meet {before mid : List Event} {e : Event} {k : List UInt8}
    (hkept : Runs.Throughout (step opt host)
      (fun σ => (σ.tdb.lookup k).isSome)
      (after opt host tree udp before) (e :: mid))
    {now : Int} {request : AnnounceRequest}
    (hannounce : opOn opt host k (after opt host tree udp before) e =
      some (.announce now request))
    (hcurrent : Torrent.Current opt now request
      (opsOn opt host k (after opt host tree udp (before ++ [e])) mid))
    {channel : Nat} {rq : HttpRequest} {raw : Block 18}
    {asker : AnnounceRequest}
    (hasker : httpAnnounced opt host
      (after opt host tree udp (before ++ e :: mid)) channel rq raw =
        some asker)
    (hkey : asker.infoHash.bytes = k)
    (hmay : Torrent.MayList asker request)
    (hwant : (Torrent.othersSince asker
        (opsOn opt host k (after opt host tree udp (before ++ [e])) mid)).card <
      (Torrent.clampNumWant opt asker.numWant).toNat)
    (hcompact : (rq.query.lookup (ascii "compact")).isSome = true)
    (hfamily : request.addr.family ≠ .unspec) (now' : Int) :
    ∃ peers, ReadsPeers
        (output opt host (after opt host tree udp (before ++ e :: mid))
          (.request channel rq now' raw)) channel peers ∧
      request.addr ∈ peers := by
  obtain ⟨t, ht⟩ := Option.isSome_iff_exists.mp hkept.1
  have hrep := rep_reachable ⟨before, rfl⟩ k t ht
  have hlisted := lookup_run_kept ht hkept
  have hsame : Runs.run (step opt host) (after opt host tree udp before)
      (e :: mid) = after opt host tree udp (before ++ e :: mid) := by
    rw [after, after, Runs.run_append]
  have hnext : step opt host (after opt host tree udp before) e =
      after opt host tree udp (before ++ [e]) := by
    rw [after, after, Runs.run_append]
    rfl
  rw [hsame, opsOn, Runs.opsOf, hannounce, hnext] at hlisted
  have hmem := Torrent.mem_addrs_of_current hrep hcurrent hmay hwant now'
  subst hkey
  obtain ⟨peers, hpage, hpeers⟩ := readsPeers_success host.net channel
    { (Torrent.announce opt now' asker _).1 with interval := opt.interval }
  refine ⟨peers, ?_, (hpeers request.addr).mpr ⟨hmem, hfamily⟩⟩
  rw [output_announce now' hasker hlisted, hcompact]
  exact hpage

/--
The torrent under `k` came into the database with the visit of `path`, and has
been there ever since.
-/
structure ListedSince (opt : Options) (host : Host) (tree : Tree)
    (udp : UdpServer) (events : List Event) (k : List UInt8)
    (before : List Event) (path : Path) (since : List Event) : Prop where
  split : events = before ++ .visit path :: since
  new : (after opt host tree udp before).tdb.lookup k = none
  kept : Runs.Throughout (step opt host) (fun σ => (σ.tdb.lookup k).isSome)
    (after opt host tree udp (before ++ [.visit path])) since

/-- The peers of a listed torrent have announced since it was listed. -/
theorem announced_of_lookup {events : List Event} {k : List UInt8}
    {t : Torrent} (ht : (after opt host tree udp events).tdb.lookup k = some t)
    (hclock : ((opsOn opt host k (start tree udp) events).map
      Torrent.Op.clock).Pairwise (· ≤ ·))
    (hfits : ∀ op ∈ opsOn opt host k (start tree udp) events,
      op.ExpiryFits opt) :
    ∃ before path since,
      ListedSince opt host tree udp events k before path since ∧
      ∀ x ∈ t.swarm, Torrent.Announced opt
        (opsOn opt host k
          (after opt host tree udp (before ++ [.visit path])) since) x := by
  obtain ⟨before, path, since, fresh, rfl, hnone, ⟨desc, -, hfresh⟩, -, hkept,
    rfl⟩ := historyOf_lookup opt host tree udp events ht
  refine ⟨before, path, since, ⟨rfl, hnone, hkept⟩, fun x hx => ?_⟩
  have hsplit : opsOn opt host k (start tree udp)
      (before ++ .visit path :: since) =
        opsOn opt host k (start tree udp) (before ++ [.visit path]) ++
          opsOn opt host k
            (after opt host tree udp (before ++ [.visit path])) since := by
    rw [List.append_cons]
    exact Runs.opsOf_append _ _ _ _ _
  have hinit : Torrent.Refines fresh (Recency.Queue.empty Peer.key) := by
    rcases hfresh with rfl | rfl
    · exact Torrent.refines_new _ _ _ _
    · exact Torrent.refines_new _ _ _ _
  rw [hsplit] at hclock hfits
  rw [List.map_append, List.pairwise_append] at hclock
  exact Torrent.announced_of_mem_swarm hinit hclock.2.1
    (fun op hop => hfits op (List.mem_append_right _ hop)) hx

/--
**A page lists no one else.**  Where the clock of the announces and cleanups of
a torrent never goes back, and no expiry time wraps, every address that is read
in a page is that of a client that has announced itself on this torrent since it
was listed, has not stopped, and has not expired.
-/
theorem listed_are_announced {events : List Event} {k : List UInt8}
    (hlisted : ((after opt host tree udp events).tdb.lookup k).isSome)
    (hclock : ((opsOn opt host k (start tree udp) events).map
      Torrent.Op.clock).Pairwise (· ≤ ·))
    (hfits : ∀ op ∈ opsOn opt host k (start tree udp) events,
      op.ExpiryFits opt)
    {channel : Nat} {rq : HttpRequest} {raw : Block 18}
    {asker : AnnounceRequest}
    (hasker : httpAnnounced opt host (after opt host tree udp events) channel
      rq raw = some asker)
    (hkey : asker.infoHash.bytes = k)
    (hcompact : (rq.query.lookup (ascii "compact")).isSome = true)
    (now' : Int) :
    ∃ before path since,
      ListedSince opt host tree udp events k before path since ∧
      ∃ peers, ReadsPeers
          (output opt host (after opt host tree udp events)
            (.request channel rq now' raw)) channel peers ∧
        ∀ a ∈ peers, ∃ x : Peer, x.addr = a ∧ Torrent.Announced opt
          (opsOn opt host k
            (after opt host tree udp (before ++ [.visit path])) since) x := by
  obtain ⟨t, ht⟩ := Option.isSome_iff_exists.mp hlisted
  have hrep := rep_reachable ⟨events, rfl⟩ k t ht
  obtain ⟨before, path, since, hsince, hannounced⟩ :=
    announced_of_lookup ht hclock hfits
  refine ⟨before, path, since, hsince, ?_⟩
  subst hkey
  obtain ⟨peers, hpage, hpeers⟩ := readsPeers_success host.net channel
    { (t.announce opt now' asker).1 with interval := opt.interval }
  refine ⟨peers, ?_, ?_⟩
  · rw [output_announce now' hasker ht, hcompact]
    exact hpage
  · intro a ha
    obtain ⟨x, hx, haddr⟩ :=
      Torrent.mem_addrs_announce hrep ((hpeers a).mp ha).1
    exact ⟨x, haddr, hannounced x hx⟩

/-- The announce of a leecher of the sample torrent, from another address. -/
def leecherAnnounce : HttpRequest where
  location := ascii "/announce"
  query :=
    [(ascii "peer_id", ascii "-XX0001-000000000002"),
      (ascii "info_hash", sampleDesc.infoHashV1.val),
      (ascii "port", ascii "6882"),
      (ascii "left", ascii "1"),
      (ascii "compact", ascii "1")]
  headers := []

/-- The internal request of an announce of the sample torrent. -/
def sampleRequest (rq : HttpRequest) (peerid : Block 20) : AnnounceRequest :=
  AnnounceHandler.requestOf sampleOptions sampleHost.net (zeros 18)
    sampleClient rq.query peerid sampleDesc.infoHashV1

def seederRequest : AnnounceRequest :=
  sampleRequest sampleAnnounce (peek 0 20 (ascii "-XX0001-000000000001"))

def leecherRequest : AnnounceRequest :=
  sampleRequest leecherAnnounce (peek 0 20 (ascii "-XX0001-000000000002"))

/-- The tracker before the seeder announces itself. -/
def beforeSeeder : List Event :=
  [.visit pathA, .check, .accept 0 sampleClient]

/-- A round of the cleanup loop, and a second connection. -/
def afterSeeder : List Event :=
  [.cleanup fun _ => minute, .accept 1 sampleClient]

/-- The seeder announces itself before the leecher asks. -/
def meeting : List Event :=
  beforeSeeder ++ .request 0 sampleAnnounce 0 (zeros 18) :: afterSeeder

theorem httpAnnounced_leecher :
    httpAnnounced sampleOptions sampleHost
      (after sampleOptions sampleHost (treeWith pathA) UdpServer.new meeting)
      1 leecherAnnounce (zeros 18) = some leecherRequest := by
  rfl

/-- The leecher finds the seeder. -/
theorem clients_meet_leecher :
    ∃ peers, ReadsPeers
        (output sampleOptions sampleHost
          (after sampleOptions sampleHost (treeWith pathA) UdpServer.new
            (beforeSeeder ++
              .request 0 sampleAnnounce 0 (zeros 18) :: afterSeeder))
          (.request 1 leecherAnnounce minute (zeros 18))) 1 peers ∧
      seederRequest.addr ∈ peers := by
  have hsince : opsOn sampleOptions sampleHost sampleDesc.infoHashV1.val
      (after sampleOptions sampleHost (treeWith pathA) UdpServer.new
        (beforeSeeder ++ [.request 0 sampleAnnounce 0 (zeros 18)]))
      afterSeeder = [.cleanup minute] := by
    rfl
  have hcurrent : Torrent.Current sampleOptions 0 seederRequest
      [.cleanup minute] :=
    { running := by decide
      last := by decide
      clock := ⟨by decide, by decide⟩
      live := by
        intro c hc
        rw [List.mem_singleton, Torrent.Op.cleanup.injEq] at hc
        rw [hc]
        decide
      room := by decide }
  have hmay : Torrent.MayList leecherRequest seederRequest :=
    { running := by decide
      key := by decide
      peerid := by decide
      family := by decide }
  have hwant : (Torrent.othersSince leecherRequest [.cleanup minute]).card <
      (Torrent.clampNumWant sampleOptions leecherRequest.numWant).toNat := by
    decide
  have hkept : Runs.Throughout (step sampleOptions sampleHost)
      (fun σ => (σ.tdb.lookup sampleDesc.infoHashV1.val).isSome)
      (after sampleOptions sampleHost (treeWith pathA) UdpServer.new
        beforeSeeder)
      (.request 0 sampleAnnounce 0 (zeros 18) :: afterSeeder) :=
    ⟨rfl, rfl, rfl, rfl⟩
  exact clients_meet hkept rfl (hsince ▸ hcurrent) httpAnnounced_leecher rfl
    hmay (hsince ▸ hwant) rfl (by decide) minute

/-- The page of the leecher lists clients that have announced themselves. -/
theorem listed_are_announced_leecher :
    ∃ before path since,
      ListedSince sampleOptions sampleHost (treeWith pathA) UdpServer.new
        meeting sampleDesc.infoHashV1.val before path since ∧
      ∃ peers, ReadsPeers
          (output sampleOptions sampleHost
            (after sampleOptions sampleHost (treeWith pathA) UdpServer.new
              meeting)
            (.request 1 leecherAnnounce minute (zeros 18))) 1 peers ∧
        ∀ a ∈ peers, ∃ x : Peer, x.addr = a ∧
          Torrent.Announced sampleOptions
            (opsOn sampleOptions sampleHost sampleDesc.infoHashV1.val
              (after sampleOptions sampleHost (treeWith pathA) UdpServer.new
                (before ++ [.visit path])) since) x := by
  have hops : opsOn sampleOptions sampleHost sampleDesc.infoHashV1.val
      (start (treeWith pathA) UdpServer.new) meeting =
        [.announce 0 seederRequest, .cleanup minute] := by
    rfl
  have hkey : leecherRequest.infoHash.bytes = sampleDesc.infoHashV1.val := by
    rfl
  refine listed_are_announced rfl ?_ ?_ httpAnnounced_leecher hkey rfl minute
  · rw [hops]
    decide
  · rw [hops]
    decide

end Meeting

end Tracker

end Hefur
