import Hefur.TorrentHistory
import Hefur.Tracker

/-!
# The addresses of peers

Every registered peer should have an IPv4 or an IPv6 address.  The announcing
address of a request comes from its socket, unless `allow-proxy` lets the client
name one: an `ip` parameter that is no address leaves it unset.

The main result is `peersReachable_throughout_iff`: in a run from IP sockets,
all peers have an address exactly if no such announce is registered.
-/

namespace Hefur

open Bytes

namespace Torrent

section Peers

/-- All listed peers have an IPv4 or an IPv6 address. -/
def HasAddresses (t : Torrent) : Prop :=
  ∀ p ∈ t.timeouts, (t.mem p).addr.family ≠ .unspec

/-- The representation, and an empty swarm if no peers are allowed. -/
structure Bounded (opt : Options) (t : Torrent) : Prop where
  rep : Rep t
  empty : opt.maxPeers = 0 → t.swarm = []

variable {opt : Options} {t : Torrent}

theorem hasAddresses_iff :
    t.HasAddresses ↔ ∀ x ∈ t.swarm, x.addr.family ≠ .unspec := by
  simp [HasAddresses, swarm]

theorem bounded_new (opt : Options)
    (infoHash : InfoHash) (name path : Text) (length : UInt64) :
    Bounded opt (new infoHash name path length) where
  rep := (refines_new infoHash name path length).rep
  empty := fun _ => rfl

theorem hasAddresses_new
    (infoHash : InfoHash) (name path : Text) (length : UInt64) :
    (new infoHash name path length).HasAddresses := by
  intro p hp
  cases hp

theorem bounded_step (h : Bounded opt t) (op : Op) :
    Bounded opt (t.step opt op) := by
  have hstep := h.rep.step_refines opt op
  refine ⟨hstep.rep, ?_⟩
  intro hzero
  have hnat : opt.maxPeers.toNat = 0 := by rw [hzero]; rfl
  have hbefore : h.rep.queue.items.length ≤ opt.maxPeers.toNat := by
    show t.swarm.length ≤ _
    rw [h.empty hzero]
    exact Nat.zero_le _
  have hafter := Recency.act_length_le (overfull_succ (by omega)) hbefore
    (op.act opt)
  rw [← hstep.swarm, hnat] at hafter
  exact List.length_eq_zero_iff.mp (Nat.le_zero.mp hafter)

theorem hasAddresses_cleanup (h : Bounded opt t) (now : Int)
    (hpeers : t.HasAddresses) : (t.cleanup now).HasAddresses := by
  rw [hasAddresses_iff] at hpeers ⊢
  intro x hx
  rw [swarm_cleanup now h.rep] at hx
  exact hpeers x ((List.dropWhile_sublist _).subset hx)

/--
An announce leaves all peers with an address, unless it registers one without.
-/
theorem hasAddresses_announce_iff (h : Bounded opt t) (now : Int)
    (request : AnnounceRequest) (hpeers : t.HasAddresses) :
    (t.announce opt now request).2.HasAddresses ↔
      ¬ (request.event ≠ .stopped ∧ request.addr.family = .unspec ∧
        opt.maxPeers ≠ 0) := by
  rw [hasAddresses_iff] at hpeers ⊢
  constructor
  · rintro hafter ⟨hevent, hunspec, hmax⟩
    obtain ⟨others, hswarm⟩ := swarm_announce_last h.rep opt now hmax hevent
    exact hafter (peerOf opt now request) (by simp [hswarm]) hunspec
  · intro hnot x hx
    rcases mem_swarm_step h.rep opt (.announce now request) hx with
      ⟨hold, -⟩ | ⟨now', request', hop, hevent, rfl⟩
    · exact hpeers x hold
    · obtain ⟨rfl, rfl⟩ := Op.announce.inj hop
      intro hunspec
      apply hnot
      refine ⟨hevent, hunspec, ?_⟩
      intro hzero
      have hempty : (t.announce opt now request).2.swarm = [] :=
        (bounded_step h (.announce now request)).empty hzero
      rw [hempty] at hx
      cases hx

end Peers

end Torrent

namespace LogHandler

/-- The remote address stays an IP socket address. -/
theorem isIp_handle (opt : Options) (net : Inet) (raw : Block 18)
    {remoteAddr : Sockaddr} (hip : remoteAddr.IsIp) (headers : Params) :
    (handle opt net raw remoteAddr headers).IsIp := by
  simp only [handle]
  split
  · cases hparse : parseAddr net (Address.ofSockaddr raw remoteAddr).port
        (realIp opt headers) with
    | none =>
        exact hip
    | some s =>
        rw [Option.getD_some]
        unfold parseAddr at hparse
        split at hparse
        · rw [← Option.some.inj hparse]
          trivial
        · split at hparse
          · split at hparse
            · rw [← Option.some.inj hparse]
              trivial
            · rw [← Option.some.inj hparse]
              trivial
          · cases hparse
  · exact hip

end LogHandler

namespace AnnounceHandler

/-- The client may name its address, and names something else. -/
def NamesNoAddress (opt : Options) (net : Inet) (query : Params) : Prop :=
  opt.allowProxy = true ∧ queryGet (ascii "ip") query ≠ [] ∧
    net.pton4 (cStr (queryGet (ascii "ip") query)) = none ∧
    net.pton6 (cStr (queryGet (ascii "ip") query)) = none

theorem family_requestAddr (opt : Options) (net : Inet) (raw : Block 18)
    {remoteAddr : Sockaddr} (hip : remoteAddr.IsIp) (query : Params) :
    (requestAddr opt net raw remoteAddr
        (queryGet (ascii "ip") query)).family = .unspec ↔
      NamesNoAddress opt net query := by
  unfold requestAddr NamesNoAddress
  by_cases hnamed : opt.allowProxy = true ∧ queryGet (ascii "ip") query ≠ []
  · rw [if_pos hnamed]
    cases h4 : net.pton4 (cStr (queryGet (ascii "ip") query)) with
    | some a =>
        simp [Address.ofSockaddrIn, Address.family]
    | none =>
        cases h6 : net.pton6 (cStr (queryGet (ascii "ip") query)) with
        | some a =>
            have hfamily :
                (Address.ofSockaddrIn6 ⟨0, a, 0⟩).family ≠ .unspec :=
              Address.family_ofSockaddr_ne_unspec raw (s := .inet6 ⟨0, a, 0⟩)
                trivial
            simpa using hfamily
        | none =>
            simp [Address.family, hnamed]
  · rw [if_neg hnamed]
    have hfamily := Address.family_ofSockaddr_ne_unspec raw hip
    simp only [hfamily, false_iff]
    rintro ⟨hproxy, hfilled, -⟩
    exact hnamed ⟨hproxy, hfilled⟩

end AnnounceHandler

namespace Tracker

section Registrations

/-- The sockets of the servers are IPv4 or IPv6 sockets. -/
def Event.FromIp : Event → Prop
  | .accept _ remoteAddr => remoteAddr.IsIp
  | .udp (.recvfrom d) => d.addr.IsIp
  | _ => True

/-- All peers of all torrents have an IPv4 or an IPv6 address. -/
def PeersReachable (σ : Tracker) : Prop :=
  σ.tdb.All Torrent.HasAddresses

/--
The event is an HTTP announce that is registered in a torrent under an `ip`
that is no address.
-/
def RegistersNoAddress (opt : Options) (host : Host) (σ : Tracker) :
    Event → Prop
  | .request channel rq _ _ =>
      σ.channels.lookup channel ≠ none ∧
      rq.location = ascii "/announce" ∧
      (queryGet (ascii "peer_id") rq.query).length = 20 ∧
      (queryGet (ascii "info_hash") rq.query).length = 20 ∧
      AnnounceRequest.parseEvent (queryGet (ascii "event") rq.query) ≠
        .stopped ∧
      σ.tdb.lookup (queryGet (ascii "info_hash") rq.query) ≠ none ∧
      AnnounceHandler.NamesNoAddress opt host.net rq.query ∧
      opt.maxPeers ≠ 0
  | _ => False

/-- The invariant of the tracker that the addresses rest on. -/
structure Addressed (opt : Options) (σ : Tracker) : Prop where
  bounded : σ.tdb.All (Torrent.Bounded opt)
  channels : ∀ c remoteAddr, σ.channels.lookup c = some remoteAddr →
    remoteAddr.IsIp

variable {opt : Options} {host : Host}

theorem addressed_step {σ : Tracker} {e : Event} (he : e.FromIp)
    (h : Addressed opt σ) : Addressed opt (step opt host σ e) where
  bounded :=
    tdb_step_induction
      (fun now request _ hall => hall.announce fun t ht =>
        Torrent.bounded_step (hall _ t ht) (.announce now request))
      (fun path hall => FsTreeWhiteList.all_visit hall
        (Torrent.bounded_new opt) _ _ path)
      (fun hall => FsTreeWhiteList.all_check hall _ _)
      (fun now hall => hall.cleanup now fun t now ht =>
        Torrent.bounded_step ht (.cleanup now))
      h.bounded
  channels := by
    intro c remoteAddr hc
    rcases lookup_channels_step hc with
      hc | rfl | ⟨rq, now, raw, addr, rfl, haddr, rfl⟩
    · exact h.channels c remoteAddr hc
    · exact he
    · exact LogHandler.isIp_handle opt host.net raw
        (h.channels c addr haddr) rq.headers

theorem addressed_start (tree : Tree) (udp : UdpServer) :
    Addressed opt (start tree udp) where
  bounded := TorrentDb.all_empty
  channels := by
    intro c remoteAddr hc
    simp [start] at hc

/-- What reaches the database of an HTTP announce. -/
theorem httpAnnounced_eq_some {σ : Tracker} {channel : Nat}
    {rq : HttpRequest} {raw : Block 18} {request : AnnounceRequest}
    (hrq : httpAnnounced opt host σ channel rq raw = some request) :
    ∃ remoteAddr, σ.channels.lookup channel = some remoteAddr ∧
      rq.location = ascii "/announce" ∧
      AnnounceHandler.request opt host.net raw
        (LogHandler.handle opt host.net raw remoteAddr rq.headers) rq.query =
          some request := by
  unfold httpAnnounced at hrq
  obtain ⟨remoteAddr, hchannel, hrq⟩ := Option.bind_eq_some_iff.mp hrq
  split at hrq
  · rename_i hlocation
    exact ⟨remoteAddr, hchannel, hlocation, hrq⟩
  · cases hrq

/-- A UDP announce comes from the address of its datagram. -/
theorem family_announceRequest (opt : Options) {d : UdpServer.Datagram}
    (hip : d.addr.IsIp) (buf : List UInt8) :
    (UdpServer.announceRequest opt d buf).addr.family ≠ .unspec := by
  rw [UdpServer.announceRequest, Address.family_setPort]
  split
  · simp [Address.family]
  · exact Address.family_ofSockaddr_ne_unspec _ hip

/-- An HTTP announce registers a peer without an address by its `ip`. -/
theorem registersNoAddress_request_iff {σ : Tracker} (h : Addressed opt σ)
    {channel : Nat} {rq : HttpRequest} {now : Int} {raw : Block 18}
    {request : AnnounceRequest}
    (hhttp : httpAnnounced opt host σ channel rq raw = some request) :
    RegistersNoAddress opt host σ (.request channel rq now raw) ↔
      σ.tdb.lookup request.infoHash.bytes ≠ none ∧
        request.event ≠ .stopped ∧ request.addr.family = .unspec ∧
          opt.maxPeers ≠ 0 := by
  obtain ⟨remoteAddr, hchannel, hlocation, hrequest⟩ :=
    httpAnnounced_eq_some hhttp
  have hip := LogHandler.isIp_handle opt host.net raw
    (h.channels channel remoteAddr hchannel) rq.headers
  unfold AnnounceHandler.request at hrequest
  split at hrequest
  · rename_i hsize
    obtain rfl := Option.some.inj hrequest
    have hfamily := AnnounceHandler.family_requestAddr opt host.net raw
      hip rq.query
    rw [AnnounceHandler.bytes_requestOf]
    simp only [AnnounceHandler.requestOf, Address.family_setPort, hfamily]
    constructor
    · rintro ⟨-, -, -, -, hevent, hknown, hname, hmax⟩
      exact ⟨hknown, hevent, hname, hmax⟩
    · rintro ⟨hknown, hevent, hname, hmax⟩
      exact ⟨by rw [hchannel]; exact Option.some_ne_none _, hlocation,
        hsize.1, hsize.2, hevent, hknown, hname, hmax⟩
  · cases hrequest

theorem family_udpAnnounced {udp : UdpServer} {d : UdpServer.Datagram}
    (hd : d.addr.IsIp) {request : AnnounceRequest}
    (hudp : UdpServer.announced opt udp d = some request) :
    request.addr.family ≠ .unspec := by
  unfold UdpServer.announced at hudp
  split at hudp
  · have hfamily := family_announceRequest opt hd d.filled
    rwa [Option.some.inj hudp] at hfamily
  · cases hudp

/-- The events that register a peer without an address. -/
theorem registersNoAddress_iff {σ : Tracker} {e : Event} (he : e.FromIp)
    (h : Addressed opt σ) {now : Int} {request : AnnounceRequest}
    (hrq : announced opt host σ e = some (now, request)) :
    RegistersNoAddress opt host σ e ↔
      σ.tdb.lookup request.infoHash.bytes ≠ none ∧
        request.event ≠ .stopped ∧ request.addr.family = .unspec ∧
          opt.maxPeers ≠ 0 := by
  cases e with
  | request channel rq now' raw =>
      obtain ⟨request', hhttp, heq⟩ := Option.map_eq_some_iff.mp hrq
      obtain ⟨-, rfl⟩ := Prod.mk.inj heq
      exact registersNoAddress_request_iff h hhttp
  | udp e =>
      cases e with
      | genSecret now rnd => cases hrq
      | sendto now result => cases hrq
      | recvfrom d =>
          obtain ⟨request', hudp, heq⟩ := Option.map_eq_some_iff.mp hrq
          obtain ⟨-, rfl⟩ := Prod.mk.inj heq
          exact ⟨False.elim,
            fun hright => family_udpAnnounced he hudp hright.2.2.1⟩
  | changeTree tree => cases hrq
  | visit path => cases hrq
  | check => cases hrq
  | cleanup now => cases hrq
  | accept channel remoteAddr => cases hrq
  | close channel => cases hrq

/-- An event that reaches no torrent registers nothing. -/
theorem not_registersNoAddress {σ : Tracker} {e : Event}
    (hrq : announced opt host σ e = none) :
    ¬ RegistersNoAddress opt host σ e := by
  intro hregisters
  cases e with
  | request channel rq now raw =>
      obtain ⟨hchannel, hlocation, hpeer, hhash, -⟩ := hregisters
      obtain ⟨remoteAddr, haddr⟩ := Option.ne_none_iff_exists'.mp hchannel
      simp [announced, httpAnnounced, haddr, hlocation,
        AnnounceHandler.request, hpeer, hhash] at hrq
  | _ => exact hregisters

/-- Apart from announces, no event takes an address away. -/
theorem peersReachable_step_of_none {σ : Tracker} {e : Event}
    (h : Addressed opt σ) (hpeers : PeersReachable σ)
    (hrq : announced opt host σ e = none) :
    PeersReachable (step opt host σ e) := by
  have hcases := tdb_step opt host σ e
  rw [hrq] at hcases
  unfold PeersReachable
  rcases hcases with hsame | ⟨path, hstep⟩ | hstep | ⟨now, hstep⟩
  · rw [hsame]
    exact hpeers
  · rw [hstep]
    exact FsTreeWhiteList.all_visit hpeers Torrent.hasAddresses_new _ _ _
  · rw [hstep]
    exact FsTreeWhiteList.all_check hpeers _ _
  · rw [hstep]
    intro k t' hk
    rw [TorrentDb.lookup_cleanup] at hk
    obtain ⟨t, ht, rfl⟩ := Option.map_eq_some_iff.mp hk
    exact Torrent.hasAddresses_cleanup (h.bounded k t ht) _ (hpeers k t ht)

/-- An announce can only spoil the torrent that it names. -/
theorem all_hasAddresses_announce_iff {tdb : TorrentDb}
    (hbounded : tdb.All (Torrent.Bounded opt))
    (hpeers : tdb.All Torrent.HasAddresses) (now : Int)
    (request : AnnounceRequest) :
    (tdb.announce opt now request).2.All Torrent.HasAddresses ↔
      ¬ (tdb.lookup request.infoHash.bytes ≠ none ∧
        request.event ≠ .stopped ∧ request.addr.family = .unspec ∧
          opt.maxPeers ≠ 0) := by
  cases hfound : tdb.lookup request.infoHash.bytes with
  | none =>
      rw [TorrentDb.announce_of_none opt now hfound]
      simp only [ne_eq, not_true_eq_false, false_and, not_false_eq_true,
        iff_true]
      exact hpeers
  | some t =>
      have htorrent := Torrent.hasAddresses_announce_iff
        (hbounded _ t hfound) now request (hpeers _ t hfound)
      simp only [ne_eq, reduceCtorEq, not_false_eq_true, true_and]
      rw [← ne_eq, ← ne_eq, ← htorrent]
      constructor
      · intro hall
        apply hall request.infoHash.bytes
        rw [TorrentDb.lookup_announce, if_pos rfl, hfound]
        rfl
      · intro hnext
        apply TorrentDb.All.announce hpeers
        intro t' ht'
        rw [hfound] at ht'
        rw [← Option.some.inj ht']
        exact hnext

/-- The peers keep having addresses exactly if the event does not spoil it. -/
theorem peersReachable_step_iff {σ : Tracker} {e : Event} (he : e.FromIp)
    (h : Addressed opt σ) (hpeers : PeersReachable σ) :
    PeersReachable (step opt host σ e) ↔
      ¬ RegistersNoAddress opt host σ e := by
  cases hrq : announced opt host σ e with
  | none =>
      exact iff_of_true (peersReachable_step_of_none h hpeers hrq)
        (not_registersNoAddress hrq)
  | some a =>
      obtain ⟨now, request⟩ := a
      have hstep := tdb_step opt host σ e
      rw [hrq] at hstep
      rw [registersNoAddress_iff he h hrq, PeersReachable, hstep]
      exact all_hasAddresses_announce_iff h.bounded hpeers now request

/-- An announce hands out the addresses of peers. -/
theorem family_answer {σ : Tracker} {e : Event}
    (h : Addressed opt σ) (hpeers : PeersReachable σ)
    {rp : AnnounceResponse} (hrp : answer opt host σ e = some rp)
    {a : Address} (ha : a ∈ rp.addrs) : a.family ≠ .unspec := by
  obtain ⟨⟨now, request⟩, -, rfl⟩ := Option.map_eq_some_iff.mp hrp
  cases hfound : σ.tdb.lookup request.infoHash.bytes with
  | none =>
      rw [TorrentDb.announce_of_none opt now hfound] at ha
      cases ha
  | some t =>
      rw [TorrentDb.announce_of_some opt now hfound] at ha
      obtain ⟨x, hx, rfl⟩ :=
        Torrent.mem_addrs_announce (h.bounded _ t hfound).rep ha
      exact Torrent.hasAddresses_iff.mp (hpeers _ t hfound) x hx

theorem throughout_peersReachable_iff
    (opt : Options) (host : Host) (tree : Tree) (udp : UdpServer)
    {events : List Event} (hip : ∀ e ∈ events, e.FromIp) :
    Runs.Throughout (step opt host) PeersReachable (start tree udp) events ↔
      Runs.StepsMeet (step opt host)
        (fun σ e => ¬ RegistersNoAddress opt host σ e)
        (start tree udp) events :=
  Runs.throughout_iff_stepsMeet (E := Event.FromIp) (I := Addressed opt)
    (P := fun σ e => ¬ RegistersNoAddress opt host σ e)
    (fun _ _ he h => addressed_step he h)
    (fun _ _ he h hpeers => peersReachable_step_iff he h hpeers)
    (addressed_start tree udp) TorrentDb.all_empty hip

/--
**When every registered peer has an IPv4 or an IPv6 address.**  In a run from
IP sockets all peers have one exactly if no announce that names something else
is registered, and then every address handed out is one.
-/
theorem peersReachable_throughout_iff
    (opt : Options) (host : Host) (tree : Tree) (udp : UdpServer)
    {events : List Event} (hip : ∀ e ∈ events, e.FromIp) :
    (Runs.Throughout (step opt host) PeersReachable (start tree udp) events ↔
      Runs.StepsMeet (step opt host)
        (fun σ e => ¬ RegistersNoAddress opt host σ e)
        (start tree udp) events) ∧
    (Runs.Throughout (step opt host) PeersReachable (start tree udp) events →
      ∀ before e after, events = before ++ e :: after →
      ∀ rp, answer opt host
          (Runs.run (step opt host) (start tree udp) before) e = some rp →
        ∀ a ∈ rp.addrs, a.family = .inet ∨ a.family = .inet6) := by
  refine ⟨throughout_peersReachable_iff opt host tree udp hip, ?_⟩
  rintro hpeers before e after rfl rp hrp a ha
  have haddressed : Addressed opt
      (Runs.run (step opt host) (start tree udp) before) := by
    apply Runs.run_invariant_of_events (E := Event.FromIp)
      (fun _ _ he h => addressed_step he h) (addressed_start tree udp)
    intro e' he'
    exact hip e' (List.mem_append_left _ he')
  have hbefore := Runs.throughout_iff_prefix.mp hpeers before (e :: after) rfl
  have hfamily := family_answer haddressed hbefore hrp ha
  cases hcase : a.family with
  | unspec => exact (hfamily hcase).elim
  | inet => exact Or.inl rfl
  | inet6 => exact Or.inr rfl

/-- A client at `10.0.0.1` announces the sample torrent under a DNS name. -/
def namedRun : List Event :=
  [.visit pathA,
    .accept 0 sampleClient,
    .request 0
      { location := ascii "/announce"
        query :=
          [(ascii "peer_id", ascii "-XX0001-000000000001"),
            (ascii "info_hash", sampleDesc.infoHashV1.val),
            (ascii "port", ascii "6881"),
            (ascii "ip", ascii "peer.example")]
        headers := [] } 0 (zeros 18)]

theorem fromIp_namedRun : ∀ e ∈ namedRun, e.FromIp := by
  intro e he
  simp only [namedRun, List.mem_cons, List.not_mem_nil, or_false] at he
  rcases he with rfl | rfl | rfl <;> trivial

/-- Without `allow-proxy` the name is not looked at. -/
theorem peersReachable_throughout_iff_named_run :
    Runs.Throughout (step sampleOptions sampleHost) PeersReachable
      (start (treeWith pathA) UdpServer.new) namedRun := by
  apply (peersReachable_throughout_iff sampleOptions sampleHost
    (treeWith pathA) UdpServer.new fromIp_namedRun).1.mpr
  refine ⟨id, id, ?_, trivial⟩
  rintro ⟨-, -, -, -, -, -, ⟨hproxy, -⟩, -⟩
  revert hproxy
  decide

/-- With `allow-proxy` the name is registered as an address without a family. -/
theorem peersReachable_false_of_name :
    (∀ e ∈ namedRun, e.FromIp) ∧
      ¬ Runs.Throughout
        (step { sampleOptions with allowProxy := true } sampleHost)
        PeersReachable (start (treeWith pathA) UdpServer.new) namedRun := by
  refine ⟨fromIp_namedRun, ?_⟩
  rw [throughout_peersReachable_iff _ _ _ _ fromIp_namedRun]
  rintro ⟨-, -, hspoil, -⟩
  apply hspoil
  refine ⟨?_, rfl, by decide, by decide, by decide, ?_,
    ⟨rfl, by decide, by decide, by decide⟩, by decide⟩
  · show some _ ≠ none
    exact Option.some_ne_none _
  · show some (FsTreeWhiteList.torrentV1 pathA sampleDesc) ≠ none
    exact Option.some_ne_none _

end Registrations

end Tracker

end Hefur
