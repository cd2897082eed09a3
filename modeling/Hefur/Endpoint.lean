import Hefur.TorrentHistory

/-!
# The identity of a peer

A peer is identified by the endpoint of its socket: its IP, where an
IPv4-mapped IPv6 address stands for the IPv4 address, and the announced port.
The code compares endpoints in two ways: the index of peers compares the bytes
of `key()`, which leave out the family, and the loop that collects the
addresses of a reply compares addresses with `operator==`.

`peer_identity` says that both decide the equality of endpoints, so that in an
announce both mean the same peer.
-/

namespace Hefur

open Bytes

section Endpoints

/-- The endpoint of an IP socket, with the port that is announced. -/
def Sockaddr.endpoint (port : UInt16) : Sockaddr → Option (Ip × UInt16)
  | .inet sin => some (.v4 sin.sinAddr, port)
  | .inet6 sin6 =>
      if v4MappedPrefix <+: sin6.sin6Addr.val then
        some (.v4 (lastFour sin6.sin6Addr), port)
      else
        some (.v6 sin6.sin6Addr, port)
  | .other _ => none

theorem htons_inj {port port' : UInt16} :
    htons port = htons port' ↔ port = port' := by
  constructor
  · intro h
    rw [← swap16_swap16 port, ← swap16_swap16 port']
    exact congrArg swap16 h
  · rintro rfl
    rfl

/-- The conversion of a socket address keeps its endpoint. -/
theorem exists_endpoint (raw : Block 18) {s : Sockaddr} (hs : s.IsIp)
    (port : UInt16) :
    ∃ ip : Ip, s.endpoint port = some (ip, port) ∧
      (Address.ofSockaddr raw s).setPort port = ip.withPort (htons port) := by
  cases s with
  | inet sin =>
      exact ⟨.v4 sin.sinAddr, rfl, rfl⟩
  | inet6 sin6 =>
      have hprefix : v4MappedPrefix <+: sin6.sin6Addr.val ↔
          sin6.sin6Addr.val.take 12 = v4MappedPrefix := by
        rw [List.prefix_iff_eq_take, eq_comm]
        rfl
      simp only [Sockaddr.endpoint, Address.ofSockaddr, Address.ofSockaddrIn6,
        hprefix]
      by_cases hmapped : sin6.sin6Addr.val.take 12 = v4MappedPrefix
      · rw [if_pos hmapped, if_neg (not_not_intro hmapped)]
        exact ⟨.v4 (lastFour sin6.sin6Addr), rfl, rfl⟩
      · rw [if_neg hmapped, if_pos hmapped]
        exact ⟨.v6 sin6.sin6Addr, rfl, rfl⟩
  | other f =>
      exact hs.elim

end Endpoints

namespace Torrent

section SelfExclusion

variable {t : Torrent} {opt : Options} {now : Int} {request : AnnounceRequest}

/-- The peer that an announce finds or creates holds its data. -/
theorem createOrUpdatePeer_holds (h : Rep t) {p : Ptr} {t' : Torrent}
    (hcreate : t.createOrUpdatePeer opt now request
      (t.peers.lookup request.addr.key) = (some p, t')) :
    Rep t' ∧ p ∈ t'.timeouts ∧ t'.mem p = peerOf opt now request ∧
      ∀ q, t.peers.lookup request.addr.key = some q → q = p := by
  have hrep := rep_createOrUpdatePeer h opt now request
  rw [hcreate] at hrep
  refine ⟨hrep, ?_⟩
  cases hk : t.peers.lookup request.addr.key with
  | none =>
      rw [hk, createOrUpdatePeer_none] at hcreate
      obtain ⟨hp, rfl⟩ := Prod.mk.inj hcreate
      obtain rfl := Option.some.inj hp
      simp
  | some q =>
      rw [hk, createOrUpdatePeer_some] at hcreate
      obtain ⟨hp, rfl⟩ := Prod.mk.inj hcreate
      obtain rfl := Option.some.inj hp
      exact ⟨by simp, by simp, fun _ heq => (Option.some.inj heq).symm⟩

/--
In the announce of `request`, the peer that the index has is the one that is
updated, and the test on addresses skips exactly this peer.
-/
def MeansOnePeer (opt : Options) (now : Int) (request : AnnounceRequest)
    (t : Torrent) : Prop :=
  ∀ p t', t.createOrUpdatePeer opt now request
      (t.peers.lookup request.addr.key) = (some p, t') →
    (∀ q, t.peers.lookup request.addr.key = some q → q = p) ∧
      ∀ q ∈ t'.timeouts, request.addr.same (t'.mem q).addr = true ↔ q = p

theorem meansOnePeer (h : Rep t) (hfamily : request.addr.family ≠ .unspec) :
    MeansOnePeer opt now request t := by
  intro p t' hcreate
  obtain ⟨hrep, hp, hdata, hfound⟩ := createOrUpdatePeer_holds h hcreate
  refine ⟨hfound, ?_⟩
  intro q hq
  rw [Address.same_iff]
  constructor
  · rintro ⟨-, haddr⟩
    apply hrep.key_injective hq hp
    rw [hdata, key_peerOf, haddr]
    rfl
  · rintro rfl
    rw [hdata]
    exact ⟨hfamily, rfl⟩

end SelfExclusion

end Torrent

section Identity

/--
**Peer identity is the endpoint.**  Of the addresses of two IP sockets, with any
two ports, `operator==` and the keys decide whether the endpoints are equal, and
`port()` is the port that was set.  In an announce from such an address, the
index and the test on addresses mean the same peer.
-/
theorem peer_identity (raw raw' : Block 18) {a b : Sockaddr}
    (ha : a.IsIp) (hb : b.IsIp) (port port' : UInt16) :
    let x := (Address.ofSockaddr raw a).setPort port
    let y := (Address.ofSockaddr raw' b).setPort port'
    (x.same y = true ↔ x.key = y.key) ∧
    (x.key = y.key ↔ a.endpoint port = b.endpoint port') ∧
    x.port = port ∧
    ∀ opt infoHash name path length ops now request, request.addr = x →
      Torrent.MeansOnePeer opt now request
        (Runs.run (Torrent.step opt)
          (Torrent.new infoHash name path length) ops) := by
  intro x y
  obtain ⟨ip, hip, hx⟩ := exists_endpoint raw ha port
  obtain ⟨ip', hip', hy⟩ := exists_endpoint raw' hb port'
  change x = ip.withPort (htons port) at hx
  change y = ip'.withPort (htons port') at hy
  have hfamily : x.family ≠ .unspec :=
    hx ▸ Address.family_withPort_ne_unspec ip (htons port)
  have hfamily' : y.family ≠ .unspec :=
    hy ▸ Address.family_withPort_ne_unspec ip' (htons port')
  have hkey := Address.key_inj hfamily hfamily'
  refine ⟨?_, ?_, ?_, ?_⟩
  · rw [Address.same_iff, hkey]
    exact and_iff_right hfamily
  · rw [hkey, hip, hip', Option.some.injEq, Prod.mk.injEq, hx, hy,
      Address.withPort_inj, htons_inj]
  · rw [hx, Address.port_withPort]
    exact swap16_swap16 port
  · intro opt infoHash name path length ops now request haddr
    exact Torrent.meansOnePeer
      (Torrent.rep_run opt infoHash name path length ops) (haddr ▸ hfamily)

/-- The sample address over IPv6. -/
def mappedSampleIp : Block 16 :=
  ⟨v4MappedPrefix ++ sampleIp.val, rfl⟩

/-- A client is one peer over both families. -/
theorem peer_identity_mapped :
    let x := (Address.ofSockaddr (zeros 18)
      (.inet ⟨0, sampleIp⟩)).setPort 6881
    let y := (Address.ofSockaddr (zeros 18)
      (.inet6 ⟨5, mappedSampleIp, 0⟩)).setPort 6881
    x.same y = true ∧ x.key = y.key ∧ x.port = 6881 := by
  intro x y
  obtain ⟨hsame, hkey, hport, -⟩ := peer_identity (zeros 18) (zeros 18)
    (a := .inet ⟨0, sampleIp⟩) (b := .inet6 ⟨5, mappedSampleIp, 0⟩)
    trivial trivial 6881 6881
  have hkeys := hkey.mpr (by decide)
  exact ⟨hsame.mpr hkeys, hkeys, hport⟩

end Identity

end Hefur
