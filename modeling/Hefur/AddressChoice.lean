import Hefur.Spoofing

/-!
# The address a client may name

With `allow-proxy` on, a client may name the address it wants to be registered
under: an HTTP client in the parameter `ip`, a UDP client in a field of its
datagram.  A client that names nothing leaves the parameter empty or the field
zero, and should then be registered under the address of its socket
(`FollowsRule`).

The HTTP page falls back on the address of the socket; the UDP server takes the
field as it is.  `addressChoice_iff` says when each of them follows the rule.
-/

namespace Hefur

open Bytes

section Rule

/-- What a client says of its address. -/
inductive Naming where
  | nothing
  | address (ip : Ip)
  | invalid
deriving DecidableEq

/-- The address the rule gives, if the client does not name something else. -/
def Naming.choice (own : Address) : Naming → Option Address
  | .nothing => some own
  | .address ip => some (ip.withPort 0)
  | .invalid => none

/-- `addr` is the address that the rule gives, with the announced port. -/
def FollowsRule (naming : Naming) (own : Address) (port : UInt16)
    (addr : Address) : Prop :=
  (naming.choice own).map (Address.setPort port) = some addr

end Rule

namespace AnnounceHandler

variable {opt : Options} {net : Inet} {raw : Block 18}
variable {remoteAddr : Sockaddr} {query : Params}

/-- The `ip` parameter of a query. -/
def naming (net : Inet) (query : Params) : Naming :=
  let ip := queryGet (ascii "ip") query
  if ip = [] then .nothing
  else
    match Ip.ofText net (cStr ip) with
    | some ip => .address ip
    | none => .invalid

def announcedPort (query : Params) : UInt16 :=
  UInt16.ofInt (atoi (queryGet (ascii "port") query))

theorem addr_request {rq : AnnounceRequest}
    (hrq : request opt net raw remoteAddr query = some rq) :
    rq.addr = (requestAddr opt net raw remoteAddr
      (queryGet (ascii "ip") query)).setPort (announcedPort query) := by
  unfold request at hrq
  split at hrq
  · rw [← Option.some.inj hrq]
    rfl
  · cases hrq

/-- The page takes the address that the rule gives, if there is one. -/
theorem choice_naming (hallow : opt.allowProxy = true)
    (raw : Block 18) (remoteAddr : Sockaddr)
    (hvalid : naming net query ≠ .invalid) :
    (naming net query).choice (Address.ofSockaddr raw remoteAddr) =
      some (requestAddr opt net raw remoteAddr
        (queryGet (ascii "ip") query)) := by
  unfold naming at hvalid ⊢
  unfold requestAddr
  by_cases hempty : queryGet (ascii "ip") query = []
  · simp [hempty, Naming.choice]
  · simp only [hallow, hempty, ne_eq, not_false_eq_true, and_self, if_true,
      if_false] at hvalid ⊢
    unfold Ip.ofText at hvalid ⊢
    cases h4 : net.pton4 (cStr (queryGet (ascii "ip") query)) with
    | some sinAddr =>
        rfl
    | none =>
        cases h6 : net.pton6 (cStr (queryGet (ascii "ip") query)) with
        | none =>
            simp [h4, h6] at hvalid
        | some sin6Addr =>
            obtain ⟨ip, hip⟩ :=
              Address.exists_withPort_ofSockaddrIn6 ⟨0, sin6Addr, 0⟩
            simp [hip, Naming.choice]

theorem followsRule_iff (hallow : opt.allowProxy = true)
    {rq : AnnounceRequest}
    (hrq : request opt net raw remoteAddr query = some rq) :
    FollowsRule (naming net query) (Address.ofSockaddr raw remoteAddr)
        (announcedPort query) rq.addr ↔
      naming net query ≠ .invalid := by
  constructor
  · intro hfollows hinvalid
    rw [FollowsRule, hinvalid] at hfollows
    cases hfollows
  · intro hvalid
    rw [FollowsRule, choice_naming hallow raw remoteAddr hvalid,
      addr_request hrq]
    rfl

end AnnounceHandler

namespace UdpServer

variable {opt : Options} {s : UdpServer} {d : Datagram}

/-- The address field of a datagram. -/
def Datagram.naming (d : Datagram) : Naming :=
  let field := peek 84 4 d.bytes
  if field = zeros 4 then .nothing else .address (.v4 field)

def Datagram.announcedPort (d : Datagram) : UInt16 :=
  UInt16.ofNat (readBE 96 2 d.bytes)

theorem addr_announced (hallow : opt.allowProxy = true)
    {rq : AnnounceRequest} (hrq : announced opt s d = some rq) :
    rq.addr = (Address.inet (peek 84 4 d.bytes) 0).setPort d.announcedPort := by
  unfold announced at hrq
  split at hrq
  · rename_i hadmitted
    rw [← Option.some.inj hrq, announceRequest]
    simp only [hallow, if_true]
    rw [peek_filled (by omega) (by omega), readBE,
      peek_filled (by omega) (by omega)]
    rfl
  · cases hrq

/-- The server takes a zero field for the address `0.0.0.0`. -/
theorem followsRule_iff (hallow : opt.allowProxy = true)
    {rq : AnnounceRequest} (hrq : announced opt s d = some rq) :
    FollowsRule d.naming (Address.ofSockaddr d.raw d.addr) d.announcedPort
        rq.addr ↔
      d.naming ≠ .nothing ∨
        (Address.ofSockaddr d.raw d.addr).ip = some (.v4 (zeros 4)) := by
  rw [FollowsRule, addr_announced hallow hrq, Datagram.naming]
  by_cases hzero : peek 84 4 d.bytes = zeros 4
  · simp only [hzero, if_true, Naming.choice, Option.map_some]
    cases Address.ofSockaddr d.raw d.addr with
    | unspec raw => simp [Address.setPort, Address.ip]
    | inet addr word => simp [Address.setPort, Address.ip]
    | inet6 addr word => simp [Address.setPort, Address.ip]
  · simp [hzero, Naming.choice, Ip.withPort]

end UdpServer

/--
**The choice of the address.**  With `allow-proxy` on, the HTTP page follows
the rule unless the client names something that is no address.  The UDP server
follows it unless the client names nothing (and is not itself at `0.0.0.0`).
-/
theorem addressChoice_iff {opt : Options} (hallow : opt.allowProxy = true)
    (net : Inet) :
    (∀ raw remoteAddr query rq,
      AnnounceHandler.request opt net raw remoteAddr query = some rq →
      (FollowsRule (AnnounceHandler.naming net query)
          (Address.ofSockaddr raw remoteAddr)
          (AnnounceHandler.announcedPort query) rq.addr ↔
        AnnounceHandler.naming net query ≠ .invalid)) ∧
    (∀ s d rq, UdpServer.announced opt s d = some rq →
      (FollowsRule d.naming (Address.ofSockaddr d.raw d.addr)
          d.announcedPort rq.addr ↔
        d.naming ≠ .nothing ∨
          (Address.ofSockaddr d.raw d.addr).ip = some (.v4 (zeros 4)))) :=
  ⟨fun _ _ _ _ hrq => AnnounceHandler.followsRule_iff hallow hrq,
    fun _ _ _ hrq => UdpServer.followsRule_iff hallow hrq⟩

section Sample

open Tracker

def proxyOptions : Options :=
  { allowProxy := true }

/-- An HTTP client that names nothing, and a UDP client that names itself. -/
theorem addressChoice_iff_two_clients :
    (∃ rq, AnnounceHandler.request proxyOptions Inet.plain (zeros 18)
        clientSocket sampleAnnounce.query = some rq ∧
      FollowsRule .nothing (.inet clientIp 6881) 6881 rq.addr) ∧
    (∃ rq, UdpServer.announced proxyOptions UdpServer.new
        (datagramNaming [10, 0, 0, 2]) = some rq ∧
      FollowsRule (.address (.v4 clientIp))
        (.inet clientIp 6881) 0 rq.addr) := by
  obtain ⟨hhttp, hudp⟩ := addressChoice_iff (show proxyOptions.allowProxy = true
    from rfl) Inet.plain
  refine ⟨⟨_, rfl, ?_⟩, ⟨_, if_pos (by decide), ?_⟩⟩
  · exact (hhttp (zeros 18) clientSocket sampleAnnounce.query _ rfl).mpr
      (by decide)
  · exact (hudp UdpServer.new (datagramNaming [10, 0, 0, 2]) _
      (if_pos (by decide))).mpr (by decide)

/-- A UDP client that names nothing is registered as `0.0.0.0`. -/
theorem udp_registers_zero_address :
    ∃ rq, UdpServer.announced proxyOptions UdpServer.new
        (datagramNaming [0, 0, 0, 0]) = some rq ∧
      rq.addr.ip = some (.v4 (zeros 4)) ∧
      ¬ FollowsRule (datagramNaming [0, 0, 0, 0]).naming
        (Address.ofSockaddr (zeros 18) clientSocket)
        (datagramNaming [0, 0, 0, 0]).announcedPort rq.addr := by
  have hrq : UdpServer.announced proxyOptions UdpServer.new
      (datagramNaming [0, 0, 0, 0]) =
        some (UdpServer.announceRequest proxyOptions
          (datagramNaming [0, 0, 0, 0])
          (datagramNaming [0, 0, 0, 0]).filled) := if_pos (by decide)
  refine ⟨_, hrq, ?_, ?_⟩
  · rw [UdpServer.addr_announced rfl hrq]
    decide
  · intro hfollows
    have hcondition := (UdpServer.followsRule_iff rfl hrq).mp hfollows
    revert hcondition
    decide

end Sample

end Hefur
