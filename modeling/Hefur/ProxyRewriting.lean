import Hefur.LogHandler
import Hefur.Presentation

/-!
# The address that a proxy forwards

What `LogHandler::handle` makes of a single request: the remote address that it
leaves on the channel, read back as an `Address`.

The handler takes the port of the connection in the byte order of the host and
stores it where a socket address has it in network byte order.  The IP is always
the one in the header; the port is right exactly if its two bytes are equal
(`rewritesRight_iff`).
-/

namespace Hefur
namespace LogHandler

open Bytes

section Rewriting

/-- The IP that the text of the header writes, mapped ones as IPv4. -/
def headerIp (opt : Options) (net : Inet) (headers : Params) : Option Ip :=
  if realIp opt headers = [] then none
  else Ip.ofText net (cStr (realIp opt headers))

/-- The handler reads that IP out of the header. -/
theorem namedIp_eq_headerIp (opt : Options) (net : Inet)
    (headers : Params) :
    namedIp opt net headers = headerIp opt net headers := by
  unfold namedIp headerIp
  split
  · rfl
  · unfold parseAddr Ip.ofText
    cases net.pton4 (cStr (realIp opt headers)) with
    | some a => rfl
    | none =>
        cases net.pton6 (cStr (realIp opt headers)) with
        | none => rfl
        | some a =>
            dsimp only [Option.bind_some]
            split
            · rename_i hplain
              simp [Address.ofSockaddr, Address.ofSockaddrIn6, hplain]
            · rename_i hmapped
              rw [Address.ofSockaddrIn6, if_neg hmapped]
              rfl

variable (opt : Options) (net : Inet) (raw : Block 18)
variable (remoteAddr : Sockaddr) (headers : Params)

/-- The connection is the proxy's. -/
def FromProxy : Prop :=
  trusts opt ((Address.ofSockaddr raw remoteAddr).ipStr net) = true

instance : Decidable (FromProxy opt net raw remoteAddr) :=
  inferInstanceAs (Decidable (_ = true))

/-- The remote address after the request, as the inner handlers read it. -/
def seen : Address :=
  Address.ofSockaddr raw (handle opt net raw remoteAddr headers)

/--
A request of the proxy that names an IP shows this IP, with the port of the
connection; any other request leaves the remote address as it is.
-/
structure RewritesRight : Prop where
  named : ∀ ip, FromProxy opt net raw remoteAddr →
    headerIp opt net headers = some ip →
      (seen opt net raw remoteAddr headers).ip = some ip ∧
        (seen opt net raw remoteAddr headers).port =
          (Address.ofSockaddr raw remoteAddr).port
  kept : ¬ FromProxy opt net raw remoteAddr ∨
    headerIp opt net headers = none →
      handle opt net raw remoteAddr headers = remoteAddr

/-- Both bytes of the port are the same, so that swapping them is harmless. -/
def Palindromic (port : UInt16) : Prop :=
  port.toNat / 256 = port.toNat % 256

theorem swap16_eq_self_iff {word : UInt16} :
    swap16 word = word ↔ Palindromic word := by
  have hlt := word.toNat_lt
  rw [← UInt16.toNat_inj, toNat_swap16, Palindromic]
  omega

/-- The named IP is set, and the port is swapped. -/
theorem seen_of_headerIp {ip : Ip}
    (hproxy : FromProxy opt net raw remoteAddr)
    (hip : headerIp opt net headers = some ip) :
    (seen opt net raw remoteAddr headers).ip = some ip ∧
      (seen opt net raw remoteAddr headers).port =
        swap16 (Address.ofSockaddr raw remoteAddr).port := by
  have haddr := handle_of_namedIp_some raw hproxy
    ((namedIp_eq_headerIp opt net headers).trans hip)
  rw [seen, haddr]
  exact ⟨Address.ip_withPort ip _, Address.port_withPort ip _⟩

theorem handle_of_kept
    (hkept : ¬ FromProxy opt net raw remoteAddr ∨
      headerIp opt net headers = none) :
    handle opt net raw remoteAddr headers = remoteAddr := by
  rcases hkept with hnot | hnone
  · exact handle_of_not_trusted headers (Bool.eq_false_iff.mpr hnot)
  · exact handle_of_namedIp_none remoteAddr
      ((namedIp_eq_headerIp opt net headers).trans hnone)

/--
**When a proxied address is rewritten right.**  A request of the proxy that
names an IP keeps the port exactly if its two bytes are equal; everything else
about the rewriting is right.
-/
theorem rewritesRight_iff :
    RewritesRight opt net raw remoteAddr headers ↔
      (FromProxy opt net raw remoteAddr →
        headerIp opt net headers ≠ none →
          Palindromic (Address.ofSockaddr raw remoteAddr).port) := by
  constructor
  · intro h hproxy hsome
    obtain ⟨ip, hip⟩ := Option.ne_none_iff_exists'.mp hsome
    have hport := (h.named ip hproxy hip).2
    rw [(seen_of_headerIp opt net raw remoteAddr headers hproxy hip).2]
      at hport
    exact swap16_eq_self_iff.mp hport
  · intro h
    refine ⟨?_, handle_of_kept opt net raw remoteAddr headers⟩
    intro ip hproxy hip
    have hpal := h hproxy (by simp [hip])
    obtain ⟨hseen, hport⟩ :=
      seen_of_headerIp opt net raw remoteAddr headers hproxy hip
    exact ⟨hseen, hport.trans (swap16_eq_self_iff.mpr hpal)⟩

/-- A request for `192.0.2.1` from port 4660 of the proxy shows port 13330. -/
theorem not_rewritesRight_port :
    ¬ RewritesRight proxiedOptions Inet.plain (zeros 18)
      (.inet ⟨0x3412, sampleIp⟩) (forwardedFor "192.0.2.1") := by
  intro h
  have hport := (h.named (.v4 ⟨[192, 0, 2, 1], rfl⟩) (by decide) (by decide)).2
  revert hport
  decide

end Rewriting

end LogHandler
end Hefur
