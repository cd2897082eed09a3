import Mathlib.Algebra.Ring.Parity
import Hefur.Http

/-!
# Requests through a reverse proxy

The model of `log-handler.cc`: what the handler makes of the remote address of
the connection before it passes a request on.

The handler asks whether the remote address is the proxy's, and if so replaces
it by the address in the request's header.  The new remote address stays on the
connection, where the next request finds it.

`attributed_iff_undisturbed` says when every request of a connection is still
attributed to the right address.
-/

namespace Hefur
namespace LogHandler

open Bytes

section Model

/-- The test on `REVERSE_PROXY_FROM` and `REVERSE_PROXY_HEADER`. -/
def trusts (opt : Options) (ipStr : Text) : Bool :=
  opt.reverseProxyFrom ≠ [] && opt.reverseProxyHeader ≠ [] &&
    (opt.reverseProxyFrom = ascii "0.0.0.0" ||
      opt.reverseProxyFrom = ascii "::" ||
      opt.reverseProxyFrom = ipStr)

/-- The value of the configured header, or the empty string. -/
def realIp (opt : Options) (headers : Params) : Text :=
  queryGet opt.reverseProxyHeader headers

/-- The socket address made of `text`, if `inet_pton` accepts it. -/
def parseAddr (net : Inet) (port : UInt16) (text : Text) : Option Sockaddr :=
  match net.pton4 (cStr text) with
  | some sinAddr => some (.inet ⟨port, sinAddr⟩)
  | none =>
      match net.pton6 (cStr text) with
      | some sin6Addr =>
          if sin6Addr.val.take 12 ≠ v4MappedPrefix then
            some (.inet6 ⟨port, sin6Addr, 0⟩)
          else
            some (.inet ⟨port, lastFour sin6Addr⟩)
      | none => none

/--
The remote address after `handle`, which is the one that the inner handler
sees.  `port` is in the byte order of the host and is stored as it is.
-/
def handle (opt : Options) (net : Inet) (raw : Block 18)
    (remoteAddr : Sockaddr) (headers : Params) : Sockaddr :=
  let originalIp := Address.ofSockaddr raw remoteAddr
  if trusts opt (originalIp.ipStr net) ∧ realIp opt headers ≠ [] then
    (parseAddr net originalIp.port (realIp opt headers)).getD remoteAddr
  else remoteAddr

end Model

section Attribution

/-- The address that the header of a request names, mapped ones as IPv4. -/
def namedIp (opt : Options) (net : Inet) (headers : Params) : Option Ip :=
  if realIp opt headers = [] then none
  else
    (parseAddr net 0 (realIp opt headers)).bind fun s =>
      (Address.ofSockaddr (zeros 18) s).ip

/--
The request is attributed to the address its own header names, and to the
proxy's socket address if the header names none.
-/
def Attributed (opt : Options) (net : Inet) (raw : Block 18)
    (proxy : Sockaddr) (before : List Params) (headers : Params) : Prop :=
  let seen := Address.ofSockaddr raw
    (handle opt net raw (Runs.run (handle opt net raw) proxy before) headers)
  match namedIp opt net headers with
  | some ip => seen.ip = some ip
  | none => seen = Address.ofSockaddr raw proxy

/--
What the earlier headers of a connection may name, so that a request naming
`own` is attributed right.  If one of them names an address that is not
trusted, `own` is the first such address.  Otherwise, if there is no `own`, the
latest of them names the proxy, and the port has been swapped back.
-/
def Undisturbed (opt : Options) (net : Inet) (proxy : Address)
    (earlier : List Ip) (own : Option Ip) : Prop :=
  match earlier.find? (fun ip => !trusts opt (ip.text net)) with
  | some ip => own = some ip
  | none =>
      own ≠ none ∨ earlier = [] ∨
        (earlier.getLast? = proxy.ip ∧
          (Even earlier.length ∨ htons proxy.port = proxy.port))

variable {opt : Options} {net : Inet} {raw : Block 18}

/-- A parsed address, read back, is the named IP with the port as given. -/
theorem ofSockaddr_parseAddr (raw : Block 18)
    {port : UInt16} {text : Text} {s : Sockaddr}
    (hs : parseAddr net port text = some s) :
    ∃ ip, Address.ofSockaddr raw s = ip.withPort port ∧
      (parseAddr net 0 text).bind
        (fun s => (Address.ofSockaddr (zeros 18) s).ip) = some ip := by
  unfold parseAddr at hs ⊢
  cases h4 : net.pton4 (cStr text) with
  | some a =>
      simp only [h4, Option.some.injEq] at hs ⊢
      subst hs
      exact ⟨.v4 a, rfl, rfl⟩
  | none =>
      cases h6 : net.pton6 (cStr text) with
      | none =>
          simp [h4, h6] at hs
      | some a =>
          simp only [h4, h6] at hs ⊢
          split at hs
          · rename_i hmapped
            obtain rfl := Option.some.inj hs
            refine ⟨.v6 a, ?_, ?_⟩
            · simp [Address.ofSockaddr, Address.ofSockaddrIn6, hmapped,
                Ip.withPort]
            · simp [Address.ofSockaddr, Address.ofSockaddrIn6, hmapped,
                Address.ip]
          · rename_i hmapped
            obtain rfl := Option.some.inj hs
            refine ⟨.v4 (lastFour a), rfl, ?_⟩
            rw [if_neg hmapped]
            rfl

/-- Whether a text is an address does not depend on the port. -/
theorem parseAddr_eq_none {port port' : UInt16} {text : Text} :
    parseAddr net port text = none ↔ parseAddr net port' text = none := by
  unfold parseAddr
  cases net.pton4 (cStr text) with
  | some a => simp
  | none =>
      cases net.pton6 (cStr text) with
      | none => simp
      | some a =>
          dsimp only
          split <;> simp

theorem handle_of_not_trusted {remoteAddr : Sockaddr} (headers : Params)
    (hnot : trusts opt ((Address.ofSockaddr raw remoteAddr).ipStr net) = false) :
    handle opt net raw remoteAddr headers = remoteAddr := by
  simp [handle, hnot]

/-- A request without an address in its header changes nothing. -/
theorem handle_of_namedIp_none {headers : Params} (remoteAddr : Sockaddr)
    (hnone : namedIp opt net headers = none) :
    handle opt net raw remoteAddr headers = remoteAddr := by
  unfold namedIp at hnone
  unfold handle
  split at hnone
  · rename_i hempty
    simp [hempty]
  · dsimp only
    split
    · cases hparse : parseAddr net (Address.ofSockaddr raw remoteAddr).port
          (realIp opt headers) with
      | none => rfl
      | some s =>
          obtain ⟨ip, -, hip⟩ := ofSockaddr_parseAddr raw hparse
          rw [hip] at hnone
          cases hnone
    · rfl

/-- A trusted address is replaced by the named one, with its port swapped. -/
theorem handle_of_namedIp_some (raw : Block 18)
    {headers : Params} {remoteAddr : Sockaddr} {ip : Ip}
    (htrust : trusts opt ((Address.ofSockaddr raw remoteAddr).ipStr net) = true)
    (hsome : namedIp opt net headers = some ip) :
    Address.ofSockaddr raw (handle opt net raw remoteAddr headers) =
      ip.withPort (Address.ofSockaddr raw remoteAddr).port := by
  unfold namedIp at hsome
  split at hsome
  · cases hsome
  · rename_i hfilled
    cases hparse : parseAddr net (Address.ofSockaddr raw remoteAddr).port
        (realIp opt headers) with
    | none =>
        rw [parseAddr_eq_none.mp hparse] at hsome
        cases hsome
    | some s =>
        obtain ⟨ip', haddr, hip⟩ := ofSockaddr_parseAddr raw hparse
        rw [hip] at hsome
        obtain rfl := Option.some.inj hsome
        simp only [handle, htrust, hparse, hfilled, ne_eq, not_false_eq_true,
          and_self, if_true, Option.getD_some]
        exact haddr

theorem swap16_iterate (n : Nat) (w : UInt16) :
    swap16^[n] w = w ↔ Even n ∨ swap16 w = w := by
  rcases Nat.even_or_odd n with heven | hodd
  · have hinv : Function.Involutive swap16 := swap16_swap16
    simp [hinv.iterate_even heven, heven]
  · have hinv : Function.Involutive swap16 := swap16_swap16
    simp [hinv.iterate_odd hodd, hodd]

/-- The addresses that the requests of a connection name, in order. -/
def namedIps (opt : Options) (net : Inet) (requests : List Params) :
    List Ip :=
  requests.filterMap (namedIp opt net)

/-- The first of them that ends the trust in the connection. -/
def untrusted (opt : Options) (net : Inet) (named : List Ip) : Option Ip :=
  named.find? (fun ip => !trusts opt (ip.text net))

theorem trusts_latest {pip : Ip} {named : List Ip}
    (hproxy : trusts opt (pip.text net) = true)
    (hnone : untrusted opt net named = none) :
    trusts opt ((named.getLast?.getD pip).text net) = true := by
  cases hlast : named.getLast? with
  | none =>
      exact hproxy
  | some ip =>
      have hmem := List.mem_of_getLast? hlast
      simpa using List.find?_eq_none.mp hnone ip hmem

/-- An address that ended the trust is not trusted. -/
theorem trusts_untrusted {named : List Ip} {ip : Ip}
    (hlost : untrusted opt net named = some ip) :
    trusts opt (ip.text net) = false := by
  simpa using List.find?_some hlost

theorem untrusted_concat (named : List Ip) (own : Ip) :
    untrusted opt net (named ++ [own]) =
      (untrusted opt net named).or (untrusted opt net [own]) :=
  List.find?_append

/--
The remote address after requests that named some addresses: the first address
that is not trusted stays; without one, it is the latest, and its port has been
swapped every time.
-/
structure Follows (opt : Options) (net : Inet) (pip : Ip) (word : UInt16)
    (named : List Ip) (addr : Address) : Prop where
  lost : ∀ ip, untrusted opt net named = some ip → addr.ip = some ip
  kept : untrusted opt net named = none →
    addr = (named.getLast?.getD pip).withPort (swap16^[named.length] word)

section Steps

variable {pip : Ip} {word : UInt16} {named : List Ip} {remoteAddr : Sockaddr}

/-- Once the trust is gone, a request changes nothing. -/
theorem Follows.ignores
    (h : Follows opt net pip word named (Address.ofSockaddr raw remoteAddr))
    {ip : Ip} (hlost : untrusted opt net named = some ip)
    (headers : Params) :
    handle opt net raw remoteAddr headers = remoteAddr := by
  obtain ⟨word', hword⟩ := Address.exists_withPort_of_ip (h.lost ip hlost)
  apply handle_of_not_trusted
  rw [hword, Address.ipStr_withPort]
  exact trusts_untrusted hlost

/-- A trusted remote address is replaced by the one that is named. -/
theorem Follows.replaced
    (h : Follows opt net pip word named (Address.ofSockaddr raw remoteAddr))
    (hproxy : trusts opt (pip.text net) = true)
    (hnone : untrusted opt net named = none)
    {headers : Params} {own : Ip} (hown : namedIp opt net headers = some own) :
    Address.ofSockaddr raw (handle opt net raw remoteAddr headers) =
      own.withPort (swap16^[named.length + 1] word) := by
  have htrusted : trusts opt
      ((Address.ofSockaddr raw remoteAddr).ipStr net) = true := by
    rw [h.kept hnone, Address.ipStr_withPort]
    exact trusts_latest hproxy hnone
  rw [handle_of_namedIp_some raw htrusted hown, h.kept hnone,
    Address.port_withPort, Function.iterate_succ_apply']
  rfl

theorem Follows.step
    (h : Follows opt net pip word named (Address.ofSockaddr raw remoteAddr))
    (hproxy : trusts opt (pip.text net) = true)
    {headers : Params} {own : Ip} (hown : namedIp opt net headers = some own) :
    Follows opt net pip word (named ++ [own])
      (Address.ofSockaddr raw (handle opt net raw remoteAddr headers)) := by
  cases hfirst : untrusted opt net named with
  | some ip =>
      have hstays : untrusted opt net (named ++ [own]) = some ip := by
        rw [untrusted_concat, hfirst, Option.some_or]
      rw [h.ignores hfirst]
      constructor
      · intro ip' hip'
        rw [← hip', hstays]
        exact h.lost ip hfirst
      · intro hnone
        rw [hstays] at hnone
        cases hnone
  | none =>
      rw [h.replaced hproxy hfirst hown]
      constructor
      · intro ip hip
        rw [untrusted_concat, hfirst, Option.none_or] at hip
        have hmem := List.mem_of_find?_eq_some hip
        rw [List.mem_singleton.mp hmem, Address.ip_withPort]
      · intro _
        simp

end Steps

/-- The remote address after a list of requests. -/
theorem remoteAddr_spec {proxy : Sockaddr} {pip : Ip} {word : UInt16}
    (haddr : Address.ofSockaddr raw proxy = pip.withPort word)
    (hproxy : trusts opt (pip.text net) = true) (before : List Params) :
    Follows opt net pip word (namedIps opt net before)
      (Address.ofSockaddr raw
        (Runs.run (handle opt net raw) proxy before)) := by
  induction before using List.reverseRecOn with
  | nil =>
      refine ⟨?_, fun _ => haddr⟩
      intro ip hip
      cases hip
  | append_singleton before headers ih =>
      rw [Runs.run_append, Runs.run_cons, Runs.run_nil, namedIps,
        List.filterMap_append]
      cases hown : namedIp opt net headers with
      | none =>
          have hnothing : [headers].filterMap (namedIp opt net) = [] := by
            simp [hown]
          rw [handle_of_namedIp_none _ hown, hnothing, List.append_nil]
          exact ih
      | some own =>
          have hone : [headers].filterMap (namedIp opt net) = [own] := by
            simp [hown]
          rw [hone]
          exact ih.step hproxy hown

/-- Without an own address, a request shows the proxy if nothing changed. -/
theorem withPort_latest_iff {pip : Ip} {word : UInt16} (named : List Ip) :
    (named.getLast?.getD pip).withPort (swap16^[named.length] word) =
        pip.withPort word ↔
      named = [] ∨ (named.getLast? = some pip ∧
        (Even named.length ∨ htons (ntohs word) = ntohs word)) := by
  have hswap : htons (ntohs word) = ntohs word ↔ swap16 word = word := by
    show swap16 (swap16 word) = swap16 word ↔ _
    rw [swap16_swap16, eq_comm]
  simp only [Address.withPort_inj, swap16_iterate, hswap]
  cases hlast : named.getLast? with
  | none =>
      have hnil := List.getLast?_eq_none_iff.mp hlast
      simp [hnil]
  | some ip =>
      have hcons : named ≠ [] := by
        rintro rfl
        cases hlast
      simp [hcons]

/-- One request is attributed right exactly if it is undisturbed. -/
theorem attributed_iff
    {proxy : Sockaddr} (hip : proxy.IsIp)
    (hproxy : trusts opt ((Address.ofSockaddr raw proxy).ipStr net) = true)
    (before : List Params) (headers : Params) :
    Attributed opt net raw proxy before headers ↔
      Undisturbed opt net (Address.ofSockaddr raw proxy)
        (namedIps opt net before) (namedIp opt net headers) := by
  obtain ⟨pip, word, haddr⟩ := Address.exists_withPort_ofSockaddr raw hip
  rw [haddr, Address.ipStr_withPort] at hproxy
  have hremote := remoteAddr_spec haddr hproxy before
  unfold Attributed Undisturbed
  rw [haddr, Address.ip_withPort, Address.port_withPort]
  cases hfirst : untrusted opt net (namedIps opt net before) with
  | some ip =>
      obtain ⟨word', hword⟩ :=
        Address.exists_withPort_of_ip (hremote.lost ip hfirst)
      have hnot := trusts_untrusted hfirst
      rw [untrusted] at hfirst
      rw [hremote.ignores hfirst, hword, hfirst]
      cases hown : namedIp opt net headers with
      | some own =>
          simp [eq_comm]
      | none =>
          have hne : ip ≠ pip := by
            rintro rfl
            rw [hproxy] at hnot
            cases hnot
          simp [Address.withPort_inj, hne]
  | none =>
      have hkept := hremote.kept hfirst
      cases hown : namedIp opt net headers with
      | some own =>
          rw [hremote.replaced hproxy hfirst hown]
          rw [untrusted] at hfirst
          rw [hfirst]
          simp
      | none =>
          rw [handle_of_namedIp_none _ hown, hkept]
          rw [untrusted] at hfirst
          rw [hfirst]
          simp only [ne_eq, not_true_eq_false, false_or]
          exact withPort_latest_iff (namedIps opt net before)

/-- Every request has `P` of the requests before it and of its headers. -/
def OnEvery (requests : List Params) (P : List Params → Params → Prop) :
    Prop :=
  ∀ before headers after, requests = before ++ headers :: after →
    P before headers

/--
**When a kept-alive connection attributes every request right.**
-/
theorem attributed_iff_undisturbed
    (opt : Options) (net : Inet) (raw : Block 18)
    {proxy : Sockaddr} (hip : proxy.IsIp)
    (hproxy : trusts opt ((Address.ofSockaddr raw proxy).ipStr net) = true)
    (requests : List Params) :
    OnEvery requests (Attributed opt net raw proxy) ↔
      OnEvery requests fun before headers =>
        Undisturbed opt net (Address.ofSockaddr raw proxy)
          (namedIps opt net before) (namedIp opt net headers) := by
  constructor
  · intro h before headers after hsplit
    exact (attributed_iff hip hproxy before headers).mp
      (h before headers after hsplit)
  · intro h before headers after hsplit
    exact (attributed_iff hip hproxy before headers).mpr
      (h before headers after hsplit)

section Clients

/-- Options that name a proxy at `10.0.0.1`. -/
def proxiedOptions : Options :=
  { reverseProxyFrom := ascii "10.0.0.1" }

def proxySocket : Sockaddr :=
  .inet ⟨0x1234, sampleIp⟩

/-- The headers of a request that the proxy forwards for `ip`. -/
def forwardedFor (ip : String) : Params :=
  [(ascii "X-Real-IP", ascii ip)]

instance (proxy : Address) (earlier : List Ip) (own : Option Ip) :
    Decidable (Undisturbed opt net proxy earlier own) :=
  match h : earlier.find? (fun ip => !trusts opt (ip.text net)) with
  | some ip => decidable_of_iff (own = some ip) (by simp [Undisturbed, h])
  | none =>
      decidable_of_iff
        (own ≠ none ∨ earlier = [] ∨
          (earlier.getLast? = proxy.ip ∧
            (Even earlier.length ∨ htons proxy.port = proxy.port)))
        (by simp [Undisturbed, h])

/-- Two requests that the proxy forwards for one client. -/
theorem attributed_iff_undisturbed_one_client :
    OnEvery [forwardedFor "192.0.2.1", forwardedFor "192.0.2.1"]
      (Attributed proxiedOptions Inet.plain (zeros 18) proxySocket) := by
  rw [attributed_iff_undisturbed proxiedOptions Inet.plain (zeros 18)
    (by decide) (by decide)]
  intro before headers after hsplit
  rcases before with _ | ⟨first, _ | ⟨second, rest⟩⟩
  · simp only [List.nil_append, List.cons.injEq] at hsplit
    obtain ⟨rfl, -⟩ := hsplit
    decide
  · simp only [List.cons_append, List.nil_append, List.cons.injEq] at hsplit
    obtain ⟨rfl, rfl, -⟩ := hsplit
    decide
  · simp at hsplit

/--
The second of two clients behind the proxy is taken for the first one.
-/
theorem attributed_false_of_second_client :
    trusts proxiedOptions
        ((Address.ofSockaddr (zeros 18) proxySocket).ipStr Inet.plain) = true ∧
      ¬ OnEvery [forwardedFor "192.0.2.1", forwardedFor "192.0.2.2"]
        (Attributed proxiedOptions Inet.plain (zeros 18) proxySocket) := by
  refine ⟨by decide, ?_⟩
  intro h
  have hsecond := h [forwardedFor "192.0.2.1"] (forwardedFor "192.0.2.2") []
    rfl
  rw [attributed_iff (by decide) (by decide)] at hsecond
  revert hsecond
  decide

end Clients

end Attribution

end LogHandler
end Hefur
