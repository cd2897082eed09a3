import Hefur.Presentation
import Hefur.Tracker

/-!
# Clients cannot name another address

With `allow-proxy` off, three inputs of a client could still reach the address
it is registered under: the `ip` parameter, the header of the reverse proxy,
and the address field of a UDP announce.  Two runs that differ in these alone
(`Event.SameButIp`) are compared.

The header is the hard one, since it changes the remote address of its
connection.  It never does so for a socket that is not the proxy's, and by
`ClientsOnly` every open connection has such a socket in every state.

The main result is `spoofing_has_no_effect`.
-/

namespace Hefur

open Bytes

section Sources

/-- `reverse-proxy-from` is the address `proxy` and no wildcard. -/
structure NamesProxy (opt : Options) (net : Inet) (proxy : Ip) : Prop where
  named : Ip.ofText net opt.reverseProxyFrom = some proxy
  concrete :
    opt.reverseProxyFrom ≠ ascii "0.0.0.0" ∧
      opt.reverseProxyFrom ≠ ascii "::"

/-- `reverse-proxy-from` is empty or one concrete address. -/
def AtMostOneProxy (opt : Options) (net : Inet) : Prop :=
  opt.reverseProxyFrom = [] ∨ ∃ proxy, NamesProxy opt net proxy

/-- An IP socket that is not the proxy's. -/
structure IsClient (opt : Options) (net : Inet) (s : Sockaddr) : Prop where
  isIp : s.IsIp
  notProxy : ∀ proxy, NamesProxy opt net proxy →
    (Address.ofSockaddr (zeros 18) s).ip ≠ some proxy

variable {opt : Options} {net : Inet} {s : Sockaddr}

/-- The address of an IP socket does not show the memory it is stored in. -/
theorem ofSockaddr_raw (hs : s.IsIp) (raw raw' : Block 18) :
    Address.ofSockaddr raw s = Address.ofSockaddr raw' s := by
  cases s with
  | inet sin => rfl
  | inet6 sin6 => rfl
  | other f => exact hs.elim

theorem trusts_client (hnet : net.Lawful) (hproxy : AtMostOneProxy opt net)
    (hs : IsClient opt net s) (raw : Block 18) :
    LogHandler.trusts opt ((Address.ofSockaddr raw s).ipStr net) = false := by
  rcases hproxy with hempty | ⟨proxy, hproxy⟩
  · simp [LogHandler.trusts, hempty]
  · obtain ⟨ip, word, haddr⟩ :=
      Address.exists_withPort_ofSockaddr raw hs.isIp
    have hip : (Address.ofSockaddr raw s).ip = some ip := by
      rw [haddr, Address.ip_withPort]
    have hne : opt.reverseProxyFrom ≠ ip.text net := by
      intro htext
      apply hs.notProxy proxy hproxy
      rw [ofSockaddr_raw hs.isIp (zeros 18) raw, hip, ← hproxy.named, htext,
        Ip.ofText_text hnet (reduced_ofSockaddr hip)]
    rw [haddr, Address.ipStr_withPort]
    simp [LogHandler.trusts, hproxy.concrete.1, hproxy.concrete.2, hne]

/-- The header of a client changes nothing on its connection. -/
theorem handle_client (hnet : net.Lawful) (hproxy : AtMostOneProxy opt net)
    (hs : IsClient opt net s) (raw : Block 18) (headers : Params) :
    LogHandler.handle opt net raw s headers = s :=
  LogHandler.handle_of_not_trusted headers (trusts_client hnet hproxy hs raw)

end Sources

section Queries

/-- The parameters, or headers, of another name. -/
def without (hidden : Text) (params : Params) : Params :=
  params.filter fun param => param.1 ≠ hidden

variable {hidden name : Text}

theorem lookup_without (hne : name ≠ hidden) (params : Params) :
    (without hidden params).lookup name = params.lookup name := by
  induction params with
  | nil =>
      rfl
  | cons param params ih =>
      obtain ⟨other, value⟩ := param
      by_cases hhidden : other = hidden
      · have hother : (name == other) = false := by
          rw [hhidden]
          exact beq_false_of_ne hne
        rw [without, List.filter_cons_of_neg (by simp [hhidden]),
          List.lookup_cons, hother]
        exact ih
      · rw [without, List.filter_cons_of_pos (by simp [hhidden]),
          List.lookup_cons, List.lookup_cons, ← ih]
        rfl

theorem queryGet_without (hne : name ≠ hidden) (params : Params) :
    queryGet name (without hidden params) = queryGet name params := by
  rw [queryGet, queryGet, lookup_without hne]

theorem queryAll_without (hne : name ≠ hidden) (params : Params) :
    queryAll name (without hidden params) = queryAll name params := by
  rw [queryAll, queryAll, without, List.filterMap_filter]
  congr 1
  funext param
  by_cases hname : param.1 = name
  · simp [hname, hne]
  · simp [hname]

/-- With `allow-proxy` off the `ip` parameter is not read. -/
theorem handle_without_ip {opt : Options} {s : Sockaddr}
    (hallow : opt.allowProxy = false) (hs : s.IsIp)
    (net : Inet) (now : Int) (raw raw' : Block 18)
    (query : Params) (db : TorrentDb) :
    AnnounceHandler.handle opt net now raw s
        (without (ascii "ip") query) db =
      AnnounceHandler.handle opt net now raw' s query db := by
  have hget : ∀ name, name ≠ ascii "ip" →
      queryGet name (without (ascii "ip") query) = queryGet name query :=
    fun name hne => queryGet_without hne query
  have hlookup : ∀ name, name ≠ ascii "ip" →
      (without (ascii "ip") query).lookup name = query.lookup name :=
    fun name hne => lookup_without hne query
  have haddr : ∀ ip ip', AnnounceHandler.requestAddr opt net raw s ip =
      AnnounceHandler.requestAddr opt net raw' s ip' := by
    intro ip ip'
    simp only [AnnounceHandler.requestAddr, hallow, Bool.false_eq_true,
      false_and, if_false]
    exact ofSockaddr_raw hs raw raw'
  have hnumWant : AnnounceHandler.numWant opt (without (ascii "ip") query) =
      AnnounceHandler.numWant opt query := by
    rw [AnnounceHandler.numWant, AnnounceHandler.numWant,
      hlookup _ (by decide)]
  have hrequest : AnnounceHandler.request opt net raw s
      (without (ascii "ip") query) =
        AnnounceHandler.request opt net raw' s query := by
    simp only [AnnounceHandler.request, AnnounceHandler.requestOf, hnumWant,
      hget _ (show ascii "peer_id" ≠ ascii "ip" by decide),
      hget _ (show ascii "info_hash" ≠ ascii "ip" by decide),
      hget _ (show ascii "event" ≠ ascii "ip" by decide),
      hget _ (show ascii "downloaded" ≠ ascii "ip" by decide),
      hget _ (show ascii "uploaded" ≠ ascii "ip" by decide),
      hget _ (show ascii "left" ≠ ascii "ip" by decide),
      hget _ (show ascii "port" ≠ ascii "ip" by decide),
      haddr _ (queryGet (ascii "ip") query)]
  rw [AnnounceHandler.handle, AnnounceHandler.handle,
    AnnounceHandler.announce, AnnounceHandler.announce, hrequest,
    hlookup _ (by decide)]

end Queries

namespace UdpServer

section Datagrams

/-- Two datagrams that differ in the address field of an announce at most. -/
structure Datagram.SameButIp (d d' : Datagram) : Prop where
  now : d.now = d'.now
  addr : d.addr = d'.addr
  alloc : d.alloc = d'.alloc
  length : d.bytes.length = d'.bytes.length
  bytes : ∀ i, ¬ (d.action = 1 ∧ 84 ≤ i ∧ i < 88) →
    d.bytes[i]? = d'.bytes[i]?

variable {opt : Options} {d d' : Datagram}

theorem Datagram.SameButIp.size (h : d.SameButIp d') : d.size = d'.size := by
  rw [d.size_eq, d'.size_eq, h.length]

theorem Datagram.SameButIp.peek (h : d.SameButIp d') {off len : Nat}
    (hapart : off + len ≤ 84 ∨ 88 ≤ off) :
    Bytes.peek off len d.bytes = Bytes.peek off len d'.bytes := by
  apply peek_congr
  intro i hlow hhigh
  exact h.bytes i (by omega)

theorem Datagram.SameButIp.action (h : d.SameButIp d') :
    d.action = d'.action := by
  rw [Datagram.action, Datagram.action, readBE, readBE, h.peek (by omega)]

/-- The fields in the buffer, whatever it held before. -/
theorem Datagram.SameButIp.peek_filled (h : d.SameButIp d') {off len : Nat}
    (hin : off + len ≤ d.size) (hapart : off + len ≤ 8 ∨ 12 ≤ off)
    (hip : off + len ≤ 84 ∨ 88 ≤ off) :
    Bytes.peek off len d.filled = Bytes.peek off len d'.filled := by
  have hin' : off + len ≤ d'.size := h.size ▸ hin
  rw [UdpServer.peek_filled hin hapart, UdpServer.peek_filled hin' hapart,
    h.peek hip]

/-- Without an announce there is no address field. -/
theorem Datagram.SameButIp.bytes_eq (h : d.SameButIp d')
    (haction : d.action ≠ 1) : d.bytes = d'.bytes :=
  List.ext_getElem? fun i => h.bytes i fun hannounce => haction hannounce.1

/-- With `allow-proxy` off the address field is not read. -/
theorem announceRequest_sameButIp (h : d.SameButIp d')
    (hallow : opt.allowProxy = false) (hip : d.addr.IsIp)
    (hsize : 98 ≤ d.size) :
    announceRequest opt d d.filled = announceRequest opt d' d'.filled := by
  have haddr : Address.ofSockaddr d.raw d.addr =
      Address.ofSockaddr d'.raw d'.addr := by
    rw [← h.addr]
    exact ofSockaddr_raw hip d.raw d'.raw
  have hfield : ∀ off len, 12 ≤ off → off + len ≤ 98 →
      (off + len ≤ 84 ∨ 88 ≤ off) →
        peek off len d.filled = peek off len d'.filled :=
    fun off len hlow hhigh hapart =>
      h.peek_filled (by omega) (by omega) hapart
  simp only [announceRequest, readBE, hallow, haddr, Bool.false_eq_true,
    if_false, hfield 36 20 (by omega) (by omega) (by omega),
    hfield 16 20 (by omega) (by omega) (by omega),
    hfield 92 4 (by omega) (by omega) (by omega),
    hfield 80 4 (by omega) (by omega) (by omega),
    hfield 56 8 (by omega) (by omega) (by omega),
    hfield 72 8 (by omega) (by omega) (by omega),
    hfield 64 8 (by omega) (by omega) (by omega),
    hfield 96 2 (by omega) (by omega) (by omega)]

theorem scrapeRequest_sameButIp (h : d.SameButIp d')
    (haction : d.action ≠ 1) (hsize : 16 ≤ d.size) :
    scrapeRequest d.filled d.size = scrapeRequest d'.filled d'.size := by
  have hsame := h.size
  rw [scrapeRequest, scrapeRequest, ← hsame]
  congr 1
  apply List.map_congr_left
  intro i hi
  have hlast : i < (d.size - 16) / 20 := List.mem_range.mp hi
  rw [peek_filled (by omega) (by omega), peek_filled (by omega) (by omega),
    h.bytes_eq haction]

/-- Of both datagrams the same is read. -/
theorem Datagram.SameButIp.readsAs (h : d.SameButIp d')
    (hallow : opt.allowProxy = false) (hip : d.addr.IsIp) :
    d.ReadsAs opt d' where
  now := h.now
  addr := h.addr
  alloc := h.alloc
  size := h.size
  connectionId := by
    intro hsize
    rw [connectionIdField, connectionIdField,
      h.peek_filled (by omega) (by omega) (by omega)]
  action := by
    intro hsize
    have hsame := h.size
    rw [actionField_filled (by omega), actionField_filled (by omega)]
    exact h.action
  transactionId := by
    intro hsize
    exact h.peek_filled hsize (by omega) (by omega)
  announce := by
    intro _ hsize
    exact announceRequest_sameButIp h hallow hip hsize
  scrape := by
    intro haction hsize
    exact scrapeRequest_sameButIp h (by omega) hsize

end Datagrams

end UdpServer

namespace Tracker

section Runs

/-- What a client gets: the reply to a request, or a datagram. -/
inductive Output where
  | page (channel : Nat) (reply : Reply)
  | datagram (sent : SendToBuffer)

/-- The output of a step, if any. -/
def output (opt : Options) (host : Host) (σ : Tracker) :
    Event → Option Output
  | .request channel rq now raw =>
      (σ.channels.lookup channel).map fun remoteAddr =>
        let remoteAddr :=
          LogHandler.handle opt host.net raw remoteAddr rq.headers
        .page channel (serve opt host remoteAddr rq now raw σ.tdb).1
  | .udp (.sendto _ .sent) => σ.udp.sbufs.head?.map .datagram
  | _ => none

/-- Two requests that differ in the `ip` parameter and the header at most. -/
structure RequestSameButIp (opt : Options) (rq rq' : HttpRequest) :
    Prop where
  location : rq.location = rq'.location
  query : without (ascii "ip") rq.query = without (ascii "ip") rq'.query
  headers : without opt.reverseProxyHeader rq.headers =
    without opt.reverseProxyHeader rq'.headers

/-- Two events that differ in what a client says of its address at most. -/
inductive Event.SameButIp (opt : Options) : Event → Event → Prop where
  | same (e : Event) : SameButIp opt e e
  | request (channel : Nat) (now : Int) (raw raw' : Block 18)
      {rq rq' : HttpRequest} (h : RequestSameButIp opt rq rq') :
      SameButIp opt (.request channel rq now raw)
        (.request channel rq' now raw')
  | datagram {d d' : UdpServer.Datagram} (h : d.SameButIp d') :
      SameButIp opt (.udp (.recvfrom d)) (.udp (.recvfrom d'))

/-- The sockets that the event brings in are not the proxy's. -/
def Event.FromClients (opt : Options) (net : Inet) : Event → Prop
  | .accept _ remoteAddr => IsClient opt net remoteAddr
  | .udp (.recvfrom d) => IsClient opt net d.addr
  | _ => True

/-- The remote address of every open connection is not the proxy's. -/
def ClientsOnly (opt : Options) (net : Inet) (σ : Tracker) : Prop :=
  ∀ c remoteAddr, σ.channels.lookup c = some remoteAddr →
    IsClient opt net remoteAddr

variable {opt : Options} {host : Host} {σ : Tracker}

theorem clientsOnly_step (hnet : host.net.Lawful)
    (hproxy : AtMostOneProxy opt host.net)
    (hσ : ClientsOnly opt host.net σ) {e : Event}
    (he : e.FromClients opt host.net) :
    ClientsOnly opt host.net (step opt host σ e) := by
  intro c remoteAddr hc
  rcases lookup_channels_step hc with
    hopen | rfl | ⟨rq, now, raw, addr, -, hopen, rfl⟩
  · exact hσ c remoteAddr hopen
  · exact he
  · have haddr := hσ c addr hopen
    rw [handle_client hnet hproxy haddr]
    exact haddr

theorem serve_sameButIp (host : Host) (hallow : opt.allowProxy = false)
    {remoteAddr : Sockaddr} (hip : remoteAddr.IsIp) {rq rq' : HttpRequest}
    (hrq : RequestSameButIp opt rq rq') (now : Int) (raw raw' : Block 18)
    (tdb : TorrentDb) :
    serve opt host remoteAddr rq now raw tdb =
      serve opt host remoteAddr rq' now raw' tdb := by
  have hannounce :
      AnnounceHandler.handle opt host.net now raw remoteAddr rq.query tdb =
        AnnounceHandler.handle opt host.net now raw' remoteAddr rq'.query
          tdb := by
    rw [← handle_without_ip hallow hip host.net now raw raw,
      ← handle_without_ip hallow hip host.net now raw raw', hrq.query]
  have hscrape : ScrapeHandler.handle opt rq.query tdb =
      ScrapeHandler.handle opt rq'.query tdb := by
    have hname : ascii "info_hash" ≠ ascii "ip" := by decide
    rw [ScrapeHandler.handle, ScrapeHandler.handle, ScrapeHandler.request,
      ScrapeHandler.request,
      ← queryAll_without hname rq.query, ← queryAll_without hname rq'.query,
      hrq.query]
  rw [serve, serve, hrq.location, hannounce, hscrape]

/-- Two such events take a tracker to one state and give the same reply. -/
theorem step_sameButIp (hnet : host.net.Lawful)
    (hallow : opt.allowProxy = false)
    (hproxy : AtMostOneProxy opt host.net)
    (hσ : ClientsOnly opt host.net σ) {e e' : Event}
    (he : e.FromClients opt host.net) (hsame : e.SameButIp opt e') :
    step opt host σ e = step opt host σ e' ∧
      output opt host σ e = output opt host σ e' := by
  cases hsame with
  | same e =>
      exact ⟨rfl, rfl⟩
  | request channel now raw raw' hrq =>
      cases hopen : σ.channels.lookup channel with
      | none =>
          simp [step, output, hopen]
      | some remoteAddr =>
          have hclient := hσ channel remoteAddr hopen
          have hserve := serve_sameButIp host hallow
            hclient.isIp hrq now raw raw' σ.tdb
          simp only [step, output, hopen, Option.map_some,
            handle_client hnet hproxy hclient, hserve, and_self]
  | datagram hd =>
      have hstep := UdpServer.receiveDatagram_congr σ.udp σ.tdb
        (hd.readsAs hallow he.isIp)
      simp only [step, UdpServer.step, hstep, output, and_self]

/--
**Spoofing.**  With `allow-proxy` off and at most one concrete proxy, take two
runs from one state, with events that differ one by one in what the clients say
of their address at most.  If no socket is the proxy's, both runs end in the
same state, database included, and give every client the same.
-/
theorem spoofing_has_no_effect (hnet : host.net.Lawful)
    (hallow : opt.allowProxy = false)
    (hproxy : AtMostOneProxy opt host.net)
    (hσ : ClientsOnly opt host.net σ) {events events' : List Event}
    (hclients : ∀ e ∈ events, e.FromClients opt host.net)
    (hsame : List.Forall₂ (Event.SameButIp opt) events events') :
    Runs.run (step opt host) σ events = Runs.run (step opt host) σ events' ∧
      Runs.outputs (step opt host) (output opt host) σ events =
        Runs.outputs (step opt host) (output opt host) σ events' := by
  -- the states are equal, and stay so because no channel is the proxy's
  let Related (σ τ : Tracker) : Prop := σ = τ ∧ ClientsOnly opt host.net σ
  have hstep : ∀ σ τ e e', Related σ τ →
      e.FromClients opt host.net ∧ e.SameButIp opt e' →
        Related (step opt host σ e) (step opt host τ e') ∧
          output opt host σ e = output opt host τ e' := by
    rintro σ τ e e' ⟨rfl, hclient⟩ ⟨he, hsame⟩
    obtain ⟨hstep, hout⟩ :=
      step_sameButIp hnet hallow hproxy hclient he hsame
    exact ⟨⟨hstep, clientsOnly_step hnet hproxy hclient he⟩, hout⟩
  obtain ⟨⟨hend, -⟩, houts⟩ := Runs.run_related (output opt host) hstep
    ⟨rfl, hσ⟩ ((List.forall₂_and_left _ _).mpr ⟨hclients, hsame⟩)
  exact ⟨hend, houts⟩

def clientIp : Block 4 :=
  ⟨[10, 0, 0, 2], rfl⟩

/-- A client of a tracker with a proxy at `10.0.0.1`. -/
def clientSocket : Sockaddr :=
  .inet ⟨6881, clientIp⟩

/-- A UDP announce with the given address field. -/
def datagramNaming (field : List UInt8) : UdpServer.Datagram where
  now := 0
  bytes :=
    (zeros 8).val ++ [0, 0, 0, 1] ++ (zeros 72).val ++ field ++ (zeros 10).val
  addr := clientSocket
  buffer := zeros 4096
  raw := zeros 18
  alloc := true

/-- A client that names an address in all three ways. -/
def eventsNaming (ip : String) (field : List UInt8) : List Event :=
  [.accept 0 clientSocket,
    .request 0
      { sampleAnnounce with
        query := (ascii "ip", ascii ip) :: sampleAnnounce.query
        headers := LogHandler.forwardedFor ip } 0 (zeros 18),
    .udp (.recvfrom (datagramNaming field))]

theorem spoofing_has_no_effect_two_names :
    let honest := eventsNaming "10.0.0.2" [0, 0, 0, 0]
    let spoofed := eventsNaming "192.0.2.1" [192, 0, 2, 1]
    Runs.run (step LogHandler.proxiedOptions sampleHost) listed honest =
        Runs.run (step LogHandler.proxiedOptions sampleHost) listed spoofed ∧
      Runs.outputs (step LogHandler.proxiedOptions sampleHost)
          (output LogHandler.proxiedOptions sampleHost) listed honest =
        Runs.outputs (step LogHandler.proxiedOptions sampleHost)
          (output LogHandler.proxiedOptions sampleHost) listed spoofed := by
  have hproxy : NamesProxy LogHandler.proxiedOptions Inet.plain
      (.v4 sampleIp) := by
    constructor
    · rfl
    · decide
  have hclient : IsClient LogHandler.proxiedOptions Inet.plain
      clientSocket := by
    refine ⟨trivial, ?_⟩
    intro proxy hnamed
    have hsame := hnamed.named.symm.trans hproxy.named
    obtain rfl := Option.some.inj hsame
    decide
  apply spoofing_has_no_effect lawful_plain rfl (Or.inr ⟨_, hproxy⟩)
  · intro c remoteAddr hc
    cases hc
  · intro e he
    simp only [eventsNaming, List.mem_cons, List.not_mem_nil, or_false] at he
    rcases he with rfl | rfl | rfl
    · exact hclient
    · exact trivial
    · exact hclient
  · refine .cons (.same _) (.cons (.request 0 0 _ _ ?_)
      (.cons (.datagram ?_) .nil))
    · exact ⟨rfl, rfl, rfl⟩
    · refine ⟨rfl, rfl, rfl, rfl, ?_⟩
      intro i hi
      have haction : (datagramNaming [0, 0, 0, 0]).action = 1 := by
        decide
      have hall : ∀ i < 98, ¬ (84 ≤ i ∧ i < 88) →
          (datagramNaming [0, 0, 0, 0]).bytes[i]? =
            (datagramNaming [192, 0, 2, 1]).bytes[i]? := by
        decide
      by_cases hin : i < 98
      · exact hall i hin fun hfield => hi ⟨haction, hfield⟩
      · exact (List.getElem?_eq_none (Nat.le_of_not_lt hin)).trans
          (List.getElem?_eq_none (Nat.le_of_not_lt hin)).symm

end Runs

end Tracker

end Hefur
