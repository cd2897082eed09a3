import Hefur.AnnounceAgreement
import Hefur.ConnectionLifetime
import Hefur.ScrapeAgreement

/-!
# The traffic that a sender can draw

The sender of a datagram can be forged, so that the tracker must not send much
to an address that did not ask for it.  `Draws` says what a datagram adds to the
queue; the queue is the potential that pays for what is sent later.

The main result is `reply_traffic`.  Whatever the threads of the tracker do, an
address gets at most one reply for each of its datagrams, and at most as many
bytes as it has sent.  The one reply that could be longer than its request, a
list of peers, is never given: no announce finds its torrent.
-/

namespace Hefur

open Bytes

namespace UdpServer

section Lengths

theorem length_connectResponse (transactionId : Block 4) (connId : UInt64) :
    (connectResponse transactionId connId).length = 16 :=
  length_poke_block (length_response 16 0 transactionId (by omega)) (by omega)

theorem length_errorResponse (transactionId : Block 4) (msg : Text) :
    (errorResponse transactionId msg).length = 8 + msg.length := by
  have hbase := length_response (8 + msg.length) 3 transactionId (by omega)
  rw [errorResponse, length_poke (by omega), hbase]

end Lengths

section Draws

variable {opt : Options} {d : Datagram} {s s' : UdpServer} {db : TorrentDb}

/-- At most one reply is queued, to the sender, of at most `n` bytes. -/
def Draws (d : Datagram) (n : Nat) (s s' : UdpServer) : Prop :=
  s'.sbufs = s.sbufs ∨
    ∃ data, s'.sbufs = ⟨d.addr, data⟩ :: s.sbufs ∧ data.length ≤ n

theorem draws_push {n : Nat} {data : List UInt8} (hlen : data.length ≤ n) :
    Draws d n s (s.push d.alloc d.addr data) := by
  unfold push
  split
  · exact Or.inr ⟨data, rfl, hlen⟩
  · exact Or.inl rfl

theorem draws_handleConnect (hsize : 16 ≤ d.size) :
    Draws d d.bytes.length s (s.handleConnect d d.filled d.size) := by
  have hle := d.size_le
  rw [handleConnect, if_neg (by omega)]
  apply draws_push
  rw [length_connectResponse]
  omega

/-- An announce is refused, or not answered at all. -/
theorem draws_handleAnnounce (hwell : TorrentDb.WellFormed db)
    (hsize : 16 ≤ d.size) (haction : d.action = 1) :
    Draws d d.bytes.length s (s.handleAnnounce opt d d.filled d.size db).1 := by
  have hle := d.size_le
  by_cases hadmit : 98 ≤ d.size ∧ Accepted s d
  · obtain ⟨hlong, haccepted⟩ := hadmit
    have hrefused := receiveDatagram_announce opt hwell (by omega) haction
      haccepted
    rw [receiveDatagram_of_announce opt s db hsize haction] at hrefused
    rw [hrefused]
    have hmsg : TorrentDb.notFound.errorMsg.length ≤ 18 := by decide
    apply draws_push
    rw [length_errorResponse]
    omega
  · have hnone : s.announce opt d d.filled d.size db = none := by
      by_cases haccepted : Accepted s d
      · have hshort : d.size < 98 := by
          by_contra hlong
          exact hadmit ⟨by omega, haccepted⟩
        exact if_pos (Or.inl hshort)
      · exact announce_eq_none hsize haccepted
    rw [handleAnnounce, hnone]
    exact Or.inl rfl

/-- A scrape reply is shorter than the hashes that it answers. -/
theorem draws_handleScrape :
    Draws d d.bytes.length s (s.handleScrape opt d d.filled d.size db) := by
  have hle := d.size_le
  unfold handleScrape
  split
  · exact Or.inl rfl
  · rename_i hadmit
    have hsize : 16 ≤ d.size := by omega
    have hitems : (db.scrape opt
        (scrapeRequest d.filled d.size)).items.length ≤ (d.size - 16) / 20 := by
      refine (List.length_filterMap_le _ _).trans (Nat.le_of_eq ?_)
      rw [scrapeRequest, List.length_map, List.length_range]
    dsimp only
    split
    · rename_i herror
      cases herror
    · apply draws_push
      rw [length_scrapeResponse]
      omega

/-- No reply is longer than its request. -/
theorem draws_receiveDatagram (opt : Options) (d : Datagram) (s : UdpServer)
    (hwell : TorrentDb.WellFormed db) :
    Draws d d.bytes.length s (s.receiveDatagram opt d db).1 := by
  rcases receiveDatagram_cases opt d s db with
    ⟨-, hstep⟩ | ⟨hsize, ⟨-, hstep⟩ | ⟨haction, hstep⟩ | ⟨-, hstep⟩⟩
  · rw [hstep]
    exact Or.inl rfl
  · rw [hstep]
    exact draws_handleConnect hsize
  · rw [hstep]
    exact draws_handleAnnounce hwell hsize haction
  · rw [hstep]
    exact draws_handleScrape

/-- The weight of the replies that wait for an address. -/
def waiting (w : List UInt8 → Nat) (a : Sockaddr) (s : UdpServer) : Nat :=
  ((s.sbufs.filter fun b => b.addr = a).map fun b => w b.data).sum

theorem waiting_le_of_draws {w : List UInt8 → Nat} {n c : Nat}
    (h : Draws d n s s') (hw : ∀ data, data.length ≤ n → w data ≤ c)
    (a : Sockaddr) :
    waiting w a s' ≤ waiting w a s + if d.addr = a then c else 0 := by
  rcases h with hsame | ⟨data, hqueue, hlen⟩
  · rw [waiting, hsame]
    exact Nat.le_add_right _ _
  · have hcost := hw data hlen
    rw [waiting, hqueue, waiting]
    split
    · rename_i haddr
      rw [List.filter_cons_of_pos (by simpa using haddr), List.map_cons,
        List.sum_cons, Nat.add_comm]
      exact Nat.add_le_add_left hcost _
    · rename_i haddr
      rw [List.filter_cons_of_neg (by simpa using haddr)]
      exact Nat.le_refl _

/-- The weight of the reply that a call to `sendto` takes out of the queue. -/
def frontTo (w : List UInt8 → Nat) (a : Sockaddr) (s : UdpServer) : Nat :=
  match s.sbufs with
  | [] => 0
  | b :: _ => if b.addr = a then w b.data else 0

theorem waiting_sendFront (w : List UInt8 → Nat) (a : Sockaddr)
    {result : SendResult} (hfinal : result ≠ .again) (s : UdpServer) :
    frontTo w a s + waiting w a (s.sendFront result) = waiting w a s := by
  obtain ⟨secrets, sbufs, nextTimeout⟩ := s
  cases sbufs with
  | nil => exact Nat.zero_add _
  | cons b sbufs =>
      rw [sendFront]
      simp only [if_neg hfinal]
      by_cases haddr : b.addr = a
      · simp [frontTo, waiting, haddr]
      · simp [frontTo, waiting, haddr]

end Draws

end UdpServer

namespace Tracker

open UdpServer

section Traffic

/-- The weight of what a step sends to an address over UDP. -/
def sentTo (w : List UInt8 → Nat) (a : Sockaddr) (σ : Tracker) :
    Event → Nat
  | .udp (.sendto _ .sent) => frontTo w a σ.udp
  | _ => 0

/-- The weight of the datagram that a step gets from an address. -/
def gotFrom (c : Datagram → Nat) (a : Sockaddr) (_ : Tracker) : Event → Nat
  | .udp (.recvfrom d) => if d.addr = a then c d else 0
  | _ => 0

variable {opt : Options} {host : Host}

/-- Only the UDP loop changes the queue. -/
theorem udp_step (σ : Tracker) (e : Event) :
    (step opt host σ e).udp =
      match e with
      | .udp e => (UdpServer.step opt (σ.udp, σ.tdb) e).1
      | _ => σ.udp := by
  cases e with
  | visit path =>
      simp only [step]
      split <;> rfl
  | check =>
      simp only [step]
      split <;> rfl
  | request channel rq now raw =>
      simp only [step]
      split <;> rfl
  | changeTree tree => rfl
  | cleanup now => rfl
  | accept channel remoteAddr => rfl
  | close channel => rfl
  | udp e => rfl

/-- A step pays for what it sends from what waits and what it gets. -/
theorem traffic_step (opt : Options) (host : Host) {w : List UInt8 → Nat}
    {c : Datagram → Nat} {a : Sockaddr}
    (hw : ∀ (d : Datagram) (data : List UInt8),
      data.length ≤ d.bytes.length → w data ≤ c d)
    (σ : Tracker) (e : Event) (hwell : TorrentDb.WellFormed σ.tdb) :
    sentTo w a σ e + waiting w a (step opt host σ e).udp ≤
      waiting w a σ.udp + gotFrom c a σ e := by
  rw [udp_step]
  cases e with
  | udp e =>
      cases e with
      | genSecret now rnd => exact Nat.le_of_eq (Nat.zero_add _)
      | recvfrom d =>
          have hcost := waiting_le_of_draws
            (draws_receiveDatagram opt d σ.udp hwell) (hw d) a
          exact (Nat.le_of_eq (Nat.zero_add _)).trans hcost
      | sendto now result =>
          cases result with
          | sent =>
              exact Nat.le_of_eq (waiting_sendFront w a (by simp) σ.udp)
          | failed =>
              have hfinal : SendResult.failed ≠ .again := by simp
              have hgone := waiting_sendFront w a hfinal σ.udp
              show 0 + waiting w a (σ.udp.sendFront .failed) ≤ _
              omega
          | again =>
              show 0 + waiting w a (σ.udp.sendFront .again) ≤ _
              rw [sendFront_eq, if_pos rfl]
              omega
  | changeTree tree => exact Nat.le_of_eq (Nat.zero_add _)
  | visit path => exact Nat.le_of_eq (Nat.zero_add _)
  | check => exact Nat.le_of_eq (Nat.zero_add _)
  | cleanup now => exact Nat.le_of_eq (Nat.zero_add _)
  | accept channel remoteAddr => exact Nat.le_of_eq (Nat.zero_add _)
  | request channel rq now raw => exact Nat.le_of_eq (Nat.zero_add _)
  | close channel => exact Nat.le_of_eq (Nat.zero_add _)

/--
**No amplification.**  In every run of the tracker, in whatever order its
threads come to run, the UDP server sends to an address at most one reply for
each datagram from there, and no more bytes than came from there.
-/
theorem reply_traffic (opt : Options) (host : Host) (tree : Tree)
    {udp : UdpServer} (hempty : udp.sbufs = []) (a : Sockaddr)
    (events : List Event) :
    let total := fun w =>
      Runs.total (step opt host) w (start tree udp) events
    total (sentTo (fun _ => 1) a) ≤ total (gotFrom (fun _ => 1) a) ∧
      total (sentTo List.length a) ≤
        total (gotFrom (fun d => d.bytes.length) a) := by
  intro total
  have htraffic : ∀ {w : List UInt8 → Nat} {c : Datagram → Nat},
      (∀ (d : Datagram) (data : List UInt8),
        data.length ≤ d.bytes.length → w data ≤ c d) →
      total (sentTo w a) ≤ total (gotFrom c a) := by
    intro w c hw
    have hpaid := Runs.total_le_of_potential
      (fun σ : Tracker => waiting w a σ.udp)
      (fun _ e h => wellFormed_step h e) (traffic_step opt host hw)
      (s := start tree udp) TorrentDb.wellFormed_empty events
    have hwaiting : waiting w a (start tree udp).udp = 0 := by
      show waiting w a udp = 0
      rw [waiting, hempty]
      rfl
    rw [hwaiting, Nat.zero_add] at hpaid
    exact (Nat.le_add_right _ _).trans hpaid
  exact ⟨htraffic fun _ _ _ => Nat.le_refl 1, htraffic fun _ _ hlen => hlen⟩

/-- A connect is received and answered. -/
def connectTraffic : List Event :=
  [.udp (.recvfrom connectDatagram), .udp (.sendto 0 .sent)]

/-- The traffic of a connect. -/
theorem reply_traffic_connect :
    Runs.total (step sampleOptions sampleHost)
        (sentTo (fun _ => 1) connectDatagram.addr)
        (start (treeWith pathA) UdpServer.new) connectTraffic ≤
      Runs.total (step sampleOptions sampleHost)
        (gotFrom (fun _ => 1) connectDatagram.addr)
        (start (treeWith pathA) UdpServer.new) connectTraffic ∧
    Runs.total (step sampleOptions sampleHost)
        (sentTo List.length connectDatagram.addr)
        (start (treeWith pathA) UdpServer.new) connectTraffic ≤
      Runs.total (step sampleOptions sampleHost)
        (gotFrom (fun d => d.bytes.length) connectDatagram.addr)
        (start (treeWith pathA) UdpServer.new) connectTraffic :=
  reply_traffic sampleOptions sampleHost (treeWith pathA) rfl
    connectDatagram.addr connectTraffic

end Traffic

end Tracker

end Hefur
