import Hefur.AnnounceAgreement
import Hefur.TrackerHistory
import Hefur.Spoofing

/-!
# What the UDP tracker leaves alone

The announces of the UDP server name torrents by a hash without a type, and no
torrent is stored under such a hash.  Whatever is sent to the server, the rest
of the tracker goes on as if it were not there (`udp_inert`).
-/

namespace Hefur

open Bytes

namespace UdpServer

/-- No event of the UDP server changes a well-formed database. -/
theorem tdb_step (opt : Options) (s : UdpServer) {db : TorrentDb}
    (hdb : TorrentDb.WellFormed db) (e : Event) :
    (UdpServer.step opt (s, db) e).2 = db := by
  cases e with
  | genSecret now rnd => rfl
  | sendto now result => rfl
  | recvfrom d =>
      obtain ⟨-, -, hkept | ⟨haction, hlong, haccepted⟩⟩ :=
        receiveDatagram_discipline opt d s db
      · exact hkept
      · exact congrArg Prod.snd
          (receiveDatagram_announce opt hdb hlong haction haccepted)

end UdpServer

namespace Tracker

def Event.overUdp : Event → Bool
  | .udp _ => true
  | _ => false

/-- The page that a step gives out, if any. -/
def pageOf (opt : Options) (host : Host) (σ : Tracker) (e : Event) :
    Option Output :=
  if e.overUdp then none else output opt host σ e

/-- The trackers are the same but for their UDP servers. -/
structure SameButUdp (σ τ : Tracker) : Prop where
  tree : σ.tree = τ.tree
  tdb : σ.tdb = τ.tdb
  channels : σ.channels = τ.channels

variable {opt : Options} {host : Host} {σ τ : Tracker} {e : Event}

/-- Nothing else looks at the UDP server. -/
theorem SameButUdp.step (h : SameButUdp σ τ) (he : e.overUdp = false) :
    SameButUdp (Tracker.step opt host σ e) (Tracker.step opt host τ e) ∧
      pageOf opt host σ e = pageOf opt host τ e := by
  obtain ⟨tree, tdb, udp, channels⟩ := σ
  obtain ⟨tree', tdb', udp', channels'⟩ := τ
  obtain ⟨rfl, rfl, rfl⟩ := h
  refine ⟨?_, ?_⟩
  · cases e with
    | udp e => cases he
    | visit path =>
        simp only [Tracker.step]
        split <;> exact ⟨rfl, rfl, rfl⟩
    | check =>
        simp only [Tracker.step]
        split <;> exact ⟨rfl, rfl, rfl⟩
    | request channel rq now raw =>
        simp only [Tracker.step]
        split <;> exact ⟨rfl, rfl, rfl⟩
    | changeTree tree => exact ⟨rfl, rfl, rfl⟩
    | cleanup now => exact ⟨rfl, rfl, rfl⟩
    | accept channel remoteAddr => exact ⟨rfl, rfl, rfl⟩
    | close channel => exact ⟨rfl, rfl, rfl⟩
  · cases e with
    | udp e => cases he
    | _ => rfl

/-- An event of the UDP server leaves the rest of the tracker as it is. -/
theorem SameButUdp.step_udp (h : SameButUdp σ τ)
    (hwell : TorrentDb.WellFormed σ.tdb) (he : e.overUdp = true) :
    SameButUdp (Tracker.step opt host σ e) τ ∧ pageOf opt host σ e = none := by
  refine ⟨?_, if_pos he⟩
  cases e with
  | udp e =>
      exact ⟨h.tree, (UdpServer.tdb_step opt σ.udp hwell e).trans h.tdb,
        h.channels⟩
  | _ => cases he

/--
**The UDP tracker is inert.**  After any run the tracker, but for its UDP
server, is what it would be without the events of the UDP server, and it has
given out the same pages; every announce with an accepted connection id is
refused.
-/
theorem udp_inert (opt : Options) (host : Host) (tree : Tree) (udp : UdpServer)
    (events : List Event) :
    let others := events.filter fun e => !e.overUdp
    let σ := after opt host tree udp events
    SameButUdp σ (after opt host tree udp others) ∧
      (Runs.outputs (Tracker.step opt host) (pageOf opt host)
          (start tree udp) events).reduceOption =
        (Runs.outputs (Tracker.step opt host) (pageOf opt host)
          (start tree udp) others).reduceOption ∧
      ∀ d : UdpServer.Datagram, d.action = 1 → 98 ≤ d.bytes.length →
        UdpServer.Accepted σ.udp d →
          (Tracker.step opt host σ (.udp (.recvfrom d))).udp =
            σ.udp.push d.alloc d.addr
              (UdpServer.errorResponse (UdpServer.transactionId d.filled)
                (ascii "torrent not found")) := by
  intro others σ
  let Related (σ τ : Tracker) : Prop :=
    SameButUdp σ τ ∧ TorrentDb.WellFormed σ.tdb
  have hstart : Related (start tree udp) (start tree udp) :=
    ⟨⟨rfl, rfl, rfl⟩, TorrentDb.wellFormed_empty⟩
  have hkeep : ∀ σ τ e, Related σ τ → (!e.overUdp) = true →
      Related (Tracker.step opt host σ e) (Tracker.step opt host τ e) ∧
        pageOf opt host σ e = pageOf opt host τ e := by
    rintro σ τ e ⟨hsame, hwell⟩ he
    obtain ⟨hnext, hpage⟩ := hsame.step (by simpa using he)
    exact ⟨⟨hnext, wellFormed_step hwell e⟩, hpage⟩
  have hdrop : ∀ σ τ e, Related σ τ → (!e.overUdp) = false →
      Related (Tracker.step opt host σ e) τ ∧ pageOf opt host σ e = none := by
    rintro σ τ e ⟨hsame, hwell⟩ he
    obtain ⟨hnext, hpage⟩ := hsame.step_udp hwell (by simpa using he)
    exact ⟨⟨hnext, wellFormed_step hwell e⟩, hpage⟩
  obtain ⟨⟨hend, hwell⟩, hpages⟩ := Runs.run_filter hkeep hdrop hstart events
  refine ⟨hend, hpages, fun d haction hlong haccepted => ?_⟩
  exact congrArg Prod.fst
    (UdpServer.receiveDatagram_announce opt hwell hlong haction haccepted)

end Tracker

end Hefur
