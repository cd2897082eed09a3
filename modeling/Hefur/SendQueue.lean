import Hefur.ConnectionLifetime
import Hefur.Lib.Outbox

/-!
# The queue of replies

The loop of the UDP server over any list of replies, of which it is only known
that `push` adds an element, that `pop` removes the one that `front` returns,
and that `size` counts them.  A `Sender` also keeps the replies that were pushed
and the calls to `sendto` with their outcomes.

With the list that returns the latest reply first, a `Sender` does what
`UdpServer.turn` does (`run_stack`).

The main result is `sendQueue_run`.  It speaks of the state after any rounds of
the loop; a moment inside of `send` or `receive` is the end of a run whose last
round breaks off there.
-/

namespace Hefur
namespace UdpServer

open Bytes
open Outboxes

section Model

/-- The errors after which `send` returns and leaves the reply in the queue. -/
def SendResult.transient : SendResult → Bool
  | .sent => false
  | .again => true
  | .failed => false

def SendResult.success : SendResult → Bool
  | .sent => true
  | .again => false
  | .failed => false

/-- The server with its queue in a list of any kind. -/
structure Sender (Q : Type) where
  secrets : Vector Secret 3
  nextTimeout : Int
  tdb : TorrentDb
  sbufs : Outbox SendToBuffer SendResult Q

namespace Sender

variable {Q : Type}

/-- What the handlers see of the server: they never look at the queue. -/
def server (σ : Sender Q) : UdpServer where
  secrets := σ.secrets
  sbufs := []
  nextTimeout := σ.nextTimeout

variable (P : Slist (SendToBuffer × Nat) Q) (opt : Options)

def ofServer (s : UdpServer) (db : TorrentDb) : Sender Q where
  secrets := s.secrets
  nextTimeout := s.nextTimeout
  tdb := db
  sbufs := Outbox.new P

def genSecret (now : Int) (rnd : Option Secret) (σ : Sender Q) :
    Sender Q :=
  { σ with
    secrets := (σ.server.genSecret now rnd).secrets
    nextTimeout := (σ.server.genSecret now rnd).nextTimeout }

def send (results : List (Int × SendResult)) (σ : Sender Q) : Sender Q :=
  { σ with
    sbufs := σ.sbufs.send P SendResult.transient (results.map Prod.snd) }

/-- The handlers push their reply, if there is one. -/
def receiveDatagram (d : Datagram) (σ : Sender Q) : Sender Q :=
  let (s, db) := σ.server.receiveDatagram opt d σ.tdb
  { secrets := s.secrets
    nextTimeout := s.nextTimeout
    tdb := db
    sbufs := s.sbufs.foldr (Outbox.push P) σ.sbufs }

def receive : List Datagram → Sender Q → Sender Q
  | [], σ => σ
  | d :: rest, σ =>
      if P.size σ.sbufs.queue < 64 then
        receive rest (σ.receiveDatagram P opt d)
      else σ

/-- One round of the loop in `run`. -/
def turn (σ : Sender Q) (t : Turn) : Sender Q :=
  if σ.server.timeout t.now ≤ 0 then σ.genSecret t.wake t.rnd
  else
    match t.poll with
    | .failed => σ
    | .timeout => σ.genSecret t.wake t.rnd
    | .writable results => σ.send P results
    | .readable datagrams => σ.receive P opt datagrams

end Sender

end Model

section Frame

/-- The server without its queue. -/
def unqueued (s : UdpServer) : UdpServer :=
  { s with sbufs := [] }

/-- The replies of `s'` in front of those of `s`. -/
def under (s : UdpServer) (s' : UdpServer) : UdpServer :=
  { s with sbufs := s'.sbufs ++ s.sbufs }

section Handlers

variable (opt : Options) (d : Datagram) (buf : List UInt8) (size : Nat)
variable (s : UdpServer) (db : TorrentDb)

theorem push_frame (alloc : Bool) (addr : Sockaddr) (data : List UInt8) :
    s.push alloc addr data = s.under (s.unqueued.push alloc addr data) := by
  cases alloc <;> rfl

theorem handleConnect_frame :
    s.handleConnect d buf size =
      s.under (s.unqueued.handleConnect d buf size) := by
  unfold handleConnect
  split
  · rfl
  · rw [push_frame]
    rfl

theorem handleAnnounce_frame :
    s.handleAnnounce opt d buf size db =
      (s.under (s.unqueued.handleAnnounce opt d buf size db).1,
        (s.unqueued.handleAnnounce opt d buf size db).2) := by
  have hannounce : s.unqueued.announce opt d buf size db =
      s.announce opt d buf size db := rfl
  unfold handleAnnounce
  rw [hannounce]
  split
  · rfl
  · split
    · rw [sendFailure, push_frame]
      rfl
    · rw [push_frame]

theorem handleScrape_frame :
    s.handleScrape opt d buf size db =
      s.under (s.unqueued.handleScrape opt d buf size db) := by
  have hcheck : ∀ connId, s.unqueued.checkConnectionId connId d.addr =
      s.checkConnectionId connId d.addr := fun _ => rfl
  unfold handleScrape
  rw [hcheck]
  split
  · rfl
  · dsimp only
    split
    · rw [sendFailure, push_frame]
      rfl
    · rw [push_frame]

/-- A datagram adds the same reply to any queue, and reads nothing of it. -/
theorem receiveDatagram_frame :
    s.receiveDatagram opt d db =
      (s.under (s.unqueued.receiveDatagram opt d db).1,
        (s.unqueued.receiveDatagram opt d db).2) := by
  unfold receiveDatagram
  split
  · rfl
  · split
    · rw [handleConnect_frame]
    · rw [handleAnnounce_frame]
    · rw [handleScrape_frame]
    · rfl

end Handlers

/-- A datagram is answered once at most. -/
theorem length_sbufs_receiveDatagram (opt : Options) (d : Datagram)
    {s : UdpServer} (db : TorrentDb) (hempty : s.sbufs = []) :
    (s.receiveDatagram opt d db).1.sbufs.length ≤ 1 := by
  rcases (receiveDatagram_discipline opt d s db).2.1 with
    hsilent | ⟨data, hreply, -, -⟩
  · simp [hsilent, hempty]
  · simp [hreply, hempty]

end Frame

namespace Sender

section Invariant

variable {Q : Type} {P : Slist (SendToBuffer × Nat) Q}
variable {items : Q → List (SendToBuffer × Nat)}

/-- At most 64 replies wait, and every reply is accounted for. -/
structure Orderly (P : Slist (SendToBuffer × Nat) Q)
    (items : Q → List (SendToBuffer × Nat)) (σ : Sender Q) : Prop where
  bounded : P.size σ.sbufs.queue ≤ 64
  accounted : σ.sbufs.Accounted SendResult.transient items

variable {σ : Sender Q}

theorem orderly_ofServer (hP : P.Lawful items) (s : UdpServer)
    (db : TorrentDb) : (ofServer P s db).Orderly P items where
  bounded := by
    rw [hP.size]
    show (items P.empty).length ≤ 64
    rw [hP.empty]
    exact Nat.zero_le _
  accounted := Outbox.accounted_new hP

theorem Orderly.send (h : σ.Orderly P items) (hP : P.Lawful items)
    (results : List (Int × SendResult)) :
    (σ.send P results).Orderly P items where
  bounded := by
    have hle : P.size (σ.send P results).sbufs.queue ≤
        P.size σ.sbufs.queue :=
      Outbox.size_send_le hP (results.map Prod.snd) σ.sbufs
    exact hle.trans h.bounded
  accounted := h.accounted.send hP _

/-- A datagram comes in only while there is room for its reply. -/
theorem Orderly.receiveDatagram (h : σ.Orderly P items)
    (hP : P.Lawful items) (hroom : P.size σ.sbufs.queue < 64)
    (opt : Options) (d : Datagram) :
    (σ.receiveDatagram P opt d).Orderly P items := by
  have hone := length_sbufs_receiveDatagram opt d σ.tdb
    (show σ.server.sbufs = [] from rfl)
  have hsbufs : (σ.receiveDatagram P opt d).sbufs =
      (σ.server.receiveDatagram opt d σ.tdb).1.sbufs.foldr
        (Outbox.push P) σ.sbufs := rfl
  constructor
  · rw [hsbufs]
    match hreplies : (σ.server.receiveDatagram opt d σ.tdb).1.sbufs with
    | [] =>
        exact h.bounded
    | [reply] =>
        rw [List.foldr_cons, List.foldr_nil, Outbox.size_push hP]
        omega
    | _ :: _ :: _ =>
        rw [hreplies] at hone
        simp at hone
  · rw [hsbufs]
    induction (σ.server.receiveDatagram opt d σ.tdb).1.sbufs with
    | nil =>
        exact h.accounted
    | cons reply replies ih =>
        exact ih.push hP reply

theorem Orderly.receive (hP : P.Lawful items) (opt : Options)
    (datagrams : List Datagram) :
    ∀ {σ : Sender Q}, σ.Orderly P items →
      (σ.receive P opt datagrams).Orderly P items := by
  induction datagrams with
  | nil =>
      intro σ h
      exact h
  | cons d rest ih =>
      intro σ h
      unfold Sender.receive
      split
      · rename_i hroom
        exact ih (h.receiveDatagram hP hroom opt d)
      · exact h

theorem Orderly.turn (h : σ.Orderly P items) (hP : P.Lawful items)
    (opt : Options) (t : Turn) :
    (σ.turn P opt t).Orderly P items := by
  have hsecrets : (σ.genSecret t.wake t.rnd).Orderly P items :=
    ⟨h.bounded, h.accounted⟩
  unfold Sender.turn
  split
  · exact hsecrets
  · cases t.poll with
    | failed => exact h
    | timeout => exact hsecrets
    | writable results => exact h.send hP results
    | readable datagrams => exact Orderly.receive hP opt datagrams h

/--
**The queue of replies.**  After any rounds of the loop:

* at most 64 replies wait;
* every reply that was pushed waits or is settled, by a successful `sendto` or
  by a permanent error, and only one of these happens to it, once;
* no reply has two successful calls;
* `send` leaves the queue unchanged at a transient error;
* `send` returns, whatever the outcomes are.
-/
theorem sendQueue_run (hP : P.Lawful items) (opt : Options)
    (s : UdpServer) (db : TorrentDb) (turns : List Turn) :
    let σ := Runs.run (Sender.turn P opt) (ofServer P s db) turns
    P.size σ.sbufs.queue ≤ 64 ∧
      σ.sbufs.Once SendResult.transient items ∧
      ((σ.sbufs.calls.filter fun call => call.2.success).map
        Prod.fst).Nodup ∧
      (∀ (o : Outbox SendToBuffer SendResult Q) (results : List SendResult),
        (o.send P SendResult.transient (.again :: results)).queue = o.queue) ∧
      ∀ (o : Outbox SendToBuffer SendResult Q) (results : Nat → SendResult),
        ∃ n, n ≤ P.size o.queue ∧
          Outbox.Sends P SendResult.transient o ((List.range n).map results)
            (o.send P SendResult.transient ((List.range n).map results)) := by
  intro σ
  have horderly : σ.Orderly P items :=
    Runs.run_invariant (I := Orderly P items)
      (fun _ t h => h.turn hP opt t) (orderly_ofServer hP s db) turns
  have honce := horderly.accounted.once
  refine ⟨horderly.bounded, honce, ?_, ?_, ?_⟩
  · apply honce.success
    intro result hsuccess
    cases result with
    | sent => rfl
    | again => cases hsuccess
    | failed => rfl
  · intro o results
    exact Outbox.queue_send_transient rfl
  · intro o results
    obtain ⟨n, o', hn, hsends⟩ : ∃ n o', n ≤ P.size o.queue ∧
        Outbox.Sends P SendResult.transient o
          ((List.range n).map results) o' :=
      Outbox.exists_sends hP o results
    refine ⟨n, hn, ?_⟩
    rw [hsends.send_eq]
    exact hsends

/-- A round in which `poll` reports that replies can be sent. -/
def sendingTurn (results : List SendResult) : Turn where
  now := 0
  wake := 0
  rnd := none
  poll := .writable (results.map fun result => (0, result))

/-- One connect, whose reply is sent at the second attempt. -/
def connectRun : Sender (List (SendToBuffer × Nat)) :=
  Runs.run (Sender.turn .stack {}) (ofServer .stack startedServer ∅)
    [connectTurn, sendingTurn [.again], sendingTurn [.sent]]

/-- The queue of that run. -/
theorem sendQueue_connectRun :
    Slist.stack.size connectRun.sbufs.queue ≤ 64 ∧
      connectRun.sbufs.Once SendResult.transient id ∧
      ((connectRun.sbufs.calls.filter fun call => call.2.success).map
        Prod.fst).Nodup ∧
      (∀ (o : Outbox SendToBuffer SendResult (List (SendToBuffer × Nat)))
          (results : List SendResult),
        (o.send .stack SendResult.transient (.again :: results)).queue =
          o.queue) ∧
      ∀ (o : Outbox SendToBuffer SendResult (List (SendToBuffer × Nat)))
          (results : Nat → SendResult),
        ∃ n, n ≤ Slist.stack.size o.queue ∧
          Outbox.Sends .stack SendResult.transient o
            ((List.range n).map results)
            (o.send .stack SendResult.transient
              ((List.range n).map results)) :=
  sendQueue_run Slist.lawful_stack {} startedServer ∅
    [connectTurn, sendingTurn [.again], sendingTurn [.sent]]

end Invariant

section Stack

variable {opt : Options} {st : UdpServer × TorrentDb}
variable {σ : Sender (List (SendToBuffer × Nat))}

/-- The sender is the server, with its replies numbered. -/
structure Numbers (st : UdpServer × TorrentDb)
    (σ : Sender (List (SendToBuffer × Nat))) : Prop where
  secrets : st.1.secrets = σ.secrets
  nextTimeout : st.1.nextTimeout = σ.nextTimeout
  tdb : st.2 = σ.tdb
  sbufs : st.1.sbufs = σ.sbufs.queue.map Prod.fst

theorem Numbers.server (h : Numbers st σ) : st.1.unqueued = σ.server := by
  rw [Sender.server, ← h.secrets, ← h.nextTimeout]
  rfl

theorem queue_foldr_push (replies : List SendToBuffer)
    (o : Outbox SendToBuffer SendResult (List (SendToBuffer × Nat))) :
    (replies.foldr (Outbox.push .stack) o).queue.map Prod.fst =
      replies ++ o.queue.map Prod.fst := by
  induction replies with
  | nil =>
      rfl
  | cons reply replies ih =>
      rw [List.foldr_cons, List.cons_append, ← ih]
      rfl

theorem Numbers.genSecret (h : Numbers st σ) (now : Int)
    (rnd : Option Secret) :
    Numbers (st.1.genSecret now rnd, st.2) (σ.genSecret now rnd) where
  secrets := by
    show _ = (σ.server.genSecret now rnd).secrets
    rw [← h.server]
    rfl
  nextTimeout := rfl
  tdb := h.tdb
  sbufs := h.sbufs

/-- The sender after a call for the reply `x`. -/
def attempt (x : SendToBuffer × Nat) (result : SendResult)
    (σ : Sender (List (SendToBuffer × Nat))) :
    Sender (List (SendToBuffer × Nat)) :=
  { σ with sbufs := σ.sbufs.attempt .stack SendResult.transient x result }

section Front

variable {x : SendToBuffer × Nat} {queue : List (SendToBuffer × Nat)}

theorem send_stack_nil (results : List (Int × SendResult))
    (hqueue : σ.sbufs.queue = []) : σ.send .stack results = σ := by
  cases results with
  | nil => rfl
  | cons r rest => simp [Sender.send, Outbox.send, Slist.stack, hqueue]

theorem send_stack_cons (now : Int) (result : SendResult)
    (rest : List (Int × SendResult)) (hqueue : σ.sbufs.queue = x :: queue) :
    σ.send .stack ((now, result) :: rest) =
      if result.transient then σ.attempt x result
      else (σ.attempt x result).send .stack rest := by
  have hfront : Slist.stack.front σ.sbufs.queue = some x :=
    congrArg List.head? hqueue
  simp only [Sender.send, List.map_cons, Outbox.send, hfront]
  split <;> rfl

theorem Numbers.attempt_again (h : Numbers st σ) :
    Numbers st (σ.attempt x .again) :=
  ⟨h.secrets, h.nextTimeout, h.tdb, h.sbufs⟩

/-- After a final outcome both lose their front element. -/
theorem Numbers.attempt_final (h : Numbers st σ)
    (hqueue : σ.sbufs.queue = x :: queue) {result : SendResult}
    (hfinal : result.transient = false) :
    Numbers ({ st.1 with sbufs := queue.map Prod.fst }, st.2)
      (σ.attempt x result) where
  secrets := h.secrets
  nextTimeout := h.nextTimeout
  tdb := h.tdb
  sbufs := by
    rw [attempt, Outbox.attempt, hfinal, hqueue]
    rfl

end Front

theorem Numbers.send (results : List (Int × SendResult)) :
    ∀ {st : UdpServer × TorrentDb}
      {σ : Sender (List (SendToBuffer × Nat))}, Numbers st σ →
      Numbers (st.1.send results, st.2) (σ.send .stack results) := by
  induction results with
  | nil =>
      intro st σ h
      exact h
  | cons r rest ih =>
      intro st σ h
      obtain ⟨now, result⟩ := r
      have hsbufs := h.sbufs
      cases hqueue : σ.sbufs.queue with
      | nil =>
          rw [hqueue, List.map_nil] at hsbufs
          rw [send_stack_nil _ hqueue, UdpServer.send, hsbufs]
          exact h
      | cons x queue =>
          rw [hqueue, List.map_cons] at hsbufs
          rw [send_stack_cons now result rest hqueue, UdpServer.send, hsbufs]
          cases result with
          | again => exact h.attempt_again
          | sent => exact ih (h.attempt_final hqueue rfl)
          | failed => exact ih (h.attempt_final hqueue rfl)

theorem Numbers.receiveDatagram (h : Numbers st σ) (opt : Options)
    (d : Datagram) :
    Numbers (st.1.receiveDatagram opt d st.2)
      (σ.receiveDatagram .stack opt d) := by
  have hframe := receiveDatagram_frame opt d st.1 st.2
  have hself := receiveDatagram_frame opt d σ.server σ.tdb
  rw [h.server, h.tdb] at hframe
  rw [h.tdb, hframe]
  constructor
  · exact h.secrets.trans (congrArg (fun r => r.1.secrets) hself).symm
  · exact h.nextTimeout.trans (congrArg (fun r => r.1.nextTimeout) hself).symm
  · rfl
  · show _ ++ st.1.sbufs = _
    rw [h.sbufs]
    exact (queue_foldr_push _ σ.sbufs).symm

theorem Numbers.receive (opt : Options) (datagrams : List Datagram) :
    ∀ {st : UdpServer × TorrentDb}
      {σ : Sender (List (SendToBuffer × Nat))}, Numbers st σ →
      Numbers (UdpServer.receive opt datagrams st.1 st.2)
        (σ.receive .stack opt datagrams) := by
  induction datagrams with
  | nil =>
      intro st σ h
      exact h
  | cons d rest ih =>
      intro st σ h
      have hsize : st.1.sbufs.length =
          Slist.stack.size σ.sbufs.queue := by
        rw [h.sbufs, List.length_map]
        rfl
      unfold UdpServer.receive Sender.receive
      rw [← hsize]
      split
      · exact ih (h.receiveDatagram opt d)
      · exact h

theorem Numbers.turn (h : Numbers st σ) (opt : Options) (t : Turn) :
    Numbers (UdpServer.turn opt st t) (σ.turn .stack opt t) := by
  have htimeout : st.1.timeout t.now = σ.server.timeout t.now := by
    rw [← h.server]
    rfl
  unfold UdpServer.turn Sender.turn
  dsimp only
  rw [htimeout]
  split
  · exact h.genSecret t.wake t.rnd
  · cases t.poll with
    | failed => exact h
    | timeout => exact h.genSecret t.wake t.rnd
    | writable results => exact Numbers.send results h
    | readable datagrams => exact Numbers.receive opt datagrams h

/-- **On a stack of replies, the sender is the server of the model.** -/
theorem run_stack (opt : Options) {s : UdpServer} (hempty : s.sbufs = [])
    (db : TorrentDb) (turns : List Turn) :
    Numbers (Runs.run (UdpServer.turn opt) (s, db) turns)
      (Runs.run (Sender.turn .stack opt) (ofServer .stack s db) turns) := by
  have hstart : Numbers (s, db) (ofServer .stack s db) :=
    ⟨rfl, rfl, rfl, hempty⟩
  have hrun := Runs.run_simulates (R := Numbers) id
    (fun _ _ t h => h.turn opt t) hstart turns
  rwa [List.map_id] at hrun

end Stack

end Sender

end UdpServer
end Hefur
