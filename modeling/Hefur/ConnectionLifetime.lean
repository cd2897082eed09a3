import Hefur.UdpDiscipline

/-!
# How long a connection id lives

`genSecret` shifts the three secrets, so that the secret an id was computed
from stays in force for two more rotations (`secrets_run`).  `start` and every
rotation arm the next rotation one second later, and the loop also rotates when
`poll` times out, so that a server that only waits rotates once a second.

An id is therefore accepted for 60 s if there are at most two rotations in that
time (`idsLast_of_fewRotations`), which can be read off the rounds of the loop
(`fewRotations_of_turns`).  A server that does nothing else than answer
one connect rotates it away within three seconds
(`idsLast_false_of_three_timeouts`).
-/

namespace Hefur
namespace UdpServer

open Bytes

section Rotations

def Event.rotates : Event → Bool
  | .genSecret _ _ => true
  | .sendto _ _ => false
  | .recvfrom _ => false

/-- The number of rotations among the events. -/
def rotations (events : List Event) : Nat :=
  events.countP Event.rotates

@[simp] theorem rotations_append (events events' : List Event) :
    rotations (events ++ events') = rotations events + rotations events' :=
  List.countP_append

@[simp] theorem rotations_recvfrom (d : Datagram) (events : List Event) :
    rotations (.recvfrom d :: events) = rotations events :=
  List.countP_cons_of_neg (by simp [Event.rotates])

theorem rotations_sendEvents (results : List (Int × SendResult)) :
    ∀ s : UdpServer, rotations (sendEvents results s) = 0 := by
  induction results with
  | nil =>
      intro s
      rfl
  | cons r rest ih =>
      intro s
      unfold sendEvents
      split
      · rfl
      · split
        · rfl
        · exact ih _

theorem rotations_receiveEvents (opt : Options) (datagrams : List Datagram) :
    ∀ (s : UdpServer) (db : TorrentDb),
      rotations (receiveEvents opt datagrams s db) = 0 := by
  induction datagrams with
  | nil =>
      intro s db
      rfl
  | cons d rest ih =>
      intro s db
      unfold receiveEvents
      split
      · exact ih _ _
      · rfl

end Rotations

section Rounds

/-- The round rotates the secrets: its deadline has come or `poll` times out. -/
def Turn.rotates (st : UdpServer × TorrentDb) (t : Turn) : Bool :=
  decide (st.1.timeout t.now ≤ 0) ||
    match t.poll with
    | .timeout => true
    | _ => false

/-- The number of rounds that rotate the secrets. -/
def rotatingTurns (opt : Options) : UdpServer × TorrentDb → List Turn → Nat :=
  Runs.total (turn opt) fun st t => (t.rotates st).toNat

variable {opt : Options}

/-- A round that rotates does nothing else, and the others do not rotate. -/
theorem turnEvents_cases
    (opt : Options) (st : UdpServer × TorrentDb) (t : Turn) :
    (t.rotates st = true ∧
        turnEvents opt st t = [.genSecret t.wake t.rnd]) ∨
      (t.rotates st = false ∧ rotations (turnEvents opt st t) = 0) := by
  unfold turnEvents Turn.rotates
  by_cases hdue : st.1.timeout t.now ≤ 0
  · simp [hdue]
  · cases hpoll : t.poll with
    | failed => simp [hdue, rotations]
    | timeout => simp [hdue]
    | writable results => simp [hdue, rotations_sendEvents]
    | readable datagrams => simp [hdue, rotations_receiveEvents]

theorem rotations_turnEvents
    (opt : Options) (st : UdpServer × TorrentDb) (t : Turn) :
    rotations (turnEvents opt st t) = (t.rotates st).toNat := by
  rcases turnEvents_cases opt st t with ⟨hrotates, hevents⟩ | ⟨hkeeps, hevents⟩
  · rw [hrotates, hevents]
    rfl
  · rw [hkeeps, hevents]
    rfl

/-- The events of the loop rotate as often as its rounds. -/
theorem rotations_loopEvents (turns : List Turn) :
    ∀ st : UdpServer × TorrentDb,
      rotations (loopEvents opt st turns) = rotatingTurns opt st turns := by
  induction turns with
  | nil =>
      intro st
      rfl
  | cons t turns ih =>
      intro st
      rw [loopEvents, rotations_append, rotations_turnEvents, ih]
      rfl

theorem rotatingTurns_le_length (opt : Options) (turns : List Turn) :
    ∀ st : UdpServer × TorrentDb,
      rotatingTurns opt st turns ≤ turns.length := by
  induction turns with
  | nil =>
      intro st
      exact le_refl 0
  | cons t turns ih =>
      intro st
      have hone := Bool.toNat_le (t.rotates st)
      have hrest := ih (turn opt st t)
      rw [rotatingTurns] at hrest ⊢
      rw [Runs.total, List.length_cons]
      omega

/-- Some first events are those of whole rounds, and others without rotation. -/
theorem loopEvents_split {turns : List Turn} :
    ∀ {st : UdpServer × TorrentDb} {events rest : List Event},
      loopEvents opt st turns = events ++ rest →
      ∃ during later part, turns = during ++ later ∧
        events = loopEvents opt st during ++ part ∧ rotations part = 0 := by
  induction turns with
  | nil =>
      intro st events rest hsplit
      have hnone : events = [] := (List.append_eq_nil_iff.mp hsplit.symm).1
      exact ⟨[], [], [], rfl, hnone, rfl⟩
  | cons t turns ih =>
      intro st events rest hsplit
      rw [loopEvents] at hsplit
      rcases List.append_eq_append_iff.mp hsplit with
        ⟨events', rfl, hlater⟩ | ⟨rest', hround, -⟩
      · obtain ⟨during, later, part, rfl, rfl, hpart⟩ := ih hlater
        refine ⟨t :: during, later, part, rfl, ?_, hpart⟩
        rw [loopEvents, List.append_assoc]
      · rcases turnEvents_cases opt st t with ⟨-, hevents⟩ | ⟨-, hevents⟩
        · -- the round rotates: none or all of it
          rw [hevents] at hround
          rcases List.singleton_eq_append_iff.mp hround with
            ⟨rfl, -⟩ | ⟨rfl, -⟩
          · exact ⟨[], t :: turns, [], rfl, rfl, rfl⟩
          · refine ⟨[t], turns, [], rfl, ?_, rfl⟩
            rw [loopEvents, hevents, loopEvents]
            rfl
        · rw [hround, rotations_append] at hevents
          exact ⟨[], t :: turns, events, rfl, rfl, by omega⟩

/-- A datagram comes in a round, after which that round does not rotate. -/
theorem loopEvents_recvfrom {turns : List Turn} {d : Datagram} :
    ∀ {st : UdpServer × TorrentDb} {before rest : List Event},
      loopEvents opt st turns = before ++ .recvfrom d :: rest →
      ∃ earlier t later part, turns = earlier ++ t :: later ∧
        Event.recvfrom d ∈
          turnEvents opt (Runs.run (turn opt) st earlier) t ∧
        rotations part = 0 ∧
        rest = part ++
          loopEvents opt (Runs.run (turn opt) st (earlier ++ [t])) later := by
  induction turns with
  | nil =>
      intro st before rest hsplit
      exact absurd hsplit.symm (by simp [loopEvents])
  | cons t turns ih =>
      intro st before rest hsplit
      rw [loopEvents] at hsplit
      rcases List.append_eq_append_iff.mp hsplit with
        ⟨before', rfl, hlater⟩ | ⟨part, hround, hrest⟩
      · obtain ⟨earlier, u, later, part, rfl, hmem, hpart, rfl⟩ := ih hlater
        exact ⟨t :: earlier, u, later, part, rfl, hmem, hpart, rfl⟩
      · cases part with
        | nil =>
            have hlater : loopEvents opt (turn opt st t) turns =
                [] ++ .recvfrom d :: rest := hrest.symm
            obtain ⟨earlier, u, later, part, rfl, hmem, hpart, rfl⟩ :=
              ih hlater
            exact ⟨t :: earlier, u, later, part, rfl, hmem, hpart, rfl⟩
        | cons e part =>
            obtain ⟨rfl, rfl⟩ := List.cons.inj hrest
            have hmem : Event.recvfrom d ∈ turnEvents opt st t := by
              simp [hround]
            refine ⟨[], t, turns, part, rfl, hmem, ?_, rfl⟩
            rcases turnEvents_cases opt st t with ⟨-, hevents⟩ | ⟨-, hevents⟩
            · rw [hevents] at hmem
              simp at hmem
            · rw [hround, rotations_append, rotations_recvfrom] at hevents
              omega

end Rounds

section Secrets

variable {opt : Options} {st : UdpServer × TorrentDb}

theorem secrets_push (alloc : Bool) (addr : Sockaddr) (data : List UInt8)
    (s : UdpServer) : (s.push alloc addr data).secrets = s.secrets := by
  unfold push
  split <;> rfl

theorem secrets_receiveDatagram
    (opt : Options) (d : Datagram) (s : UdpServer) (db : TorrentDb) :
    (s.receiveDatagram opt d db).1.secrets = s.secrets := by
  rcases receiveDatagram_cases opt d s db with
    ⟨-, hdrop⟩ | ⟨-, ⟨-, hstep⟩ | ⟨-, hstep⟩ | ⟨-, hstep⟩⟩
  · rw [hdrop]
  · rw [hstep, handleConnect]
    split
    · rfl
    · exact secrets_push _ _ _ s
  · rw [hstep, handleAnnounce]
    split
    · rfl
    · split
      · exact secrets_push _ _ _ s
      · exact secrets_push _ _ _ s
  · rw [hstep, handleScrape]
    split
    · rfl
    · dsimp only
      split
      · exact secrets_push _ _ _ s
      · exact secrets_push _ _ _ s

/-- Every event but a rotation keeps the secrets. -/
theorem secrets_step {e : Event} (he : e.rotates = false) :
    (step opt st e).1.secrets = st.1.secrets := by
  cases e with
  | genSecret now rnd =>
      cases he
  | sendto now result =>
      show (st.1.sendFront result).secrets = _
      unfold sendFront
      split
      · rfl
      · split <;> rfl
  | recvfrom d =>
      exact secrets_receiveDatagram opt d st.1 st.2

/-- A rotation makes every secret one older. -/
theorem secrets_genSecret {s : UdpServer} {secret : Secret} {i : Nat}
    (now : Int) (rnd : Option Secret) (hi : i + 1 < 3)
    (hsecret : s.secrets[i]? = some secret) :
    (s.genSecret now rnd).secrets[i + 1]? = some secret := by
  have hcases : i = 0 ∨ i = 1 := by omega
  rcases hcases with rfl | rfl
  · simpa [genSecret] using hsecret
  · simpa [genSecret] using hsecret

/-- A secret ages by one with every rotation, and is in force until `2`. -/
theorem secrets_run
    (opt : Options) {secret : Secret} (events : List Event) :
    ∀ {st : UdpServer × TorrentDb} {i : Nat},
      st.1.secrets[i]? = some secret →
      i + rotations events < 3 →
      (Runs.run (step opt) st events).1.secrets[i + rotations events]? =
        some secret := by
  induction events with
  | nil =>
      intro st i hsecret _
      exact hsecret
  | cons e events ih =>
      intro st i hsecret hfew
      rw [Runs.run_cons]
      cases he : e.rotates with
      | false =>
          have hrest : rotations (e :: events) = rotations events :=
            List.countP_cons_of_neg (by simp [he])
          rw [hrest] at hfew ⊢
          apply ih _ hfew
          rw [secrets_step he]
          exact hsecret
      | true =>
          have hrest : rotations (e :: events) = rotations events + 1 :=
            List.countP_cons_of_pos he
          have hswap : i + (rotations events + 1) =
              i + 1 + rotations events := by
            omega
          rw [hrest, hswap] at hfew ⊢
          apply ih _ hfew
          cases e with
          | genSecret now rnd =>
              exact secrets_genSecret now rnd (by omega) hsecret
          | sendto now result =>
              cases he
          | recvfrom d =>
              cases he

end Secrets

section Lifetime

/-- Two socket addresses of one IP, on any ports. -/
def SameIp : Sockaddr → Sockaddr → Prop
  | .inet a, .inet b => a.sinAddr = b.sinAddr
  | .inet6 a, .inet6 b => a.sin6Addr = b.sin6Addr
  | _, _ => False

/-- An id depends on the IP alone. -/
theorem connectionId_sameIp {addr addr' : Sockaddr}
    (hip : SameIp addr addr') (secret : Secret) :
    connectionId secret addr = connectionId secret addr' := by
  cases addr <;> cases addr' <;> simp_all [SameIp, connectionId]

/--
In the run of the loop, an id computed for an IP is accepted from that IP in
every state of the next 60 seconds.
-/
def IdsLast (opt : Options) (st : UdpServer × TorrentDb)
    (turns : List Turn) : Prop :=
  ∀ (before : List Event) (d : Datagram) (mid after : List Event),
    loopEvents opt st turns = before ++ .recvfrom d :: mid ++ after →
    d.IsConnect →
    (∀ e ∈ mid, e.clock ≤ d.now + 60 * second) →
    ∀ addr, SameIp d.addr addr →
      checkConnectionId
        (Runs.run (step opt) st (before ++ .recvfrom d :: mid)).1
        (connectId (Runs.run (step opt) st before).1 d) addr = true

/-- There are at most two rotations in the 60 seconds after a connect. -/
def FewRotations (opt : Options) (st : UdpServer × TorrentDb)
    (turns : List Turn) : Prop :=
  ∀ (before : List Event) (d : Datagram) (mid after : List Event),
    loopEvents opt st turns = before ++ .recvfrom d :: mid ++ after →
    d.IsConnect →
    (∀ e ∈ mid, e.clock ≤ d.now + 60 * second) →
    rotations mid ≤ 2

/--
At most two of the rounds in the 60 seconds after that of a connect rotate the
secrets.
-/
def FewRotatingTurns (opt : Options) (st : UdpServer × TorrentDb)
    (turns : List Turn) : Prop :=
  ∀ (earlier : List Turn) (t : Turn) (during later : List Turn) (d : Datagram),
    turns = earlier ++ t :: during ++ later →
    .recvfrom d ∈ turnEvents opt (Runs.run (turn opt) st earlier) t →
    d.IsConnect →
    let next := Runs.run (turn opt) st (earlier ++ [t])
    (∀ e ∈ loopEvents opt next during, e.clock ≤ d.now + 60 * second) →
    rotatingTurns opt next during ≤ 2

/-- Whether a run has few rotations can be read off its rounds. -/
theorem fewRotations_of_turns
    {opt : Options} {st : UdpServer × TorrentDb} {turns : List Turn}
    (hfew : FewRotatingTurns opt st turns) : FewRotations opt st turns := by
  intro before d mid after hsplit hconnect hsoon
  rw [List.append_assoc, List.cons_append] at hsplit
  obtain ⟨earlier, t, later, part, rfl, hmem, hpart, hrest⟩ :=
    loopEvents_recvfrom hsplit
  rcases List.append_eq_append_iff.mp hrest with
    ⟨part', rfl, -⟩ | ⟨mid', rfl, hlater⟩
  · rw [rotations_append] at hpart
    omega
  · obtain ⟨during, rest, part', rfl, rfl, hpart'⟩ := loopEvents_split hlater
    have htwo := hfew earlier t during rest d
      (List.append_assoc earlier (t :: during) rest).symm hmem hconnect
      fun e he => hsoon e
        (List.mem_append_right _ (List.mem_append_left _ he))
    rw [rotations_append, rotations_append, rotations_loopEvents]
    omega

/-- The clock readings of the loop, in the order in which they are made. -/
def loopClock (opt : Options) :
    UdpServer × TorrentDb → List Turn → List Int
  | _, [] => []
  | st, t :: turns =>
      t.now :: (turnEvents opt st t).map Event.clock ++
        loopClock opt (turn opt st t) turns

/-- An id is accepted from its IP until the third rotation after it. -/
theorem accepted_of_fewRotations
    {opt : Options} {st : UdpServer × TorrentDb} {d : Datagram}
    {events : List Event} {addr : Sockaddr}
    (hfew : rotations events ≤ 2) (hip : SameIp d.addr addr) :
    (Runs.run (step opt) st (Event.recvfrom d :: events)).1.checkConnectionId
      (connectId st.1 d) addr = true := by
  have hnewest : st.1.secrets[0]? = some st.1.secrets[0] := by simp
  have hrotations := rotations_recvfrom d events
  have hforce := secrets_run opt (Event.recvfrom d :: events) hnewest
    (by omega)
  obtain ⟨hlt, hsecret⟩ := Vector.getElem?_eq_some_iff.mp hforce
  rw [checkConnectionId_iff]
  refine ⟨⟨_, hlt⟩, ?_⟩
  rw [← connectionId_sameIp hip, connectId]
  exact congrArg (connectionId · d.addr) hsecret.symm

/--
**With at most two rotations in 60 seconds, every id lives that long.**
-/
theorem idsLast_of_fewRotations
    {opt : Options} {st : UdpServer × TorrentDb} {turns : List Turn}
    (hfew : FewRotations opt st turns) :
    IdsLast opt st turns := by
  intro before d mid after hsplit hconnect hsoon addr hip
  rw [Runs.run_append]
  exact accepted_of_fewRotations
    (hfew before d mid after hsplit hconnect hsoon) hip

section Waiting

/-- A connect from `10.0.0.1`. -/
def connectDatagram : Datagram where
  now := 0
  bytes := List.replicate 16 0
  addr := .inet ⟨6881, sampleIp⟩
  buffer := zeros 4096
  raw := zeros 18
  alloc := true

/-- A secret of 32 equal bytes. -/
def plainSecret (b : UInt8) : Secret :=
  ⟨List.replicate 32 b, List.length_replicate⟩

/-- A round in which `poll` times out at `wake`. -/
def waitingTurn (now wake : Int) (b : UInt8) : Turn where
  now := now
  wake := wake
  rnd := some (plainSecret b)
  poll := .timeout

/-- The round in which the connect comes in. -/
def connectTurn : Turn where
  now := 0
  wake := 0
  rnd := none
  poll := .readable [connectDatagram]

/-- A server that was started at time zero. -/
def startedServer : UdpServer :=
  new.start 0 (some (plainSecret 7)) (some (plainSecret 6))
    (some (plainSecret 5))

theorem turnEvents_waitingTurn (opt : Options) (st : UdpServer × TorrentDb)
    (now wake : Int) (b : UInt8) :
    turnEvents opt st (waitingTurn now wake b) =
      [.genSecret wake (some (plainSecret b))] := by
  unfold turnEvents waitingTurn
  split <;> rfl

theorem turnEvents_connectTurn :
    turnEvents {} (startedServer, ∅) connectTurn =
      [.recvfrom connectDatagram] := by
  have hdue : ¬ startedServer.timeout 0 ≤ 0 := by decide
  show (if startedServer.timeout 0 ≤ 0 then _ else _) = _
  rw [if_neg hdue]
  rfl

/-- The events of a loop that answers a connect and then only waits. -/
theorem loopEvents_waiting (waits : List (Int × Int × UInt8)) :
    loopEvents {} (startedServer, ∅)
        (connectTurn :: waits.map fun w => waitingTurn w.1 w.2.1 w.2.2) =
      .recvfrom connectDatagram ::
        waits.map fun w => .genSecret w.2.1 (some (plainSecret w.2.2)) := by
  have hwaits : ∀ (ws : List (Int × Int × UInt8)) st,
      loopEvents {} st (ws.map fun w => waitingTurn w.1 w.2.1 w.2.2) =
        ws.map fun w => .genSecret w.2.1 (some (plainSecret w.2.2)) := by
    intro ws
    induction ws with
    | nil =>
        intro st
        rfl
    | cons w ws ih =>
        intro st
        rw [List.map_cons, loopEvents, turnEvents_waitingTurn, ih]
        rfl
  rw [loopEvents, turnEvents_connectTurn, hwaits]
  rfl

theorem isConnect_connectDatagram : connectDatagram.IsConnect :=
  ⟨by decide, by decide⟩

/-- Two rotations after the connect leave its id in force. -/
theorem idsLast_two_timeouts :
    IdsLast {} (startedServer, ∅)
      [connectTurn, waitingTurn 0 second 1,
        waitingTurn second (2 * second) 2] := by
  apply idsLast_of_fewRotations
  apply fewRotations_of_turns
  intro earlier t during later d hsplit _ _ next _
  have hlength := congrArg List.length hsplit
  have hrotating := rotatingTurns_le_length {} during next
  simp only [List.length_append, List.length_cons, List.length_nil] at hlength
  omega

/--
A server that answers one connect and then waits three seconds no longer
accepts its id.
-/
theorem idsLast_false_of_three_timeouts :
    let turns := [connectTurn, waitingTurn 0 second 1,
      waitingTurn second (2 * second) 2,
      waitingTurn (2 * second) (3 * second) 3]
    (loopClock {} (startedServer, ∅) turns).Pairwise (· ≤ ·) ∧
      ¬ IdsLast {} (startedServer, ∅) turns := by
  intro turns
  refine ⟨?_, ?_⟩
  · simp only [turns, loopClock, turnEvents_connectTurn,
      turnEvents_waitingTurn]
    decide
  · intro hlast
    have hevents := loopEvents_waiting [(0, second, 1),
      (second, 2 * second, 2), (2 * second, 3 * second, 3)]
    have haccepted := hlast [] connectDatagram
      [.genSecret second (some (plainSecret 1)),
        .genSecret (2 * second) (some (plainSecret 2)),
        .genSecret (3 * second) (some (plainSecret 3))] []
      hevents isConnect_connectDatagram (by decide)
      connectDatagram.addr rfl
    revert haccepted
    decide

end Waiting

end Lifetime

end UdpServer
end Hefur
