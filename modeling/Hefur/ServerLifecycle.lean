import Hefur.Lib.Runs

/-!
# Starting and stopping the servers

The model of `start` and `stop` in `http-server.cc` and `udp-server.cc`: the
stop flag, the thread and the sockets.  What the servers do while they run is
the subject of other modules.

Threads and listening sockets are those of the library (`Threads`,
`Listeners`).  The loop of a server tests its stop flag first: a thread that is
started while the flag is set returns at once.

`Status` is what both classes promise something about, and `StartsRight` and
`StopsRight` are the promises.  `HttpServer::start` does not clear the flag that
`stop` sets, and `UdpServer::stop` does not close its socket.  The main result,
`callsRight_iff`, says which sequences of calls are served right.
-/

namespace Hefur
namespace Lifecycle

section Promises

/--
What a server is doing: whether its thread is in its loop, the stop flag,
whether the socket of the loop is open, and how many sockets it holds open.
-/
structure Status where
  running : Bool
  stop : Bool
  serves : Bool
  sockets : Nat

/-- The server serves requests. -/
def Status.Serving (x : Status) : Prop :=
  x.running = true ∧ x.stop = false ∧ x.serves = true

def Status.Stopped (x : Status) : Prop :=
  x.running = false ∧ x.sockets = 0

/--
After a `start` that returned true the server serves.  If it was running, it
was restarted: of its sockets only the new one is open.
-/
structure StartsRight (before after : Status) (ret : Bool) : Prop where
  serving : ret = true → after.Serving
  restarts : ret = true → before.running = true → after.sockets = 1

/--
After a `stop` the server is stopped; if it was stopped before, `stop` changed
nothing.
-/
structure StopsRight (before after : Status) (unchanged : Prop) : Prop where
  stopped : after.Stopped
  idle : before.Stopped → unchanged

end Promises

section Library

/--
The threads of the library.  `start` is told whether the function that the
thread runs enters its loop.
-/
structure Threads (T : Type) where
  new : T
  start : Bool → T → T
  cancel : T → T
  join : T → T
  running : T → Bool

structure Threads.Lawful {T : Type} (M : Threads T) : Prop where
  new : M.running M.new = false
  start : ∀ enters t, M.running t = false →
    M.running (M.start enters t) = enters
  join : ∀ t, M.running (M.join (M.cancel t)) = false

/-- `mh::Server` and its socket; `listen` is told whether it succeeds. -/
structure Listeners (S : Type) where
  new : S
  listen : Bool → S → S
  close : S → S
  isOpen : S → Bool

structure Listeners.Lawful {S : Type} (L : Listeners S) : Prop where
  listen : ∀ s, L.isOpen (L.listen true s) = true
  close : ∀ s, L.isOpen (L.close s) = false

/-- A thread is the flag that it runs. -/
def Threads.plain : Threads Bool where
  new := false
  start enters running := running || enters
  cancel _ := false
  join running := running
  running := id

theorem Threads.lawful_plain : Threads.plain.Lawful where
  new := rfl
  start := by
    intro enters t ht
    exact (congrArg (· || enters) ht).trans (Bool.false_or enters)
  join := by
    intro t
    rfl

/-- A server is the flag that its socket is open. -/
def Listeners.plain : Listeners Bool where
  new := false
  listen succeeds _ := succeeds
  close _ := false
  isOpen := id

theorem Listeners.lawful_plain : Listeners.plain.Lawful where
  listen := by
    intro s
    rfl
  close := by
    intro s
    rfl

end Library

section Http

variable {T S : Type}

/-- The fields of `HttpServer`, and the servers that it let go. -/
structure HttpServer (T S : Type) where
  stop_ : Bool
  thread : T
  server : Option S
  released : List S

/-- A call, and whether the socket can be listened on. -/
inductive HttpCall where
  | start (listens : Bool)
  | stop

namespace HttpServer

variable (M : Threads T) (L : Listeners S)

def new : HttpServer T S where
  stop_ := false
  thread := M.new
  server := none
  released := []

def stop (s : HttpServer T S) : HttpServer T S :=
  match s.server with
  | none => s
  | some server =>
      { stop_ := true
        thread := M.join (M.cancel s.thread)
        server := none
        released := L.close server :: s.released }

/-- `start`, and what it returns. -/
def start (listens : Bool) (s : HttpServer T S) : HttpServer T S × Bool :=
  let s := if s.server.isSome then s.stop M L else s
  let s := { s with server := some (L.listen listens L.new) }
  if listens then
    ({ s with thread := M.start (!s.stop_) s.thread }, true)
  else (s, false)

def status (s : HttpServer T S) : Status where
  running := M.running s.thread
  stop := s.stop_
  serves := s.server.any L.isOpen
  sockets := (s.server.toList ++ s.released).countP L.isOpen

def step (s : HttpServer T S) : HttpCall → HttpServer T S
  | .start listens => (s.start M L listens).1
  | .stop => s.stop M L

/-- The call does what the class promises. -/
def Right (s : HttpServer T S) : HttpCall → Prop
  | .start listens =>
      StartsRight (s.status M L) ((s.start M L listens).1.status M L)
        (s.start M L listens).2
  | .stop =>
      StopsRight (s.status M L) ((s.stop M L).status M L) (s.stop M L = s)

/--
What the call has to find: a `start` that can listen finds a server that is new,
and a `stop` does not find what a failed `start` leaves behind.
-/
def Allowed (s : HttpServer T S) : HttpCall → Prop
  | .start listens => listens = true → s.server = none ∧ s.stop_ = false
  | .stop => s.server ≠ none → ¬ (s.status M L).Stopped

/-- Without a server object there is no thread, and the others are closed. -/
structure Sound (s : HttpServer T S) : Prop where
  idle : s.server = none → M.running s.thread = false
  released : ∀ server ∈ s.released, L.isOpen server = false

section Steps

variable {M : Threads T} {L : Listeners S} {s : HttpServer T S}

theorem sound_new (hM : M.Lawful) : (new M : HttpServer T S).Sound M L where
  idle := by
    intro _
    exact hM.new
  released := by
    intro server hserver
    cases hserver

theorem running_stop (hM : M.Lawful) (hs : s.Sound M L) :
    M.running (s.stop M L).thread = false := by
  unfold stop
  cases hserver : s.server with
  | none => exact hs.idle hserver
  | some server => exact hM.join s.thread

theorem server_stop (s : HttpServer T S) : (s.stop M L).server = none := by
  unfold stop
  cases hserver : s.server with
  | none => exact hserver
  | some server => rfl

/-- `stop` closes the server that it lets go. -/
theorem released_stop (hL : L.Lawful) (hs : s.Sound M L) :
    ∀ server ∈ (s.stop M L).released, L.isOpen server = false := by
  unfold stop
  cases hserver : s.server with
  | none => exact hs.released
  | some server =>
      intro other hother
      rcases List.mem_cons.mp hother with rfl | hother
      · exact hL.close server
      · exact hs.released other hother

theorem sound_stop (hM : M.Lawful) (hL : L.Lawful) (hs : s.Sound M L) :
    (s.stop M L).Sound M L where
  idle := fun _ => running_stop hM hs
  released := released_stop hL hs

/-- What `start` leaves of the server before, and of those let go. -/
theorem start_fields (s : HttpServer T S) (listens : Bool) :
    (s.start M L listens).1.server = some (L.listen listens L.new) ∧
      (s.start M L listens).1.released =
        (if s.server.isSome then s.stop M L else s).released := by
  cases listens <;> exact ⟨rfl, rfl⟩

theorem sound_step (hM : M.Lawful) (hL : L.Lawful) (hs : s.Sound M L)
    (c : HttpCall) : (s.step M L c).Sound M L := by
  cases c with
  | start listens =>
      obtain ⟨hserver, hreleased⟩ := start_fields (M := M) (L := L) s listens
      constructor
      · intro hnone
        rw [step, hserver] at hnone
        cases hnone
      · rw [step, hreleased]
        split
        · exact released_stop hL hs
        · exact hs.released
  | stop =>
      exact sound_stop hM hL hs

theorem start_of_none (hserver : s.server = none) :
    s.start M L true =
      ({ stop_ := s.stop_
         thread := M.start (!s.stop_) s.thread
         server := some (L.listen true L.new)
         released := s.released }, true) := by
  simp [start, hserver]

/-- Of the sockets only that of the server object can be open. -/
theorem sockets_status (hs : s.Sound M L) :
    (s.status M L).sockets = s.server.toList.countP L.isOpen := by
  have hclosed : s.released.countP L.isOpen = 0 :=
    List.countP_eq_zero.mpr fun server hserver => by
      simp [hs.released server hserver]
  rw [status, List.countP_append, hclosed, Nat.add_zero]

/-- The `stop` of a restart sets the flag, and nothing clears it. -/
theorem start_of_some {server : S} (hserver : s.server = some server) :
    (s.start M L true).1.stop_ = true ∧ (s.start M L true).2 = true := by
  simp [start, stop, hserver]

/-- Without a server object, a `start` depends on the flag. -/
theorem right_start_of_none (hM : M.Lawful) (hL : L.Lawful)
    (hs : s.Sound M L) (hserver : s.server = none) :
    s.Right M L (.start true) ↔ s.stop_ = false := by
  have hopen := hL.listen L.new
  have hrunning := hM.start (!s.stop_) s.thread (hs.idle hserver)
  have hsockets := sockets_status (sound_step hM hL hs (.start true))
  rw [step, start_of_none hserver] at hsockets
  rw [Right, start_of_none hserver]
  constructor
  · intro h
    exact (h.serving rfl).2.1
  · intro hclear
    refine ⟨?_, ?_⟩
    · intro _
      refine ⟨?_, hclear, ?_⟩
      · rw [status, hrunning, hclear]
        rfl
      · simp [status, hopen]
    · intro _ _
      simp [hsockets, hopen]

theorem not_right_start_of_some {server : S}
    (hserver : s.server = some server) : ¬ s.Right M L (.start true) := by
  intro h
  obtain ⟨hset, hret⟩ := start_of_some (M := M) (L := L) hserver
  have hclear : (s.start M L true).1.stop_ = false := (h.serving hret).2.1
  rw [hset] at hclear
  cases hclear

/-- A `start` that cannot listen promises nothing. -/
theorem right_start_false : s.Right M L (.start false) := by
  constructor
  · intro hret
    cases hret
  · intro hret
    cases hret

theorem right_start_iff (hM : M.Lawful) (hL : L.Lawful) (hs : s.Sound M L)
    (listens : Bool) :
    s.Right M L (.start listens) ↔ s.Allowed M L (.start listens) := by
  cases listens with
  | false =>
      refine ⟨?_, fun _ => right_start_false⟩
      intro _ hlistens
      cases hlistens
  | true =>
      cases hserver : s.server with
      | none =>
          rw [right_start_of_none hM hL hs hserver]
          exact ⟨fun hclear _ => ⟨hserver, hclear⟩, fun h => (h rfl).2⟩
      | some server =>
          refine iff_of_false (not_right_start_of_some hserver) ?_
          intro h
          have hnone : s.server = none := (h rfl).1
          rw [hserver] at hnone
          cases hnone

theorem right_stop_iff (hM : M.Lawful) (hL : L.Lawful) (hs : s.Sound M L) :
    s.Right M L .stop ↔ s.Allowed M L .stop := by
  have hstopped : ((s.stop M L).status M L).Stopped := by
    refine ⟨running_stop hM hs, ?_⟩
    rw [sockets_status (sound_stop hM hL hs), server_stop]
    rfl
  constructor
  · intro h hserver hidle
    have hsame := congrArg HttpServer.server (h.idle hidle)
    rw [server_stop] at hsame
    exact hserver hsame.symm
  · intro h
    refine ⟨hstopped, ?_⟩
    intro hidle
    cases hserver : s.server with
    | none =>
        unfold stop
        rw [hserver]
    | some server =>
        exact (h (by simp [hserver]) hidle).elim

theorem right_iff (hM : M.Lawful) (hL : L.Lawful) (hs : s.Sound M L)
    (c : HttpCall) : s.Right M L c ↔ s.Allowed M L c := by
  cases c with
  | start listens => exact right_start_iff hM hL hs listens
  | stop => exact right_stop_iff hM hL hs

end Steps

end HttpServer

end Http

section Udp

variable {T : Type}

/-- The fields of `UdpServer`, and the sockets that are open. -/
structure UdpServer (T : Type) where
  stop_ : Bool
  thread : T
  fd : Int
  sockets : List Nat

/-- A call, the socket that can be had, and whether it can be bound. -/
inductive UdpCall where
  | start (socket : Option Nat) (binds : Bool)
  | stop

namespace UdpServer

variable (M : Threads T)

def new : UdpServer T where
  stop_ := false
  thread := M.new
  fd := -1
  sockets := []

def stop (s : UdpServer T) : UdpServer T :=
  if s.fd ≤ 0 then s
  else
    { s with
      stop_ := true
      thread := M.join (M.cancel s.thread) }

/-- `start`, and what it returns. -/
def start (socket : Option Nat) (binds : Bool) (s : UdpServer T) :
    UdpServer T × Bool :=
  let s := if 0 ≤ s.fd then s.stop M else s
  let s := { s with stop_ := false }
  match socket with
  | none => ({ s with fd := -1 }, false)
  | some fd =>
      let s := { s with fd := fd, sockets := fd :: s.sockets }
      if binds then
        ({ s with thread := M.start (!s.stop_) s.thread }, true)
      else (s, false)

def status (s : UdpServer T) : Status where
  running := M.running s.thread
  stop := s.stop_
  serves := s.sockets.any fun fd => (fd : Int) = s.fd
  sockets := s.sockets.length

def step (s : UdpServer T) : UdpCall → UdpServer T
  | .start socket binds => (s.start M socket binds).1
  | .stop => s.stop M

/-- The call does what the class promises. -/
def Right (s : UdpServer T) : UdpCall → Prop
  | .start socket binds =>
      StartsRight (s.status M) ((s.start M socket binds).1.status M)
        (s.start M socket binds).2
  | .stop => StopsRight (s.status M) ((s.stop M).status M) (s.stop M = s)

/--
What the call has to find: a `start` that gets its socket finds no running
thread, and a `stop` finds a server that never got a socket.
-/
def Allowed (s : UdpServer T) : UdpCall → Prop
  | .start socket binds =>
      socket.isSome = true → binds = true → M.running s.thread = false
  | .stop => s.sockets = []

/-- The descriptor is open, and a thread has had a socket. -/
structure Sound (s : UdpServer T) : Prop where
  opened : 0 ≤ s.fd → s.sockets ≠ []
  running : M.running s.thread = true → s.sockets ≠ []

section Steps

variable {M : Threads T} {s : UdpServer T}

theorem sound_new (hM : M.Lawful) : (new M).Sound M where
  opened := by
    intro hfd
    cases hfd
  running := by
    intro hrunning
    rw [new, hM.new] at hrunning
    cases hrunning

@[simp] theorem sockets_stop (s : UdpServer T) :
    (s.stop M).sockets = s.sockets := by
  unfold stop
  split <;> rfl

@[simp] theorem fd_stop (s : UdpServer T) : (s.stop M).fd = s.fd := by
  unfold stop
  split <;> rfl

/-- `stop` ends the thread, or leaves it as it is. -/
theorem running_stop (hM : M.Lawful) (s : UdpServer T) :
    M.running (s.stop M).thread = true → M.running s.thread = true := by
  unfold stop
  split
  · exact id
  · intro hrunning
    rw [hM.join] at hrunning
    cases hrunning

theorem sound_stop (hM : M.Lawful) (hs : s.Sound M) : (s.stop M).Sound M where
  opened := by
    rw [fd_stop, sockets_stop]
    exact hs.opened
  running := by
    rw [sockets_stop]
    exact fun hrunning => hs.running (running_stop hM s hrunning)

/-- The server as `start` leaves it to the call to `socket`. -/
def halted (M : Threads T) (s : UdpServer T) : UdpServer T :=
  { (if 0 ≤ s.fd then s.stop M else s) with stop_ := false }

theorem sockets_halted (s : UdpServer T) :
    (s.halted M).sockets = s.sockets := by
  unfold halted
  split
  · exact sockets_stop s
  · rfl

theorem running_halted (hM : M.Lawful) (s : UdpServer T) :
    M.running (s.halted M).thread = true → M.running s.thread = true := by
  unfold halted
  split
  · exact running_stop hM s
  · exact id

theorem start_none (s : UdpServer T) (binds : Bool) :
    s.start M none binds = ({ s.halted M with fd := -1 }, false) := by
  rfl

theorem start_unbound (s : UdpServer T) (fd : Nat) :
    s.start M (some fd) false =
      ({ s.halted M with fd := fd, sockets := fd :: (s.halted M).sockets },
        false) := by
  rfl

theorem start_bound (s : UdpServer T) (fd : Nat) :
    s.start M (some fd) true =
      ({ stop_ := false
         thread := M.start true (s.halted M).thread
         fd := fd
         sockets := fd :: (s.halted M).sockets }, true) := by
  rfl

theorem sound_step (hM : M.Lawful) (hs : s.Sound M) (c : UdpCall) :
    (s.step M c).Sound M := by
  cases c with
  | stop =>
      exact sound_stop hM hs
  | start socket binds =>
      cases socket with
      | none =>
          rw [step, start_none]
          refine ⟨?_, ?_⟩
          · intro hfd
            cases hfd
          · intro hrunning
            show (s.halted M).sockets ≠ []
            rw [sockets_halted]
            exact hs.running (running_halted hM s hrunning)
      | some fd =>
          cases binds with
          | false =>
              rw [step, start_unbound]
              exact ⟨fun _ => List.cons_ne_nil _ _,
                fun _ => List.cons_ne_nil _ _⟩
          | true =>
              rw [step, start_bound]
              exact ⟨fun _ => List.cons_ne_nil _ _,
                fun _ => List.cons_ne_nil _ _⟩

/-- A restart leaves the old socket open. -/
theorem right_start_bound (hM : M.Lawful) (hs : s.Sound M) (fd : Nat) :
    s.Right M (.start (some fd) true) ↔ M.running s.thread = false := by
  rw [Right, start_bound]
  constructor
  · intro h
    by_contra hrunning
    have hrun := Bool.not_eq_false _ |>.mp hrunning
    have hone : (fd :: (s.halted M).sockets).length = 1 :=
      h.restarts rfl hrun
    rw [sockets_halted, List.length_cons] at hone
    exact hs.running hrun (List.length_eq_zero_iff.mp (by omega))
  · intro hidle
    have hhalted : M.running (s.halted M).thread = false := by
      by_contra hrunning
      rw [running_halted hM s (Bool.not_eq_false _ |>.mp hrunning)] at hidle
      cases hidle
    refine ⟨?_, ?_⟩
    · intro _
      exact ⟨hM.start true _ hhalted, rfl, by simp [status]⟩
    · intro _ hrunning
      rw [show (s.status M).running = false from hidle] at hrunning
      cases hrunning

theorem right_start_iff (hM : M.Lawful) (hs : s.Sound M)
    (socket : Option Nat) (binds : Bool) :
    s.Right M (.start socket binds) ↔
      s.Allowed M (.start socket binds) := by
  cases socket with
  | none =>
      rw [Right, Allowed, start_none]
      constructor
      · intro _ hsome
        cases hsome
      · intro _
        exact ⟨by simp, by simp⟩
  | some fd =>
      cases binds with
      | false =>
          rw [Right, Allowed, start_unbound]
          constructor
          · intro _ _ hbinds
            cases hbinds
          · intro _
            exact ⟨by simp, by simp⟩
      | true =>
          rw [right_start_bound hM hs]
          exact ⟨fun hidle _ _ => hidle, fun h => h rfl rfl⟩

theorem right_stop_iff (hs : s.Sound M) :
    s.Right M .stop ↔ s.Allowed M .stop := by
  constructor
  · intro h
    have hnone : (s.stop M).sockets.length = 0 := h.stopped.2
    rw [sockets_stop] at hnone
    exact List.length_eq_zero_iff.mp hnone
  · intro hnone
    have hfd : s.fd ≤ 0 := by
      by_contra hpos
      exact hs.opened (by omega) hnone
    have hsame : s.stop M = s := if_pos hfd
    have hidle : M.running s.thread = false := by
      by_contra hrunning
      exact hs.running (Bool.not_eq_false _ |>.mp hrunning) hnone
    refine ⟨?_, fun _ => hsame⟩
    rw [hsame]
    exact ⟨hidle, List.length_eq_zero_iff.mpr hnone⟩

theorem right_iff (hM : M.Lawful) (hs : s.Sound M) (c : UdpCall) :
    s.Right M c ↔ s.Allowed M c := by
  cases c with
  | start socket binds => exact right_start_iff hM hs socket binds
  | stop => exact right_stop_iff hs

end Steps

end UdpServer

end Udp

/--
**Which calls are served right.**  In a run of `start` and `stop`, every call
does what the class promises exactly if every call finds the server in a state
that is allowed for it.
-/
theorem callsRight_iff {T S : Type} {M : Threads T} {L : Listeners S}
    (hM : M.Lawful) (hL : L.Lawful) :
    (∀ calls : List HttpCall,
      Runs.StepsMeet (HttpServer.step M L) (HttpServer.Right M L)
          (HttpServer.new M) calls ↔
        Runs.StepsMeet (HttpServer.step M L) (HttpServer.Allowed M L)
          (HttpServer.new M) calls) ∧
    ∀ calls : List UdpCall,
      Runs.StepsMeet (UdpServer.step M) (UdpServer.Right M)
          (UdpServer.new M) calls ↔
        Runs.StepsMeet (UdpServer.step M) (UdpServer.Allowed M)
          (UdpServer.new M) calls := by
  constructor
  · intro calls
    exact Runs.stepsMeet_iff (I := HttpServer.Sound M L)
      (fun _ c hs => HttpServer.sound_step hM hL hs c)
      (fun _ c hs => HttpServer.right_iff hM hL hs c)
      (HttpServer.sound_new hM) calls
  · intro calls
    exact Runs.stepsMeet_iff (I := UdpServer.Sound M)
      (fun _ c hs => UdpServer.sound_step hM hs c)
      (fun _ c hs => UdpServer.right_iff hM hs c)
      (UdpServer.sound_new hM) calls

/-- One start and one stop over HTTP, and one start over UDP. -/
theorem callsRight_once :
    Runs.StepsMeet (HttpServer.step .plain .plain)
        (HttpServer.Right .plain .plain) (HttpServer.new .plain)
        [.start true, .stop] ∧
      Runs.StepsMeet (UdpServer.step .plain) (UdpServer.Right .plain)
        (UdpServer.new .plain) [.start (some 3) true] := by
  have hiff := callsRight_iff Threads.lawful_plain Listeners.lawful_plain
  refine ⟨(hiff.1 _).mpr ⟨fun _ => ⟨rfl, rfl⟩, ?_, trivial⟩,
    (hiff.2 _).mpr ⟨fun _ _ => rfl, trivial⟩⟩
  intro _ hstopped
  cases hstopped.1

/--
An HTTP server that is started again after a stop does not serve, and a UDP
server that is stopped keeps its socket.
-/
theorem calls_not_right :
    ¬ Runs.StepsMeet (HttpServer.step .plain .plain)
        (HttpServer.Right .plain .plain) (HttpServer.new .plain)
        [.start true, .stop, .start true] ∧
      ¬ Runs.StepsMeet (UdpServer.step .plain) (UdpServer.Right .plain)
        (UdpServer.new .plain) [.start (some 3) true, .stop] := by
  constructor
  · rintro ⟨-, -, hstart, -⟩
    cases (hstart.serving rfl).1
  · rintro ⟨-, hstop, -⟩
    cases hstop.stopped.2

end Lifecycle
end Hefur
