import Hefur.ConnectionLifetime

/-!
# Which connection ids are accepted

The connection ids that the UDP server accepts for an IP, in any run of
`start`, `genSecret` and datagrams: exactly those computed from the secrets that
were in force after the last three calls to `genSecret`
(`checkConnectionId_run`).  `history` takes these secrets from the random bytes
that the calls drew.

A connect is answered with the id of the newest of them (`replies_connect`),
which is accepted until the third call after it (`accepted_reply`).

`connectionIdChecked` is the computation with every index checked against the
bytes it indexes; it never fails (`connectionIdChecked_eq`).
-/

namespace Hefur
namespace UdpServer

open Bytes

section Calls

/-- A call to `start`, or what happens to the server afterwards. -/
inductive Call where
  | start (now : Int) (rnd0 rnd1 rnd2 : Option Secret)
  | event (e : Event)

/-- `start` makes three calls to `genSecret`. -/
def Call.events : Call → List Event
  | .start now rnd0 rnd1 rnd2 =>
      [.genSecret now rnd0, .genSecret now rnd1, .genSecret now rnd2]
  | .event e => [e]

def call (opt : Options) (st : UdpServer × TorrentDb) :
    Call → UdpServer × TorrentDb
  | .start now rnd0 rnd1 rnd2 => (st.1.start now rnd0 rnd1 rnd2, st.2)
  | .event e => step opt st e

/-- The calls to `genSecret`, those that `start` makes included. -/
def genSecrets (calls : List Call) : Nat :=
  rotations (calls.flatMap Call.events)

theorem run_calls (opt : Options) (calls : List Call) :
    ∀ st : UdpServer × TorrentDb,
      Runs.run (call opt) st calls =
        Runs.run (step opt) st (calls.flatMap Call.events) := by
  induction calls with
  | nil =>
      intro st
      rfl
  | cons c calls ih =>
      intro st
      rw [Runs.run_cons, ih, List.flatMap_cons, Runs.run_append]
      cases c with
      | start now rnd0 rnd1 rnd2 => rfl
      | event e => rfl

end Calls

section History

variable {opt : Options} {st : UdpServer × TorrentDb}

/-- The secret in force after an event; without random bytes the old one. -/
def inForce (secret : Secret) : Event → Secret
  | .genSecret _ rnd => rnd.getD secret
  | .sendto _ _ => secret
  | .recvfrom _ => secret

/--
The secrets in force after the calls to `genSecret`, newest first; `secret` was
in force before them.
-/
def history : Secret → List Event → List Secret
  | _, [] => []
  | secret, e :: events =>
      history (inForce secret e) events ++
        if e.rotates then [inForce secret e] else []

theorem length_history (events : List Event) :
    ∀ secret, (history secret events).length = rotations events := by
  induction events with
  | nil =>
      intro secret
      rfl
  | cons e events ih =>
      intro secret
      rw [history, List.length_append, ih, rotations, rotations,
        List.countP_cons]
      split <;> rfl

/-- The first secret of the server is the one in force. -/
theorem secrets_step_zero (e : Event) :
    (step opt st e).1.secrets.get 0 = inForce (st.1.secrets.get 0) e := by
  cases e with
  | genSecret now rnd => rfl
  | sendto now result => rw [secrets_step rfl, inForce]
  | recvfrom d => rw [secrets_step rfl, inForce]

theorem toList_secrets (v : Vector Secret 3) :
    v.toList = [v.get 0, v.get 1, v.get 2] := by
  have hv : v = #v[v.get 0, v.get 1, v.get 2] := by
    apply Vector.ext
    intro i hi
    match i, hi with
    | 0, _ => rfl
    | 1, _ => rfl
    | 2, _ => rfl
  conv_lhs => rw [hv]
  rfl

/-- Something new in front of three, and the last of them forgotten. -/
theorem take_window {α : Type} (new : List α) (x a b c : α) :
    (new ++ [x, a, b, c]).take 3 = (new ++ [x, a, b]).take 3 := by
  match new with
  | [] => rfl
  | [_] => rfl
  | [_, _] => rfl
  | _ :: _ :: _ :: _ => rfl

/-- The three secrets are the last three of the history. -/
theorem take_history (opt : Options) (events : List Event) :
    ∀ st : UdpServer × TorrentDb,
      (history (st.1.secrets.get 0) events ++ st.1.secrets.toList).take 3 =
        (Runs.run (step opt) st events).1.secrets.toList := by
  induction events with
  | nil =>
      intro st
      exact List.take_of_length_le (by simp [history])
  | cons e events ih =>
      intro st
      rw [Runs.run_cons, ← ih, history, secrets_step_zero]
      cases e with
      | genSecret now rnd =>
          rw [toList_secrets st.1.secrets, List.append_assoc]
          exact take_window _ _ _ _ _
      | sendto now result =>
          rw [secrets_step rfl]
          simp [Event.rotates]
      | recvfrom d =>
          rw [secrets_step rfl]
          simp [Event.rotates]

/-- The first secret is the newest of the history. -/
theorem secrets_run_zero (opt : Options) (events : List Event)
    (st : UdpServer × TorrentDb) :
    (Runs.run (step opt) st events).1.secrets.get 0 =
      (history (st.1.secrets.get 0) events).headD
        (st.1.secrets.get 0) := by
  induction events generalizing st with
  | nil =>
      rfl
  | cons e events ih =>
      rw [Runs.run_cons, ih, secrets_step_zero, history]
      cases history (inForce (st.1.secrets.get 0) e) events with
      | nil =>
          cases e <;> rfl
      | cons secret secrets =>
          rfl

theorem checkConnectionId_iff_mem {s : UdpServer} {connId : UInt64}
    {addr : Sockaddr} :
    s.checkConnectionId connId addr = true ↔
      ∃ secret ∈ s.secrets.toList, connId = connectionId secret addr := by
  rw [toList_secrets, checkConnectionId]
  simp only [Bool.or_eq_true, decide_eq_true_eq, List.mem_cons,
    List.not_mem_nil, or_false, exists_eq_or_imp, exists_eq_left, or_assoc]
  exact Iff.rfl

/-- The ids accepted for an IP come from the last three of the history. -/
theorem checkConnectionId_run (opt : Options) (calls : List Call)
    {st : UdpServer × TorrentDb} (hthree : 3 ≤ genSecrets calls)
    {connId : UInt64} {addr : Sockaddr} :
    (Runs.run (call opt) st calls).1.checkConnectionId connId addr = true ↔
      ∃ secret ∈
          (history (st.1.secrets.get 0) (calls.flatMap Call.events)).take 3,
        connId = connectionId secret addr := by
  have hlong :
      3 ≤ (history (st.1.secrets.get 0) (calls.flatMap Call.events)).length := by
    rw [length_history]
    exact hthree
  rw [checkConnectionId_iff_mem, run_calls, ← take_history,
    List.take_append_of_le_length hlong]

end History

section Issued

/-- The server answers `d` by queueing `data` for its sender. -/
def Replies (opt : Options) (st : UdpServer × TorrentDb) (d : Datagram)
    (data : List UInt8) : Prop :=
  (step opt st (.recvfrom d)).1.sbufs = ⟨d.addr, data⟩ :: st.1.sbufs

/-- The datagram starts with the id that the reply `data` ends with. -/
def ReturnsId (d : Datagram) (data : List UInt8) : Prop :=
  peek 0 8 d.bytes = peek 8 8 data

variable {opt : Options} {st : UdpServer × TorrentDb} {d d' : Datagram}

/-- A connect is answered with the id of its sender, if there is memory. -/
theorem replies_connect (opt : Options) (st : UdpServer × TorrentDb)
    (hconnect : d.IsConnect) (halloc : d.alloc = true) :
    Replies opt st d
      (connectResponse (transactionId d.filled) (connectId st.1 d)) := by
  obtain ⟨hlong, haction⟩ := hconnect
  have hsize := d.size_eq
  have hstep : (st.1.receiveDatagram opt d st.2).1 =
      st.1.handleConnect d d.filled d.size := by
    rcases receiveDatagram_cases opt d st.1 st.2 with
      ⟨hwhy, -⟩ | ⟨-, ⟨-, hstep⟩ | ⟨hother, -⟩ | ⟨hother, -⟩⟩
    · omega
    · rw [hstep]
    · omega
    · omega
  show (st.1.receiveDatagram opt d st.2).1.sbufs = _
  rw [hstep, handleConnect, if_neg (by omega), push, if_pos halloc]

/-- The id that a client gives back is the one that was issued to it. -/
theorem connectionIdField_of_returnsId {transactionId : Block 4}
    {connId : UInt64}
    (hid : ReturnsId d (connectResponse transactionId connId)) :
    connectionIdField d.bytes = connId := by
  have hbytes := (toLE 8 connId.toNat).property
  rw [connectionIdField, hid, connectResponse,
    peek_poke_same hbytes (by rw [length_response _ _ _ (by omega)]),
    ofLE_toLE connId.toNat_lt, UInt64.ofNat_toNat]

/-- An issued id is accepted until the third `genSecret` after it. -/
theorem accepted_reply {transactionId : Block 4} {calls : List Call}
    (hfew : genSecrets calls ≤ 2) (hip : SameIp d.addr d'.addr)
    (hid : ReturnsId d' (connectResponse transactionId (connectId st.1 d))) :
    Accepted (Runs.run (call opt) st (.event (.recvfrom d) :: calls)).1 d' := by
  rw [Accepted, connectionIdField_of_returnsId hid, ← checkConnectionId_iff,
    run_calls]
  exact accepted_of_fewRotations hfew hip

end Issued

section Indices

/--
`connectionId`, with every index checked: `none` if one of them is outside the
bytes of the address or of the secret.
-/
def connectionIdOfChecked (secret : Secret) (ip : List UInt8) :
    Option UInt64 :=
  (List.range ip.length).foldlM
    (fun connId j => do
      let byte ← ip[j]?
      let factor ← secret.val[j]?
      let mask ← secret.val[j + 1]?
      return connId + UInt64.ofNat ((byte.toNat * factor.toNat) ^^^ mask.toNat))
    0

def connectionIdChecked (secret : Secret) : Sockaddr → Option UInt64
  | .inet sin => connectionIdOfChecked secret sin.sinAddr.val
  | .inet6 sin6 => connectionIdOfChecked secret sin6.sin6Addr.val
  | .other _ => some 42

/-- Up to 31 bytes of an address the secret is long enough. -/
theorem connectionIdOfChecked_eq (secret : Secret) {ip : List UInt8}
    (hshort : ip.length < 32) :
    connectionIdOfChecked secret ip = some (connectionIdOf secret ip) := by
  have hsecret := secret.property
  have hloop : ∀ (js : List Nat) (connId : UInt64),
      (∀ j ∈ js, j < ip.length) →
      js.foldlM (fun connId j => do
          let byte ← ip[j]?
          let factor ← secret.val[j]?
          let mask ← secret.val[j + 1]?
          return connId +
            UInt64.ofNat ((byte.toNat * factor.toNat) ^^^ mask.toNat)) connId =
        some (js.foldl (fun connId j =>
          connId + UInt64.ofNat (mix secret ip j)) connId) := by
    intro js
    induction js with
    | nil =>
        intro connId _
        rfl
    | cons j js ih =>
        intro connId hjs
        have hj := hjs j (by simp)
        have hrest := fun i hi => hjs i (List.mem_cons_of_mem j hi)
        rw [List.foldlM_cons, List.foldl_cons, ← ih _ hrest, mix]
        simp only [List.getD_eq_getElem?_getD]
        rw [List.getElem?_eq_getElem hj,
          List.getElem?_eq_getElem (show j < secret.val.length by omega),
          List.getElem?_eq_getElem (show j + 1 < secret.val.length by omega)]
        rfl
  exact hloop _ 0 fun j hj => List.mem_range.mp hj

theorem connectionIdChecked_eq (secret : Secret) (addr : Sockaddr) :
    connectionIdChecked secret addr = some (connectionId secret addr) := by
  cases addr with
  | inet sin =>
      exact connectionIdOfChecked_eq secret (by rw [sin.sinAddr.property]; omega)
  | inet6 sin6 =>
      exact connectionIdOfChecked_eq secret
        (by rw [sin6.sin6Addr.property]; omega)
  | other f =>
      rfl

end Indices

section Window

/-- The secrets in force after the calls of a new server, newest first. -/
def forced (calls : List Call) : List Secret :=
  history (zeros 32) (calls.flatMap Call.events)

/--
In the run of these calls, every connect for which there is memory is answered
with the id of its IP under the newest secret, and a datagram that returns this
id is accepted from this IP, on any port, until the third `genSecret` after the
connect.
-/
def IssuedIdsLast (opt : Options) (db : TorrentDb) (calls : List Call) :
    Prop :=
  ∀ (before : List Call) (d : Datagram) (after : List Call),
    calls = before ++ .event (.recvfrom d) :: after →
    d.IsConnect → d.alloc = true →
    let issued := connectionId ((forced before).headD (zeros 32)) d.addr
    let data := connectResponse (transactionId d.filled) issued
    Replies opt (Runs.run (call opt) (new, db) before) d data ∧
      (genSecrets after ≤ 2 →
        ∀ d' : Datagram, SameIp d.addr d'.addr → ReturnsId d' data →
          Accepted (Runs.run (call opt) (new, db) calls).1 d')

theorem issuedIdsLast (opt : Options) (db : TorrentDb) (calls : List Call) :
    IssuedIdsLast opt db calls := by
  intro before d after hsplit hconnect halloc issued data
  have hissued :
      connectId (Runs.run (call opt) (new, db) before).1 d = issued := by
    rw [connectId, run_calls]
    exact congrArg (connectionId · d.addr) (secrets_run_zero opt _ _)
  have hdata : connectResponse (transactionId d.filled)
      (connectId (Runs.run (call opt) (new, db) before).1 d) = data := by
    rw [hissued]
  rw [← hdata]
  refine ⟨replies_connect opt _ hconnect halloc, fun hfew d' hip hid => ?_⟩
  rw [hsplit, Runs.run_append]
  exact accepted_reply hfew hip hid

/--
**The acceptance window.**  After `start` and any calls: connects are answered,
and the ids they get last until the third `genSecret`; the ids accepted for an
address are those computed from the secrets in force after the last three calls
to `genSecret`; and no id is computed from bytes outside a secret.
-/
theorem acceptance_window (opt : Options) (now : Int)
    (rnd0 rnd1 rnd2 : Option Secret) (calls : List Call) (db : TorrentDb) :
    let run : List Call := .start now rnd0 rnd1 rnd2 :: calls
    IssuedIdsLast opt db run ∧
      3 ≤ (forced run).length ∧
      (∀ (connId : UInt64) (addr : Sockaddr),
        (Runs.run (call opt) (new, db) run).1.checkConnectionId connId addr =
            true ↔
          ∃ secret ∈ (forced run).take 3,
            connId = connectionId secret addr) ∧
      ∀ (secret : Secret) (addr : Sockaddr),
        connectionIdChecked secret addr = some (connectionId secret addr) := by
  intro run
  have hthree : 3 ≤ genSecrets run := by
    have hstart : genSecrets run = 3 + genSecrets calls := by
      rw [genSecrets, List.flatMap_cons, rotations_append]
      rfl
    omega
  refine ⟨issuedIdsLast opt db run, ?_, ?_, connectionIdChecked_eq⟩
  · rw [forced, length_history]
    exact hthree
  · intro connId addr
    exact checkConnectionId_run opt run hthree

end Window

end UdpServer
end Hefur
