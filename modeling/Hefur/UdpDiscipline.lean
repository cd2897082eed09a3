import Hefur.UdpServer

/-!
# What a datagram can do

Every reply of the UDP tracker starts with an action and with the transaction
id of its request (`Heads`), and every handler queues at most one reply, to the
sender (`Answers`).  A datagram that is not a connect is dropped unless its
connection id belongs to its sender.

The main result is `receiveDatagram_discipline`.  It holds for datagrams of any
length, whatever the buffer held before, and whether or not there is memory for
a reply.
-/

namespace Hefur
namespace UdpServer

open Bytes

section Replies

/-- The two fields that every reply starts with. -/
structure Heads (action : Nat) (transactionId : Block 4)
    (data : List UInt8) : Prop where
  action : ofBE (peek 0 4 data).val = action
  transactionId : peek 4 4 data = transactionId

variable {action : Nat} {transactionId : Block 4} {data : List UInt8}

theorem Heads.poke (h : Heads action transactionId data)
    {off : Nat} {bs : List UInt8}
    (hoff : 8 ≤ off) (hin : off + bs.length ≤ data.length) :
    Heads action transactionId (poke off bs data) := by
  constructor
  · rw [peek_poke_before (by omega) hin]
    exact h.action
  · rw [peek_poke_before (by omega) hin]
    exact h.transactionId

theorem Heads.poke_block (h : Heads action transactionId data)
    {off n len : Nat} {b : Block n} (hlen : data.length = len)
    (hoff : 8 ≤ off) (hin : off + n ≤ len) :
    Heads action transactionId (Bytes.poke off b.val data) :=
  h.poke hoff (by rw [b.property, hlen]; exact hin)

theorem Heads.pokeArray (h : Heads action transactionId data)
    {α : Type} {write : Nat → α → List UInt8 → List UInt8} {size : Nat}
    (hw : WritesSlot write size) {off : Nat} {xs : List α}
    (hoff : 8 ≤ off) (hin : off + size * xs.length ≤ data.length) :
    Heads action transactionId (pokeArray write size off xs data) := by
  constructor
  · rw [peek_pokeArray_before hw xs (by omega) hin]
    exact h.action
  · rw [peek_pokeArray_before hw xs (by omega) hin]
    exact h.transactionId

@[simp] theorem length_response (len action : Nat)
    (transactionId : Block 4) (hlen : 8 ≤ len) :
    (response len action transactionId).length = len :=
  length_poke_block
    (length_poke_block (zeros len).property (by omega)) (by omega)

theorem heads_response (len : Nat) {action : Nat} (transactionId : Block 4)
    (hlen : 8 ≤ len) (haction : action < 256 ^ 4) :
    Heads action transactionId (response len action transactionId) := by
  have hid := transactionId.property
  have hbytes := (toBE 4 action).property
  have hzeros := (zeros len).property
  have hinner : (Bytes.poke 4 transactionId.val (zeros len).val).length = len :=
    length_poke_block hzeros (by omega)
  constructor
  · rw [response, peek_poke_same hbytes (by omega), ofBE_toBE haction]
  · apply Subtype.ext
    rw [response, peek_poke_after (by omega) (by omega),
      peek_poke_same hid (by omega)]

theorem heads_connectResponse (transactionId : Block 4) (connId : UInt64) :
    Heads 0 transactionId (connectResponse transactionId connId) := by
  have hbytes := (toLE 8 connId.toNat).property
  apply (heads_response 16 transactionId (by omega) (by omega)).poke
    (by omega)
  rw [length_response _ _ _ (by omega)]
  omega

theorem heads_errorResponse (transactionId : Block 4) (msg : Text) :
    Heads 3 transactionId (errorResponse transactionId msg) := by
  apply (heads_response _ transactionId (by omega) (by omega)).poke
    (by omega)
  rw [length_response _ _ _ (by omega)]

theorem writesSlot_writePeer : WritesSlot writePeer 6 where
  length := by
    intro off addr m hin
    cases addr with
    | inet bytes word =>
        exact length_poke_block (length_poke_block rfl (by omega)) (by omega)
    | unspec raw => rfl
    | inet6 bytes word => rfl
  before := by
    intro off off' len addr m hbefore hin
    cases addr with
    | inet bytes word =>
        have hbytes := bytes.property
        have hword := (toLE 2 word.toNat).property
        have hslot : (Bytes.poke off bytes.val m).length = m.length :=
          length_poke_block rfl (by omega)
        rw [writePeer, peek_poke_before (by omega) (by omega),
          peek_poke_before (by omega) (by omega)]
    | unspec raw => rfl
    | inet6 bytes word => rfl

theorem writesSlot_writeTorrent : WritesSlot writeTorrent 12 where
  length := by
    intro off item m hin
    exact length_poke_block
      (length_poke_block (length_poke_block rfl (by omega)) (by omega))
      (by omega)
  before := by
    intro off off' len item m hbefore hin
    have hseeders :
        (Bytes.poke off (toBE 4 item.nseeders.toNat).val m).length =
          m.length := length_poke_block rfl (by omega)
    have hleechers :
        (Bytes.poke (off + 8) (toBE 4 item.nleechers.toNat).val
          (Bytes.poke off (toBE 4 item.nseeders.toNat).val m)).length =
            m.length := length_poke_block hseeders (by omega)
    have hword : ∀ w : UInt32, (toBE 4 w.toNat).val.length = 4 :=
      fun w => (toBE 4 w.toNat).property
    rw [writeTorrent,
      peek_poke_before (by omega) (by rw [hword, hleechers]; omega),
      peek_poke_before (by omega) (by rw [hword, hseeders]; omega),
      peek_poke_before (by omega) (by rw [hword]; omega)]

theorem heads_announceResponse
    (transactionId : Block 4) (rp : AnnounceResponse) :
    Heads 1 transactionId (announceResponse transactionId rp) := by
  have hbase := length_response (20 + 6 * rp.addrs.length) 1 transactionId
    (by omega)
  have hword : ∀ (off : Nat) (w : UInt32) {m : List UInt8},
      m.length = 20 + 6 * rp.addrs.length → off + 4 ≤ 20 →
        (Bytes.poke off (toBE 4 w.toNat).val m).length =
          20 + 6 * rp.addrs.length :=
    fun off w m hm hoff => length_poke_block hm (by omega)
  have hinterval := hword 8 rp.interval hbase (by omega)
  have hleechers := hword 12 rp.nleechers hinterval (by omega)
  have hseeders := hword 16 rp.nseeders hleechers (by omega)
  have hheads := heads_response (20 + 6 * rp.addrs.length) transactionId
    (by omega) (show 1 < 256 ^ 4 by omega)
  exact (((hheads.poke_block hbase (by omega) (by omega)).poke_block
    hinterval (by omega) (by omega)).poke_block
      hleechers (by omega) (by omega)).pokeArray
        writesSlot_writePeer (by omega) (le_of_eq hseeders.symm)

theorem heads_scrapeResponse
    (transactionId : Block 4) (rp : ScrapeResponse) :
    Heads 2 transactionId (scrapeResponse transactionId rp) := by
  have hbase := length_response (8 + 12 * rp.items.length) 2 transactionId
    (by omega)
  apply (heads_response _ transactionId (by omega) (by omega)).pokeArray
    writesSlot_writeTorrent (by omega)
  rw [hbase]

end Replies

section Fields

variable {d : Datagram}

theorem Datagram.size_eq (d : Datagram) :
    d.size = min 4096 d.bytes.length :=
  List.length_take

theorem Datagram.size_le (d : Datagram) : d.size ≤ d.bytes.length := by
  rw [d.size_eq]
  exact Nat.min_le_right _ _

theorem length_copied (d : Datagram) :
    (poke 0 d.received d.buffer.val).length = 4096 := by
  have hsize := d.size_eq
  have hbuffer := d.buffer.property
  rw [length_poke _, hbuffer]
  show 0 + d.size ≤ d.buffer.val.length
  omega

/-- The buffer holds the datagram, whatever it held before. -/
theorem peek_received {off len : Nat} (hin : off + len ≤ d.size) :
    peek off len (poke 0 d.received d.buffer.val) = peek off len d.bytes := by
  have hsize := d.size_eq
  have hbuffer := d.buffer.property
  have hreceived : d.received.length = d.size := rfl
  rw [peek_poke_inside (Nat.zero_le off) (by omega) (by omega),
    Nat.sub_zero]
  exact peek_take (by omega) (by omega)

/-- The fields of a datagram, the action apart, are those of the buffer. -/
theorem peek_filled {off len : Nat} (hin : off + len ≤ d.size)
    (hapart : off + len ≤ 8 ∨ 12 ≤ off) :
    peek off len d.filled = peek off len d.bytes := by
  have hsize := d.size_eq
  have hlen := length_copied d
  have hswap :
      (peek 8 4 (poke 0 d.received d.buffer.val)).val.reverse.length = 4 := by
    rw [List.length_reverse, (peek 8 4 _).property]
  rw [← peek_received hin, Datagram.filled, swapAction]
  rcases hapart with hbefore | hafter
  · rw [peek_poke_before hbefore (by omega)]
  · rw [peek_poke_after (by omega) (by omega)]

/-- The dispatch looks at the action in network byte order. -/
theorem actionField_filled (hsize : 12 ≤ d.size) :
    actionField d.filled = readBE 8 4 d.bytes := by
  have hmax := d.size_eq
  have hswap :
      (peek 8 4 (poke 0 d.received d.buffer.val)).val.reverse.length = 4 := by
    rw [List.length_reverse, (peek 8 4 _).property]
  have hlen := length_copied d
  rw [actionField, Datagram.filled, swapAction, ofLE,
    peek_poke_same hswap (by omega), List.reverse_reverse,
    peek_received (by omega)]
  rfl

theorem connectionIdField_filled (hsize : 8 ≤ d.size) :
    connectionIdField d.filled = connectionIdField d.bytes := by
  rw [connectionIdField, peek_filled (by omega) (by omega)]
  rfl

theorem transactionId_filled (hsize : 16 ≤ d.size) :
    transactionId d.filled = transactionId d.bytes :=
  peek_filled hsize (by omega)

end Fields

section Discipline

variable {opt : Options} {d : Datagram} {s : UdpServer} {db : TorrentDb}

theorem checkConnectionId_iff {connId : UInt64} {addr : Sockaddr} :
    s.checkConnectionId connId addr = true ↔
      ∃ i : Fin 3, connId = connectionId s.secrets[i] addr := by
  simp [checkConnectionId, Fin.exists_fin_succ, or_assoc]

/-- The datagram's id is one of those of its sender. -/
def Accepted (s : UdpServer) (d : Datagram) : Prop :=
  ∃ i : Fin 3, connectionIdField d.bytes = connectionId s.secrets[i] d.addr

instance (s : UdpServer) (d : Datagram) : Decidable (Accepted s d) :=
  inferInstanceAs (Decidable (∃ i : Fin 3,
    connectionIdField d.bytes = connectionId s.secrets[i] d.addr))

/-- The action that the datagram asks for. -/
def Datagram.action (d : Datagram) : Nat :=
  readBE 8 4 d.bytes

def Datagram.IsConnect (d : Datagram) : Prop :=
  16 ≤ d.bytes.length ∧ d.action = 0

/--
At most one reply is queued, to the sender, with the transaction id of the
datagram and with its action or the error action.
-/
def Answers (d : Datagram) (s s' : UdpServer) : Prop :=
  s'.sbufs = s.sbufs ∨
    ∃ data, s'.sbufs = ⟨d.addr, data⟩ :: s.sbufs ∧
      (peek 4 4 data).val = (peek 12 4 d.bytes).val ∧
      (ofBE (peek 0 4 data).val = d.action ∨ ofBE (peek 0 4 data).val = 3)

theorem Answers.silent (d : Datagram) (s : UdpServer) : Answers d s s :=
  Or.inl rfl

theorem answers_push (hsize : 16 ≤ d.size)
    {action : Nat} {data : List UInt8}
    (hheads : Heads action (transactionId d.filled) data)
    (haction : action = d.action ∨ action = 3) :
    Answers d s (s.push d.alloc d.addr data) := by
  unfold push
  split
  · refine Or.inr ⟨data, rfl, ?_, ?_⟩
    · rw [hheads.transactionId, transactionId_filled hsize]
      rfl
    · rw [hheads.action]
      exact haction
  · exact Answers.silent d s

theorem answers_handleConnect (hsize : 16 ≤ d.size) (haction : d.action = 0) :
    Answers d s (s.handleConnect d d.filled d.size) := by
  unfold handleConnect
  split
  · exact Answers.silent d s
  · exact answers_push hsize (heads_connectResponse _ _) (Or.inl haction.symm)

theorem answers_handleAnnounce (hsize : 16 ≤ d.size) (haction : d.action = 1) :
    Answers d s (s.handleAnnounce opt d d.filled d.size db).1 := by
  unfold handleAnnounce
  split
  · exact Answers.silent d s
  · split
    · exact answers_push hsize (heads_errorResponse _ _) (Or.inr rfl)
    · exact answers_push hsize (heads_announceResponse _ _)
        (Or.inl haction.symm)

theorem answers_handleScrape (hsize : 16 ≤ d.size) (haction : d.action = 2) :
    Answers d s (s.handleScrape opt d d.filled d.size db) := by
  unfold handleScrape
  split
  · exact Answers.silent d s
  · dsimp only
    split
    · exact answers_push hsize (heads_errorResponse _ _) (Or.inr rfl)
    · exact answers_push hsize (heads_scrapeResponse _ _)
        (Or.inl haction.symm)

/-- Without an accepted connection id an announce is dropped. -/
theorem announce_eq_none (hsize : 16 ≤ d.size) (hnot : ¬ Accepted s d) :
    s.announce opt d d.filled d.size db = none := by
  rw [announce, if_pos]
  refine Or.inr ?_
  rw [connectionIdField_filled (by omega), checkConnectionId_iff]
  exact hnot

/-- The cases of the dispatch, on the datagram as it came in. -/
theorem receiveDatagram_cases (opt : Options) (d : Datagram) (s : UdpServer)
    (db : TorrentDb) :
    (d.size < 16 ∨ 2 < d.action) ∧
        s.receiveDatagram opt d db = (s, db) ∨
      16 ≤ d.size ∧
        (d.action = 0 ∧ s.receiveDatagram opt d db =
            (s.handleConnect d d.filled d.size, db) ∨
          d.action = 1 ∧ s.receiveDatagram opt d db =
            s.handleAnnounce opt d d.filled d.size db ∨
          d.action = 2 ∧ s.receiveDatagram opt d db =
            (s.handleScrape opt d d.filled d.size db, db)) := by
  by_cases hshort : d.size < 16
  · exact Or.inl ⟨Or.inl hshort, if_pos hshort⟩
  · have hsize : 16 ≤ d.size := by omega
    have haction : actionField d.filled = d.action :=
      actionField_filled (by omega)
    rw [receiveDatagram, if_neg hshort, haction]
    split
    · rename_i hzero
      exact Or.inr ⟨hsize, Or.inl ⟨hzero, rfl⟩⟩
    · rename_i hone
      exact Or.inr ⟨hsize, Or.inr (Or.inl ⟨hone, rfl⟩)⟩
    · rename_i htwo
      exact Or.inr ⟨hsize, Or.inr (Or.inr ⟨htwo, rfl⟩)⟩
    · rename_i hzero hone htwo
      have hother : d.action ≠ 0 ∧ d.action ≠ 1 ∧ d.action ≠ 2 :=
        ⟨hzero, hone, htwo⟩
      exact Or.inl ⟨Or.inr (by omega), rfl⟩

theorem receiveDatagram_of_announce (opt : Options) (s : UdpServer)
    (db : TorrentDb) (hsize : 16 ≤ d.size) (haction : d.action = 1) :
    s.receiveDatagram opt d db = s.handleAnnounce opt d d.filled d.size db := by
  have hfield : actionField d.filled = 1 :=
    (actionField_filled (by omega)).trans haction
  rw [receiveDatagram, if_neg (by omega), hfield]
  rfl

theorem receiveDatagram_of_scrape (opt : Options) (s : UdpServer)
    (db : TorrentDb) (hsize : 16 ≤ d.size) (haction : d.action = 2) :
    s.receiveDatagram opt d db =
      (s.handleScrape opt d d.filled d.size db, db) := by
  have hfield : actionField d.filled = 2 :=
    (actionField_filled (by omega)).trans haction
  rw [receiveDatagram, if_neg (by omega), hfield]
  rfl

/--
**Admission and replies of the UDP tracker.**  For every datagram:

* if it is not a connect and its connection id is not one of its sender's,
  nothing changes;
* at most one reply is queued; it goes to the sender, echoes the transaction
  id and carries the action of the request or the error action;
* the database changes only if it is an announce with an accepted id.
-/
theorem receiveDatagram_discipline (opt : Options) (d : Datagram)
    (s : UdpServer) (db : TorrentDb) :
    (¬ d.IsConnect → ¬ Accepted s d →
      s.receiveDatagram opt d db = (s, db)) ∧
    Answers d s (s.receiveDatagram opt d db).1 ∧
    ((s.receiveDatagram opt d db).2 = db ∨
      d.action = 1 ∧ 98 ≤ d.bytes.length ∧ Accepted s d) := by
  have hle := d.size_le
  rcases receiveDatagram_cases opt d s db with
    ⟨-, hdrop⟩ | ⟨hsize, ⟨haction, hstep⟩ | ⟨haction, hstep⟩ | ⟨haction, hstep⟩⟩
  · rw [hdrop]
    exact ⟨fun _ _ => rfl, Answers.silent d s, Or.inl rfl⟩
  · refine ⟨?_, ?_, ?_⟩
    · intro hnot
      exact (hnot ⟨by omega, haction⟩).elim
    · rw [hstep]
      exact answers_handleConnect hsize haction
    · rw [hstep]
      exact Or.inl rfl
  · refine ⟨?_, ?_, ?_⟩
    · intro _ hnot
      rw [hstep, handleAnnounce, announce_eq_none hsize hnot]
    · rw [hstep]
      exact answers_handleAnnounce hsize haction
    · by_cases haccepted : Accepted s d
      · by_cases hlong : 98 ≤ d.bytes.length
        · exact Or.inr ⟨haction, hlong, haccepted⟩
        · have hshort : d.size < 98 := by omega
          rw [hstep, handleAnnounce, announce, if_pos (Or.inl hshort)]
          exact Or.inl rfl
      · rw [hstep, handleAnnounce, announce_eq_none hsize haccepted]
        exact Or.inl rfl
  · refine ⟨?_, ?_, ?_⟩
    · intro _ hnot
      rw [hstep, handleScrape, if_pos]
      refine Or.inr ?_
      rw [connectionIdField_filled (by omega), checkConnectionId_iff]
      exact hnot
    · rw [hstep]
      exact answers_handleScrape hsize haction
    · rw [hstep]
      exact Or.inl rfl

/-- The internal request of an announce that is admitted. -/
def announced (opt : Options) (s : UdpServer) (d : Datagram) :
    Option AnnounceRequest :=
  if 98 ≤ d.size ∧ d.action = 1 ∧ Accepted s d then
    some (announceRequest opt d d.filled)
  else none

theorem announce_of_admitted (opt : Options) (db : TorrentDb)
    (hsize : 98 ≤ d.size) (haccepted : Accepted s d) :
    s.announce opt d d.filled d.size db =
      some (db.announce opt d.now (announceRequest opt d d.filled)) := by
  rw [announce, if_neg]
  rw [not_or, connectionIdField_filled (by omega), not_not,
    checkConnectionId_iff]
  exact ⟨by omega, haccepted⟩

theorem tdb_handleAnnounce (hsize : 16 ≤ d.size) (haction : d.action = 1) :
    (s.handleAnnounce opt d d.filled d.size db).2 =
      match announced opt s d with
      | some request => (db.announce opt d.now request).2
      | none => db := by
  rw [handleAnnounce, announced]
  by_cases hadmit : 98 ≤ d.size ∧ d.action = 1 ∧ Accepted s d
  · rw [if_pos hadmit, announce_of_admitted opt db hadmit.1 hadmit.2.2]
    dsimp only
    split <;> rfl
  · rw [if_neg hadmit]
    have hnone : s.announce opt d d.filled d.size db = none := by
      by_cases haccepted : Accepted s d
      · rw [announce, if_pos (Or.inl _)]
        by_contra hlong
        exact hadmit ⟨by omega, haction, haccepted⟩
      · exact announce_eq_none hsize haccepted
    rw [hnone]

/-- A datagram changes the database by its announce, if at all. -/
theorem tdb_receiveDatagram (opt : Options) (d : Datagram) (s : UdpServer)
    (db : TorrentDb) :
    (s.receiveDatagram opt d db).2 =
      match announced opt s d with
      | some request => (db.announce opt d.now request).2
      | none => db := by
  rcases receiveDatagram_cases opt d s db with
    ⟨hwhy, hdrop⟩ | ⟨hsize, ⟨haction, hstep⟩ | ⟨haction, hstep⟩ | ⟨haction, hstep⟩⟩
  · rw [hdrop, announced, if_neg (by omega)]
  · rw [hstep, announced, if_neg (by omega)]
  · rw [hstep]
    exact tdb_handleAnnounce hsize haction
  · rw [hstep, announced, if_neg (by omega)]

end Discipline

section Reads

/-- All that `receiveDatagram` reads of the two datagrams is the same. -/
structure Datagram.ReadsAs (opt : Options) (d d' : Datagram) : Prop where
  now : d.now = d'.now
  addr : d.addr = d'.addr
  alloc : d.alloc = d'.alloc
  size : d.size = d'.size
  connectionId : 16 ≤ d.size →
    connectionIdField d.filled = connectionIdField d'.filled
  action : 16 ≤ d.size → actionField d.filled = actionField d'.filled
  transactionId : 16 ≤ d.size →
    transactionId d.filled = transactionId d'.filled
  announce : d.action = 1 → 98 ≤ d.size →
    announceRequest opt d d.filled = announceRequest opt d' d'.filled
  scrape : d.action = 2 → 16 ≤ d.size →
    scrapeRequest d.filled d.size = scrapeRequest d'.filled d'.size

variable {opt : Options} {d d' : Datagram}
variable (s : UdpServer) (db : TorrentDb)

theorem Datagram.ReadsAs.announce_eq (h : d.ReadsAs opt d')
    (haction : d.action = 1) (hsize : 16 ≤ d.size) :
    s.announce opt d d.filled d.size db =
      s.announce opt d' d'.filled d'.size db := by
  rw [UdpServer.announce, UdpServer.announce, h.connectionId hsize, h.addr,
    h.size]
  split
  · rfl
  · rename_i hadmit
    have hlong : 98 ≤ d.size := by
      have hsame := h.size
      omega
    rw [h.announce haction hlong, h.now]

/-- Datagrams of which the same is read are handled alike. -/
theorem receiveDatagram_congr (h : d.ReadsAs opt d') :
    s.receiveDatagram opt d db = s.receiveDatagram opt d' db := by
  have hsame := h.size
  have hpush : ∀ data, s.push d.alloc d.addr data =
      s.push d'.alloc d'.addr data := by
    intro data
    rw [h.alloc, h.addr]
  by_cases hshort : d.size < 16
  · rw [receiveDatagram, receiveDatagram, if_pos hshort,
      if_pos (hsame ▸ hshort)]
  · have hsize : 16 ≤ d.size := by omega
    have hid := h.transactionId hsize
    have haction : actionField d.filled = d.action :=
      actionField_filled (by omega)
    rw [receiveDatagram, receiveDatagram, if_neg hshort,
      if_neg (by omega), ← h.action hsize]
    split
    · rw [handleConnect, handleConnect, if_neg (by omega),
        if_neg (by omega), hid, connectId, connectId, hpush, h.addr]
    · rename_i hone
      rw [handleAnnounce, handleAnnounce,
        h.announce_eq s db (haction.symm.trans hone) hsize]
      simp only [sendFailure, hid, hpush]
    · rename_i htwo
      rw [handleScrape, handleScrape,
        h.scrape (haction.symm.trans htwo) hsize, h.connectionId hsize,
        h.addr, hsame]
      simp only [sendFailure, hid, h.alloc, h.addr]
    · rfl

end Reads

end UdpServer
end Hefur
