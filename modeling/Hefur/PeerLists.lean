import Hefur.BencodeReplies
import Hefur.Presentation
import Hefur.UdpDiscipline

/-!
# Reading the peers of a reply

What a client reads from the replies to an announce: the two bodies of the
announce page and the datagram of the UDP tracker.

The readers follow the formats, not the code that writes them: an entry of a
compact list is an IP and a port, both in network byte order, and the entries
fill the list without a remainder.

* `readBodies`: the two bodies of one response name the same peers.
* `readDatagram_announceResponse`: a datagram names the peers of its response.
-/

namespace Hefur

open Bytes
open Bencoding (Value)

section PackedPeers

/-- An IPv4 entry of a compact list. -/
def readEntry4 (entry : Block 6) : Address :=
  (Address.inet (peek 0 4 entry.val) 0).setPort
    (UInt16.ofNat (ofBE (peek 4 2 entry.val).val))

/-- An IPv6 entry of a compact list. -/
def readEntry6 (entry : Block 18) : Address :=
  (Address.inet6 (peek 0 16 entry.val) 0).setPort
    (UInt16.ofNat (ofBE (peek 16 2 entry.val).val))

/-- The peers of a compact IPv4 list, if no bytes are left over. -/
def readPeers4 (data : List UInt8) : Option (List Address) :=
  (entries 6 data).map (List.map readEntry4)

def readPeers6 (data : List UInt8) : Option (List Address) :=
  (entries 18 data).map (List.map readEntry6)

/-- The two bytes of a port word, read in network byte order. -/
theorem htons_ofBE (word : UInt16) :
    htons (UInt16.ofNat (ofBE (toLE 2 word.toNat).val)) = word := by
  have hword := word.toNat_lt
  have hbytes : ofBE (toLE 2 word.toNat).val = (swap16 word).toNat := by
    simp only [toLE, bytesBE, List.reverse_cons, List.reverse_nil,
      List.nil_append, List.cons_append, ofBE, List.foldl_cons,
      List.foldl_nil, UInt8.toNat_ofNat', toNat_swap16]
    omega
  rw [hbytes, UInt16.ofNat_toNat]
  exact swap16_swap16 word

/-- An address and a port word next to each other. -/
def packed {n : Nat} (addr : Block n) (word : UInt16) : Block (n + 2) :=
  ⟨addr.val ++ (toLE 2 word.toNat).val, by
    rw [List.length_append, addr.property, (toLE 2 _).property]⟩

section Parts

variable {n : Nat} (addr : Block n) (word : UInt16)

theorem peek_packed_addr : peek 0 n (packed addr word).val = addr := by
  apply Subtype.ext
  rw [peek_val (by rw [(packed addr word).property]; omega)]
  exact List.take_left' addr.property

theorem peek_packed_word :
    peek n 2 (packed addr word).val = toLE 2 word.toNat := by
  apply Subtype.ext
  have hword := (toLE 2 word.toNat).property
  rw [peek_val (by rw [(packed addr word).property]), packed,
    List.drop_left' addr.property, List.take_of_length_le (by omega)]

end Parts

theorem readEntry4_packed (addr : Block 4) (word : UInt16) :
    readEntry4 (packed addr word) = .inet addr word := by
  rw [readEntry4, peek_packed_addr, peek_packed_word, Address.setPort,
    htons_ofBE]

theorem readEntry6_packed (addr : Block 16) (word : UInt16) :
    readEntry6 (packed addr word) = .inet6 addr word := by
  rw [readEntry6, peek_packed_addr, peek_packed_word, Address.setPort,
    htons_ofBE]

/-- The entry of an IPv4 peer. -/
def entry4 : Address → Option (Block 6)
  | .inet addr word => some (packed addr word)
  | _ => none

def entry6 : Address → Option (Block 18)
  | .inet6 addr word => some (packed addr word)
  | _ => none

/--
Entries of one family: what `entry` writes of an address, `read` reads back.
-/
structure Packs {n : Nat} (family : Family) (bytes : Address → List UInt8)
    (entry : Address → Option (Block n)) (read : Block n → Address) :
    Prop where
  bytes : ∀ a, bytes a = ((entry a).map Subtype.val).getD []
  read : ∀ a, (entry a).map read = if a.family = family then some a else none

section Lists

variable {n : Nat} {family : Family} {bytes : Address → List UInt8}
variable {entry : Address → Option (Block n)} {read : Block n → Address}

/-- The data of a compact list are its entries. -/
theorem Packs.flatMap_eq (h : Packs family bytes entry read)
    (addrs : List Address) :
    addrs.flatMap bytes = (addrs.filterMap entry).flatMap Subtype.val := by
  induction addrs with
  | nil =>
      rfl
  | cons a addrs ih =>
      rw [List.flatMap_cons, h.bytes, ih]
      cases hentry : entry a with
      | none => simp [hentry]
      | some b => simp [hentry]

/-- A family's entries, read back, are its addresses. -/
theorem Packs.map_filterMap (h : Packs family bytes entry read)
    (addrs : List Address) :
    (addrs.filterMap entry).map read =
      addrs.filter (fun a => a.family = family) := by
  rw [List.map_filterMap, ← List.filterMap_eq_filter]
  apply List.filterMap_congr
  intro a _
  rw [h.read]
  simp [Option.guard]

/-- A compact list is read back as the addresses of its family. -/
theorem Packs.read_flatMap (h : Packs family bytes entry read) (hn : 0 < n)
    (addrs : List Address) :
    (entries n (addrs.flatMap bytes)).map (List.map read) =
      some (addrs.filter (fun a => a.family = family)) := by
  rw [h.flatMap_eq, entries_flatMap hn, Option.map_some, h.map_filterMap]

end Lists

theorem packs4 :
    Packs .inet AnnounceHandler.compact4 entry4 readEntry4 where
  bytes := by
    intro a
    cases a <;> rfl
  read := by
    intro a
    cases a with
    | unspec raw => rfl
    | inet addr word => exact congrArg some (readEntry4_packed addr word)
    | inet6 addr word => rfl

theorem packs6 :
    Packs .inet6 AnnounceHandler.compact6 entry6 readEntry6 where
  bytes := by
    intro a
    cases a <;> rfl
  read := by
    intro a
    cases a with
    | unspec raw => rfl
    | inet addr word => rfl
    | inet6 addr word => exact congrArg some (readEntry6_packed addr word)

theorem readPeers4_flatMap (addrs : List Address) :
    readPeers4 (addrs.flatMap AnnounceHandler.compact4) =
      some (addrs.filter (fun a => a.family = .inet)) :=
  packs4.read_flatMap (by omega) addrs

theorem readPeers6_flatMap (addrs : List Address) :
    readPeers6 (addrs.flatMap AnnounceHandler.compact6) =
      some (addrs.filter (fun a => a.family = .inet6)) :=
  packs6.read_flatMap (by omega) addrs

end PackedPeers

section Bodies

open Bencode (encode)
open Bencoding (Denotes)

/-- The value under a key of a dictionary. -/
def field (key : String) : Value → Option Value
  | .dict entries => entries.lookup (ascii key)
  | _ => none

def readInt : Value → Option Int
  | .int n => some n
  | _ => none

def readData : Value → Option (List UInt8)
  | .data bytes => some bytes
  | _ => none

def readList : Value → Option (List Value)
  | .list items => some items
  | _ => none

/-- The interval and the peers of either family in a compact body. -/
def readCompact (body : Value) :
    Option (Int × List Address × List Address) := do
  let interval ← (field "interval" body).bind readInt
  let peers ← ((field "peers" body).bind readData).bind readPeers4
  let peers6 ← ((field "peers6" body).bind readData).bind readPeers6
  return (interval, peers, peers6)

/-- An address of either family, as `inet_pton` reads it. -/
def readIp (net : Inet) (text : Text) : Option Address :=
  match net.pton4 text with
  | some addr => some (.inet addr 0)
  | none => (net.pton6 text).map fun addr => .inet6 addr 0

def readPort : Value → Option UInt16
  | .int n =>
      if 0 ≤ n ∧ n < 2 ^ 16 then some (UInt16.ofNat n.toNat) else none
  | _ => none

/-- A peer in a dictionary of its own. -/
def readPeer (net : Inet) (peer : Value) : Option Address := do
  let addr ← ((field "ip" peer).bind readData).bind (readIp net)
  let port ← (field "port" peer).bind readPort
  return addr.setPort port

/-- The interval and the peers of a body with a list of dictionaries. -/
def readPlain (net : Inet) (body : Value) :
    Option (Int × List Address) := do
  let interval ← (field "interval" body).bind readInt
  let items ← (field "peers" body).bind readList
  let peers ← items.mapM (readPeer net)
  return (interval, peers)

theorem readPort_int (port : UInt16) :
    readPort (.int port.toNat) = some port := by
  have hlt := port.toNat_lt
  rw [readPort, if_pos (by omega), Int.toNat_natCast, UInt16.ofNat_toNat]

theorem readPeer_dict (net : Inet) (text : Text) (port : Value) :
    readPeer net (.dict [(ascii "ip", .data text), (ascii "port", port)]) =
      (readIp net text).bind fun addr =>
        (readPort port).bind fun port => some (addr.setPort port) := by
  rfl

/-- A peer of known family is read back as it was. -/
theorem readPeer_peerValue {net : Inet} (hnet : net.Lawful) {a : Address}
    (ha : a.family ≠ .unspec) :
    readPeer net (AnnounceHandler.peerValue net a) = some a := by
  have hport : ∀ word : UInt16, htons (ntohs word) = word := swap16_swap16
  rw [AnnounceHandler.peerValue, readPeer_dict, readPort_int]
  cases a with
  | unspec raw =>
      exact (ha rfl).elim
  | inet addr word =>
      rw [Address.ipStr, readIp, hnet.pton4_ntop4]
      exact congrArg (fun word => some (Address.inet addr word)) (hport word)
  | inet6 addr word =>
      rw [Address.ipStr, readIp, hnet.pton4_ntop6, hnet.pton6_ntop6]
      exact congrArg (fun word => some (Address.inet6 addr word)) (hport word)

theorem mapM_readPeer {net : Inet} (hnet : net.Lawful) {addrs : List Address}
    (haddrs : ∀ a ∈ addrs, a.family ≠ .unspec) :
    (addrs.map (AnnounceHandler.peerValue net)).mapM (readPeer net) =
      some addrs := by
  induction addrs with
  | nil =>
      rfl
  | cons a addrs ih =>
      rw [List.map_cons, List.mapM_cons,
        readPeer_peerValue hnet (haddrs a (by simp)),
        ih fun b hb => haddrs b (List.mem_cons_of_mem a hb)]
      rfl

theorem readCompact_successValue (net : Inet) (rp : AnnounceResponse) :
    readCompact (AnnounceHandler.successValue net true rp) =
      some ((rp.interval.toNat : Int),
        rp.addrs.filter (fun a => a.family = .inet),
        rp.addrs.filter (fun a => a.family = .inet6)) := by
  have hread : readCompact (AnnounceHandler.successValue net true rp) =
      (readPeers4 (rp.addrs.flatMap AnnounceHandler.compact4)).bind fun peers =>
        (readPeers6 (rp.addrs.flatMap AnnounceHandler.compact6)).bind
          fun peers6 => some ((rp.interval.toNat : Int), peers, peers6) := rfl
  rw [hread, readPeers4_flatMap, readPeers6_flatMap]
  rfl

theorem readPlain_successValue {net : Inet} (hnet : net.Lawful)
    {rp : AnnounceResponse} (haddrs : ∀ a ∈ rp.addrs, a.family ≠ .unspec) :
    readPlain net (AnnounceHandler.successValue net false rp) =
      some ((rp.interval.toNat : Int), rp.addrs) := by
  have hread : readPlain net (AnnounceHandler.successValue net false rp) =
      ((rp.addrs.map (AnnounceHandler.peerValue net)).mapM
        (readPeer net)).bind fun peers =>
          some ((rp.interval.toNat : Int), peers) := rfl
  rw [hread, mapM_readPeer hnet haddrs]
  rfl

/-- Without addresses of other families, the two families are all. -/
theorem filter_families_perm {addrs : List Address}
    (haddrs : ∀ a ∈ addrs, a.family ≠ .unspec) :
    (addrs.filter (fun a => a.family = .inet) ++
      addrs.filter (fun a => a.family = .inet6)).Perm addrs := by
  have hother : addrs.filter (fun a => a.family = .inet6) =
      addrs.filter (fun a => !decide (a.family = .inet)) := by
    apply List.filter_congr
    intro a ha
    have hfamily := haddrs a ha
    cases hcase : a.family with
    | unspec => exact (hfamily hcase).elim
    | inet => rfl
    | inet6 => rfl
  rw [hother]
  exact List.filter_append_perm _ addrs

/--
**The two bodies of a response.**  For peers of known family, both bodies are
the encoding of one value; the compact one lists the IPv4 peers and the IPv6
peers, the other one all of them, in order, and the interval is the same.
-/
theorem readBodies {net : Inet} (hnet : net.Lawful) (rp : AnnounceResponse)
    (haddrs : ∀ a ∈ rp.addrs, a.family ≠ .unspec) :
    ∃ compact plain : Value,
      Denotes (encode (AnnounceHandler.success net true rp)) compact ∧
      Denotes (encode (AnnounceHandler.success net false rp)) plain ∧
      readCompact compact = some ((rp.interval.toNat : Int),
        rp.addrs.filter (fun a => a.family = .inet),
        rp.addrs.filter (fun a => a.family = .inet6)) ∧
      readPlain net plain = some ((rp.interval.toNat : Int), rp.addrs) ∧
      (rp.addrs.filter (fun a => a.family = .inet) ++
        rp.addrs.filter (fun a => a.family = .inet6)).Perm rp.addrs := by
  refine ⟨_, _, ?_, ?_, readCompact_successValue net rp,
    readPlain_successValue hnet haddrs, filter_families_perm haddrs⟩
  · rw [AnnounceHandler.encode_success]
    exact Bencoding.denotes_encode _
  · rw [AnnounceHandler.encode_success]
    exact Bencoding.denotes_encode _

/-- An announce response with one peer of either family. -/
def mixedResponse : AnnounceResponse where
  error := false
  errorMsg := []
  interval := 900
  addrs := [.inet6 (zeros 16) 0xE11A, .inet sampleIp 0xE11A]

/-- The bodies of a response with an IPv6 and an IPv4 peer. -/
theorem readBodies_mixedResponse :
    ∃ compact plain : Value,
      Denotes (encode (AnnounceHandler.success Inet.plain true mixedResponse))
        compact ∧
      Denotes (encode (AnnounceHandler.success Inet.plain false mixedResponse))
        plain ∧
      readCompact compact = some (900, [.inet sampleIp 0xE11A],
        [.inet6 (zeros 16) 0xE11A]) ∧
      readPlain Inet.plain plain = some (900, mixedResponse.addrs) ∧
      ([Address.inet sampleIp 0xE11A] ++
        [Address.inet6 (zeros 16) 0xE11A]).Perm mixedResponse.addrs :=
  readBodies lawful_plain mixedResponse (by decide)

end Bodies

section Datagrams

open UdpServer

/-- What a client reads in the reply to a UDP announce. -/
structure AnnounceReply where
  action : Nat
  transactionId : Block 4
  interval : Nat
  leechers : Nat
  seeders : Nat
  peers : List Address
deriving DecidableEq

/-- Five words and a compact list, all in network byte order. -/
def readDatagram (data : List UInt8) : Option AnnounceReply :=
  if 20 ≤ data.length then
    (readPeers4 (data.drop 20)).map fun peers =>
      { action := readBE 0 4 data
        transactionId := peek 4 4 data
        interval := readBE 8 4 data
        leechers := readBE 12 4 data
        seeders := readBE 16 4 data
        peers := peers }
  else none

/-- The copies into `peers_`; a peer that is not IPv4 is stepped over. -/
def peerWrites : Nat → List Address → List (Nat × List UInt8)
  | _, [] => []
  | off, .inet bytes word :: addrs =>
      (off, bytes.val) :: (off + 4, (toLE 2 word.toNat).val) ::
        peerWrites (off + 6) addrs
  | off, _ :: addrs => peerWrites (off + 6) addrs

/-- The writes into the reply, with their offsets. -/
def announceWrites (transactionId : Block 4) (rp : AnnounceResponse) :
    List (Nat × List UInt8) :=
  [(4, transactionId.val), (0, (toBE 4 1).val),
    (8, (toBE 4 rp.interval.toNat).val),
    (12, (toBE 4 rp.nleechers.toNat).val),
    (16, (toBE 4 rp.nseeders.toNat).val)] ++ peerWrites 20 rp.addrs

/-- Writes one after the other. -/
def pokeAll (writes : List (Nat × List UInt8)) (m : List UInt8) :
    List UInt8 :=
  writes.foldl (fun m write => poke write.1 write.2 m) m

theorem pokeArray_writePeer (addrs : List Address) :
    ∀ (off : Nat) (m : List UInt8),
      pokeArray writePeer 6 off addrs m = pokeAll (peerWrites off addrs) m := by
  induction addrs with
  | nil =>
      intro off m
      rfl
  | cons a addrs ih =>
      intro off m
      rw [pokeArray, ih]
      cases a with
      | unspec raw => rfl
      | inet bytes word => rfl
      | inet6 bytes word => rfl

/-- The reply is made by these writes into zeros. -/
theorem announceResponse_eq_pokeAll (transactionId : Block 4)
    (rp : AnnounceResponse) :
    announceResponse transactionId rp =
      pokeAll (announceWrites transactionId rp)
        (zeros (20 + 6 * rp.addrs.length)).val := by
  rw [announceResponse, pokeArray_writePeer, announceWrites]
  simp only [pokeAll, response, List.foldl_append, List.foldl_cons,
    List.foldl_nil]

theorem peerWrites_inside (addrs : List Address) :
    ∀ {off : Nat}, ∀ write ∈ peerWrites off addrs,
      write.1 + write.2.length ≤ off + 6 * addrs.length := by
  induction addrs with
  | nil =>
      intro off write hwrite
      cases hwrite
  | cons a addrs ih =>
      intro off write hwrite
      rw [List.length_cons, Nat.mul_succ]
      cases a with
      | unspec raw =>
          have hin := ih write hwrite
          omega
      | inet bytes word =>
          have hbytes := bytes.property
          have hword := (toLE 2 word.toNat).property
          rcases List.mem_cons.mp hwrite with rfl | hwrite
          · dsimp only
            omega
          · rcases List.mem_cons.mp hwrite with rfl | hwrite
            · dsimp only
              omega
            · have hin := ih write hwrite
              omega
      | inet6 bytes word =>
          have hin := ih write hwrite
          omega

theorem announceWrites_inside (transactionId : Block 4)
    (rp : AnnounceResponse) :
    ∀ write ∈ announceWrites transactionId rp,
      write.1 + write.2.length ≤ 20 + 6 * rp.addrs.length := by
  intro write hwrite
  rcases List.mem_append.mp hwrite with hheader | hpeer
  · have hfour : ∀ b : Block 4, b.val.length = 4 := Subtype.property
    simp only [List.mem_cons, List.not_mem_nil, or_false] at hheader
    rcases hheader with rfl | rfl | rfl | rfl | rfl <;>
      rw [hfour] <;> omega
  · exact peerWrites_inside rp.addrs write hpeer

/-- A slot of an IPv4 peer is its entry of a compact list. -/
theorem writePeer_eq_poke {a : Address} (ha : a.family = .inet) :
    (AnnounceHandler.compact4 a).length = 6 ∧
      ∀ {off : Nat} {m : List UInt8}, off + 6 ≤ m.length →
        writePeer off a m = poke off (AnnounceHandler.compact4 a) m := by
  cases a with
  | unspec raw =>
      cases ha
  | inet bytes word =>
      refine ⟨(packed bytes word).property, ?_⟩
      intro off m hin
      rw [AnnounceHandler.compact4, poke_append (by omega), bytes.property]
      rfl
  | inet6 bytes word =>
      cases ha

/-- The five words in front of the peers. -/
def announceHeader (transactionId : Block 4) (rp : AnnounceResponse) :
    List UInt8 :=
  poke 16 (toBE 4 rp.nseeders.toNat).val
    (poke 12 (toBE 4 rp.nleechers.toNat).val
      (poke 8 (toBE 4 rp.interval.toNat).val
        (response (20 + 6 * rp.addrs.length) 1 transactionId)))

section Header

variable (transactionId : Block 4) (rp : AnnounceResponse)

theorem length_announceHeader :
    (announceHeader transactionId rp).length = 20 + 6 * rp.addrs.length :=
  length_poke_block (length_poke_block (length_poke_block
    (length_response _ _ _ (by omega)) (by omega)) (by omega)) (by omega)

/-- In front of the peers the reply is the header. -/
theorem peek_announceResponse {off len : Nat} (hin : off + len ≤ 20) :
    peek off len (announceResponse transactionId rp) =
      peek off len (announceHeader transactionId rp) :=
  peek_pokeArray_before writesSlot_writePeer rp.addrs hin
    (le_of_eq (length_announceHeader transactionId rp).symm)

theorem length_announceResponse :
    (announceResponse transactionId rp).length = 20 + 6 * rp.addrs.length :=
  (length_pokeArray writesSlot_writePeer rp.addrs
    (le_of_eq (length_announceHeader transactionId rp).symm)).trans
      (length_announceHeader transactionId rp)

theorem readBE_announceHeader :
    readBE 8 4 (announceHeader transactionId rp) = rp.interval.toNat ∧
      readBE 12 4 (announceHeader transactionId rp) = rp.nleechers.toNat ∧
      readBE 16 4 (announceHeader transactionId rp) = rp.nseeders.toNat := by
  have hword : ∀ w : UInt32, (toBE 4 w.toNat).val.length = 4 :=
    fun w => (toBE 4 w.toNat).property
  have hread : ∀ w : UInt32, ofBE (toBE 4 w.toNat).val = w.toNat :=
    fun w => ofBE_toBE w.toNat_lt
  have hbase := length_response (20 + 6 * rp.addrs.length) 1 transactionId
    (by omega)
  have hinterval := length_poke_block (b := toBE 4 rp.interval.toNat)
    hbase (show 8 + 4 ≤ _ by omega)
  have hleechers := length_poke_block (b := toBE 4 rp.nleechers.toNat)
    hinterval (show 12 + 4 ≤ _ by omega)
  refine ⟨?_, ?_, ?_⟩
  · rw [readBE, announceHeader,
      peek_poke_before (by omega) (by rw [hword, hleechers]; omega),
      peek_poke_before (by omega) (by rw [hword, hinterval]; omega),
      peek_poke_same (hword _) (by omega), hread]
  · rw [readBE, announceHeader,
      peek_poke_before (by omega) (by rw [hword, hleechers]; omega),
      peek_poke_same (hword _) (by omega), hread]
  · rw [readBE, announceHeader, peek_poke_same (hword _) (by omega), hread]

theorem length_flatMap_compact4 {addrs : List Address}
    (hinet : ∀ a ∈ addrs, a.family = .inet) :
    (addrs.flatMap AnnounceHandler.compact4).length = 6 * addrs.length := by
  have hsix : (addrs.map fun a => (AnnounceHandler.compact4 a).length) =
      addrs.map fun _ => 6 :=
    List.map_congr_left fun a ha => (writePeer_eq_poke (hinet a ha)).1
  rw [List.length_flatMap, hsix, List.map_const', List.sum_replicate_nat,
    Nat.mul_comm]

/-- Behind the header there are the entries, and nothing else. -/
theorem drop_announceResponse {rp : AnnounceResponse}
    (hinet : ∀ a ∈ rp.addrs, a.family = .inet) :
    (announceResponse transactionId rp).drop 20 =
      rp.addrs.flatMap AnnounceHandler.compact4 := by
  have hlen := length_announceHeader transactionId rp
  have hresponse : announceResponse transactionId rp =
      poke 20 (rp.addrs.flatMap AnnounceHandler.compact4)
        (announceHeader transactionId rp) :=
    pokeArray_eq_poke rp.addrs
      (fun a ha => writePeer_eq_poke (hinet a ha)) (le_of_eq hlen.symm)
  rw [hresponse, drop_poke (by omega), length_flatMap_compact4 hinet,
    List.drop_eq_nil_of_le (by omega), List.append_nil]

end Header

/--
**The reply to a UDP announce is read back as its response.**  All its writes
lie inside it.
-/
theorem readDatagram_announceResponse (transactionId : Block 4)
    (rp : AnnounceResponse) (hinet : ∀ a ∈ rp.addrs, a.family = .inet) :
    (announceResponse transactionId rp).length = 20 + 6 * rp.addrs.length ∧
      announceResponse transactionId rp =
        pokeAll (announceWrites transactionId rp)
          (zeros (20 + 6 * rp.addrs.length)).val ∧
      (∀ write ∈ announceWrites transactionId rp,
        write.1 + write.2.length ≤ 20 + 6 * rp.addrs.length) ∧
      readDatagram (announceResponse transactionId rp) =
        some
          { action := 1
            transactionId := transactionId
            interval := rp.interval.toNat
            leechers := rp.nleechers.toNat
            seeders := rp.nseeders.toNat
            peers := rp.addrs } := by
  have hlen := length_announceResponse transactionId rp
  refine ⟨hlen, announceResponse_eq_pokeAll transactionId rp,
    announceWrites_inside transactionId rp, ?_⟩
  have hheads := heads_announceResponse transactionId rp
  have hfields := readBE_announceHeader transactionId rp
  have hpeers : rp.addrs.filter (fun a => a.family = .inet) = rp.addrs :=
    List.filter_eq_self.mpr fun a ha => decide_eq_true (hinet a ha)
  rw [readDatagram, if_pos (by omega), drop_announceResponse _ hinet,
    readPeers4_flatMap, hpeers, Option.map_some, Option.some.injEq,
    AnnounceReply.mk.injEq]
  have hword : ∀ off, off + 4 ≤ 20 →
      readBE off 4 (announceResponse transactionId rp) =
        readBE off 4 (announceHeader transactionId rp) := by
    intro off hin
    rw [readBE, peek_announceResponse _ _ hin, readBE]
  rw [hword 8 (by omega), hword 12 (by omega), hword 16 (by omega)]
  exact ⟨hheads.action, hheads.transactionId, hfields.1, hfields.2.1,
    hfields.2.2, rfl⟩

/-- An announce response with two IPv4 peers. -/
def pairResponse : AnnounceResponse where
  error := false
  errorMsg := []
  nleechers := 1
  nseeders := 1
  interval := 900
  addrs := [.inet sampleIp 0xE11A, .inet (zeros 4) 0x1234]

/-- The reply with two peers. -/
theorem readDatagram_pairResponse :
    (announceResponse (zeros 4) pairResponse).length = 32 ∧
      announceResponse (zeros 4) pairResponse =
        pokeAll (announceWrites (zeros 4) pairResponse) (zeros 32).val ∧
      (∀ write ∈ announceWrites (zeros 4) pairResponse,
        write.1 + write.2.length ≤ 32) ∧
      readDatagram (announceResponse (zeros 4) pairResponse) =
        some
          { action := 1
            transactionId := zeros 4
            interval := 900
            leechers := 1
            seeders := 1
            peers := pairResponse.addrs } :=
  readDatagram_announceResponse (zeros 4) pairResponse (by decide)

end Datagrams

end Hefur
