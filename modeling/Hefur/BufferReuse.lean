import Hefur.ScrapeAgreement

/-!
# One buffer for all datagrams

`receive` never clears its buffer: behind a datagram it still holds the end of
earlier ones.  Here two contents of the buffer that agree on the bytes that were
just received are compared.

No handler reads behind these bytes: each looks at the size first, and a scrape
reads as many hashes as fit (`infoHashs_received`).  What the buffer held before
makes no difference (`receiveDatagram_sameReceived`).
-/

namespace Hefur
namespace UdpServer

open Bytes

section Contents

/-- The buffer when `recvfrom` returns. -/
def Datagram.contents (d : Datagram) : List UInt8 :=
  poke 0 d.received d.buffer.val

/--
The same sender at the same time, as many bytes, and two contents of the buffer
that agree on these bytes.
-/
structure Datagram.SameReceived (d d' : Datagram) : Prop where
  now : d.now = d'.now
  addr : d.addr = d'.addr
  raw : d.raw = d'.raw
  alloc : d.alloc = d'.alloc
  size : d.size = d'.size
  contents : d.contents.take d.size = d'.contents.take d'.size

variable {d d' : Datagram}

theorem take_contents (d : Datagram) :
    d.contents.take d.size = d.received := by
  rw [Datagram.contents, poke, List.take_zero, List.nil_append]
  exact List.take_left' rfl

theorem Datagram.SameReceived.received (h : d.SameReceived d') :
    d.received = d'.received := by
  rw [← take_contents d, ← take_contents d', h.contents]

/-- Datagrams of the same bytes, in whatever buffer. -/
theorem Datagram.SameReceived.of_buffer (d : Datagram)
    (buffer : Block 4096) : d.SameReceived { d with buffer := buffer } where
  now := rfl
  addr := rfl
  raw := rfl
  alloc := rfl
  size := rfl
  contents := by
    rw [take_contents, take_contents]
    rfl

/-- A field inside the datagram is one of the bytes received. -/
theorem peek_bytes {off len : Nat} (hin : off + len ≤ d.size) :
    peek off len d.bytes = peek off len d.received := by
  have hsize := d.size_eq
  exact (peek_take (by omega) (by omega)).symm

theorem Datagram.SameReceived.peek_bytes (h : d.SameReceived d')
    {off len : Nat} (hin : off + len ≤ d.size) :
    peek off len d.bytes = peek off len d'.bytes := by
  rw [UdpServer.peek_bytes hin, h.received,
    UdpServer.peek_bytes (h.size ▸ hin)]

/-- The fields of both buffers agree inside the datagram. -/
theorem Datagram.SameReceived.peek_filled (h : d.SameReceived d')
    {off len : Nat} (hin : off + len ≤ d.size)
    (hapart : off + len ≤ 8 ∨ 12 ≤ off) :
    peek off len d.filled = peek off len d'.filled := by
  rw [UdpServer.peek_filled hin hapart,
    UdpServer.peek_filled (h.size ▸ hin) hapart, h.peek_bytes hin]

end Contents

section Requests

variable {opt : Options} {d d' : Datagram}

/-- An announce reads 98 bytes. -/
theorem announceRequest_sameReceived (h : d.SameReceived d')
    (hsize : 98 ≤ d.size) :
    announceRequest opt d d.filled = announceRequest opt d' d'.filled := by
  have hfield : ∀ off len, 12 ≤ off → off + len ≤ 98 →
      peek off len d.filled = peek off len d'.filled :=
    fun off len hlow hhigh => h.peek_filled (by omega) (by omega)
  simp only [announceRequest, readBE, h.raw, h.addr,
    hfield 36 20 (by omega) (by omega), hfield 16 20 (by omega) (by omega),
    hfield 92 4 (by omega) (by omega), hfield 80 4 (by omega) (by omega),
    hfield 56 8 (by omega) (by omega), hfield 72 8 (by omega) (by omega),
    hfield 64 8 (by omega) (by omega), hfield 84 4 (by omega) (by omega),
    hfield 96 2 (by omega) (by omega)]

/-- The hashes that lie in the bytes received. -/
def Datagram.slices (d : Datagram) : List InfoHash :=
  (List.range ((d.size - 16) / 20)).map fun i =>
    .ofSha1 (peek (16 + 20 * i) 20 d.received)

/-- A scrape reads the hashes that lie inside the datagram. -/
theorem infoHashs_received (d : Datagram) :
    (scrapeRequest d.filled d.size).infoHashs = d.slices := by
  apply List.map_congr_left
  intro i hi
  have hlast : i < (d.size - 16) / 20 := List.mem_range.mp hi
  rw [Nat.mul_comm i, peek_filled (by omega) (by omega),
    peek_bytes (by omega)]

theorem scrapeRequest_sameReceived (h : d.SameReceived d') :
    scrapeRequest d.filled d.size = scrapeRequest d'.filled d'.size := by
  have hhashes : (scrapeRequest d.filled d.size).infoHashs =
      (scrapeRequest d'.filled d'.size).infoHashs := by
    rw [infoHashs_received, infoHashs_received, Datagram.slices, h.size,
      h.received]
    rfl
  exact congrArg ScrapeRequest.mk hhashes

/-- The handlers read the same of both. -/
theorem Datagram.SameReceived.readsAs (h : d.SameReceived d') :
    d.ReadsAs opt d' where
  now := h.now
  addr := h.addr
  alloc := h.alloc
  size := h.size
  connectionId := by
    intro hsize
    rw [connectionIdField, connectionIdField,
      h.peek_filled (by omega) (by omega)]
  action := by
    intro hsize
    have hsame := h.size
    rw [actionField_filled (by omega), actionField_filled (by omega), readBE,
      readBE, h.peek_bytes (by omega)]
  transactionId := by
    intro hsize
    exact h.peek_filled hsize (by omega)
  announce := by
    intro _ hsize
    exact announceRequest_sameReceived h hsize
  scrape := by
    intro _ _
    exact scrapeRequest_sameReceived h

/--
**No leakage between datagrams.**  Two contents of the buffer that agree on the
bytes received lead to the same database and the same queue, and an accepted
scrape is answered for consecutive slices of these bytes.
-/
theorem receiveDatagram_sameReceived (opt : Options) (s : UdpServer)
    (db : TorrentDb) (h : d.SameReceived d') :
    s.receiveDatagram opt d db = s.receiveDatagram opt d' db ∧
      (scrapeRequest d.filled d.size).infoHashs = d.slices ∧
      (∀ i < (d.size - 16) / 20, 16 + 20 * i + 20 ≤ d.received.length) ∧
      (16 ≤ d.bytes.length → d.action = 2 → Accepted s d →
        s.receiveDatagram opt d db =
          (s.push d.alloc d.addr
            (scrapeResponse (transactionId d.filled)
              (db.scrape opt ⟨d.slices⟩)), db)) := by
  refine ⟨receiveDatagram_congr s db h.readsAs, infoHashs_received d, ?_, ?_⟩
  · intro i hi
    show _ ≤ d.size
    omega
  · intro hlong haction haccepted
    rw [← infoHashs_received]
    exact receiveDatagram_scrape opt db hlong haction haccepted

/-- A scrape of one hash, in a buffer full of zeros. -/
def bufferedScrape : Datagram where
  now := 0
  bytes := (zeros 8).val ++ (toBE 4 2).val ++ (zeros 24).val
  addr := .inet ⟨6881, sampleIp⟩
  buffer := zeros 4096
  raw := zeros 18
  alloc := true

/-- The scrape in a buffer that holds something else. -/
theorem receiveDatagram_sameReceived_scrape :
    new.receiveDatagram {} bufferedScrape ∅ =
        new.receiveDatagram {} { bufferedScrape with buffer := toBE 4096 1 } ∅ ∧
      (scrapeRequest bufferedScrape.filled bufferedScrape.size).infoHashs =
        bufferedScrape.slices ∧
      (∀ i < (bufferedScrape.size - 16) / 20,
        16 + 20 * i + 20 ≤ bufferedScrape.received.length) ∧
      (16 ≤ bufferedScrape.bytes.length → bufferedScrape.action = 2 →
        Accepted new bufferedScrape →
        new.receiveDatagram {} bufferedScrape ∅ =
          (new.push bufferedScrape.alloc bufferedScrape.addr
            (scrapeResponse (transactionId bufferedScrape.filled)
              (TorrentDb.scrape {} ⟨bufferedScrape.slices⟩ ∅)), ∅)) :=
  receiveDatagram_sameReceived {} new ∅
    (Datagram.SameReceived.of_buffer bufferedScrape (toBE 4096 1))

end Requests

end UdpServer
end Hefur
