import Hefur.Address

/-!
# Options, info hashes and the internal requests

The parts of `options.cc`, `info-hash.hh`, `announce-request.hh`,
`announce-response.hh`, `scrape-request.hh` and `scrape-response.hh` that the
tracker reads.  Every option is a parameter of the functions that use it.

A time is a signed 64-bit number of nanoseconds of the coarse monotonic clock.
-/

namespace Hefur

open Bytes

/-- The value a signed 64-bit word holds after an overflow. -/
def wrap64 (x : Int) : Int :=
  (x + 2 ^ 63) % 2 ^ 64 - 2 ^ 63

theorem wrap64_eq_self {x : Int}
    (hlow : -2 ^ 63 ≤ x) (hhigh : x < 2 ^ 63) :
    wrap64 x = x := by
  unfold wrap64
  omega

/-- The signed value of the low 32 bits. -/
def wrap32 (x : Int) : Int :=
  (x + 2 ^ 31) % 2 ^ 32 - 2 ^ 31

theorem wrap32_eq_self {x : Int}
    (hlow : -2 ^ 31 ≤ x) (hhigh : x < 2 ^ 31) :
    wrap32 x = x := by
  unfold wrap32
  omega

/-- The 32-bit word read as a signed number. -/
def toInt32 (w : UInt32) : Int :=
  if w.toNat < 2 ^ 31 then w.toNat else w.toNat - 2 ^ 32

theorem toInt32_ofInt {x : Int} (hlow : -2 ^ 31 ≤ x) (hhigh : x < 2 ^ 31) :
    toInt32 (UInt32.ofInt x) = x := by
  have hword : (UInt32.ofInt x).toNat = (x % 2 ^ 32).toNat := by
    rw [UInt32.ofInt, UInt32.toNat_ofNat']
    omega
  rw [toInt32, hword]
  split <;> omega

theorem toInt32_of_lt {w : UInt32} (hw : w.toNat < 2 ^ 31) :
    toInt32 w = w.toNat :=
  if_pos hw

def millisecond : Int := 1000000
def second : Int := 1000 * millisecond
def minute : Int := 60 * second

/-- The options of `options.cc`, with the defaults given there. -/
structure Options where
  maxPeers : UInt32 := 1024
  maxNumwant : UInt32 := 100
  minNumwant : UInt32 := 50
  maxScanDepth : UInt32 := 64
  maxScanInodes : UInt32 := 128 * 1024
  announceInterval : UInt32 := 15
  scrapeInterval : UInt32 := 15
  allowProxy : Bool := false
  torrentDir : Text := []
  reverseProxyHeader : Text := ascii "X-Real-IP"
  reverseProxyFrom : Text := []

/-- `ANNOUNCE_INTERVAL * 60`, the `interval_` of a reply, in seconds. -/
def Options.interval (opt : Options) : UInt32 :=
  opt.announceInterval * 60

namespace InfoHash

inductive Kind where
  | none
  | sha1
  | sha256
deriving DecidableEq

def hashSize : Kind → Nat
  | .sha1 => 20
  | .sha256 => 32
  | .none => 0

end InfoHash

/-- A wrapper around the bytes of a hash, 20 for SHA1 and 32 for SHA256. -/
structure InfoHash where
  bytes32 : Block 32
  kind : InfoHash.Kind
deriving DecidableEq

namespace InfoHash

/-- The default constructor: zeros, and no type. -/
def empty : InfoHash where
  bytes32 := zeros 32
  kind := .none

/-- `memcpy` of 20 bytes over `bytes_`. -/
def setBytes20 (h : InfoHash) (data : Block 20) : InfoHash :=
  { h with
    bytes32 := ⟨data.val ++ h.bytes32.val.drop 20, by
      simp [data.property, h.bytes32.property]⟩ }

/-- `InfoHash(SHA1, data)`. -/
def ofSha1 (data : Block 20) : InfoHash :=
  { empty.setBytes20 data with kind := .sha1 }

/-- `InfoHash(SHA256, data)`. -/
def ofSha256 (data : Block 32) : InfoHash where
  bytes32 := data
  kind := .sha256

/-- The significant bytes: as many as the type says. -/
def bytes (h : InfoHash) : List UInt8 :=
  h.bytes32.val.take (hashSize h.kind)

theorem length_bytes (h : InfoHash) :
    h.bytes.length = hashSize h.kind := by
  rw [bytes, List.length_take, h.bytes32.property]
  cases h.kind <;> rfl

@[simp] theorem bytes_ofSha1 (data : Block 20) :
    (ofSha1 data).bytes = data.val := by
  simp [bytes, ofSha1, setBytes20, hashSize, data.property]

/-- A hash whose type was never set has no bytes. -/
theorem bytes_of_kind_none {h : InfoHash} (hkind : h.kind = .none) :
    h.bytes = [] := by
  simp [bytes, hkind, hashSize]

end InfoHash

namespace AnnounceRequest

inductive Event where
  | none
  | started
  | completed
  | stopped
deriving DecidableEq

/-- ASCII lower case of a byte, as `strcasecmp` compares. -/
def toLower (b : UInt8) : UInt8 :=
  if 65 ≤ b ∧ b ≤ 90 then b + 32 else b

/-- `!strcasecmp(str, word)`. -/
def caseEq (str word : Text) : Bool :=
  (cStr str).map toLower = (cStr word).map toLower

def parseEvent (str : Text) : Event :=
  if caseEq str (ascii "started") then .started
  else if caseEq str (ascii "completed") then .completed
  else if caseEq str (ascii "stopped") then .stopped
  else .none

end AnnounceRequest

/-- The fields of `AnnounceRequest`; the crypto fields are never touched. -/
structure AnnounceRequest where
  peerid : Block 20
  infoHash : InfoHash
  numWant : UInt32
  event : AnnounceRequest.Event
  downloaded : UInt64
  uploaded : UInt64
  left : UInt64
  addr : Address
  skipIpv6 : Bool

/-- An announce with zeros in the fields that are not given. -/
def AnnounceRequest.plain (event : AnnounceRequest.Event) (left : UInt64)
    (addr : Address) : AnnounceRequest where
  peerid := zeros 20
  infoHash := InfoHash.empty
  numWant := 0
  event := event
  downloaded := 0
  uploaded := 0
  left := left
  addr := addr
  skipIpv6 := false

/-- A refusal leaves the counters unset; they are not read then. -/
structure AnnounceResponse where
  error : Bool
  errorMsg : Text
  nleechers : UInt32 := 0
  nseeders : UInt32 := 0
  ncompleted : UInt32 := 0
  interval : UInt32 := 0
  addrs : List Address := []
deriving DecidableEq

structure ScrapeRequest where
  infoHashs : List InfoHash

structure ScrapeResponse.Item where
  infoHash : InfoHash
  nleechers : UInt32
  nseeders : UInt32
  ndownloaded : UInt32
deriving DecidableEq

structure ScrapeResponse where
  error : Bool
  errorMsg : Text
  interval : UInt32
  items : List ScrapeResponse.Item

end Hefur
