import Hefur.TorrentDb

/-!
# The announce and scrape pages

The model of `announce-handler.cc` and `scrape-handler.cc`, with what they use
of the C library and of the HTTP and bencode libraries.

A query is the list of its URL-decoded parameters; parameters of one name keep
their order.  A handler returns its `Reply`: the items it hands to the bencode
encoder, or nothing when it returns `false` (the server then says "not found").

`AnnounceHandler.request` and `AnnounceHandler.announce` are the two halves of
`AnnounceHandler::handle`: the conversion of the query into an internal request
and what the database makes of it.
-/

namespace Hefur

open Bytes

section Numbers

def isSpace (b : UInt8) : Bool :=
  b = 32 || (9 ≤ b && b ≤ 13)

def isDigit (b : UInt8) : Bool :=
  48 ≤ b && b ≤ 57

/-- The number that decimal digits write. -/
def digitsValue (digits : Text) : Nat :=
  digits.foldl (fun acc b => acc * 10 + (b.toNat - 48)) 0

/-- An optional sign: whether it is a minus, and the rest of the text. -/
def splitSign : Text → Bool × Text
  | 45 :: t => (true, t)
  | 43 :: t => (false, t)
  | t => (false, t)

/-- `strtol` and `strtoll` in base 10, both of 64 bits, which saturate. -/
def strtoll (str : Text) : Int :=
  let (negative, t) := splitSign ((cStr str).dropWhile isSpace)
  let value := digitsValue (t.takeWhile isDigit)
  if negative then max (-2 ^ 63) (-value) else min (2 ^ 63 - 1) value

def atoll (str : Text) : Int :=
  strtoll str

/-- `(int) strtol(str, NULL, 10)`. -/
def atoi (str : Text) : Int :=
  wrap32 (strtoll str)

end Numbers

section Presentation

def parseByte (t : Text) : Option UInt8 :=
  if t ≠ [] ∧ t.all isDigit ∧ t.length ≤ 3 ∧ digitsValue t < 256 ∧
      (t.length = 1 ∨ t.head? ≠ some 48) then
    some (UInt8.ofNat (digitsValue t))
  else none

def hexValue (b : UInt8) : Option Nat :=
  if isDigit b then some (b.toNat - 48)
  else if 97 ≤ b ∧ b ≤ 102 then some (b.toNat - 87)
  else if 65 ≤ b ∧ b ≤ 70 then some (b.toNat - 55)
  else none

def hexDigit (n : Nat) : UInt8 :=
  UInt8.ofNat (if n < 10 then 48 + n else 87 + n)

/-- The two bytes of a group of one to four hexadecimal digits. -/
def parseGroup (t : Text) : Option (List UInt8) :=
  if t ≠ [] ∧ t.length ≤ 4 then
    (t.mapM hexValue).map fun digits =>
      bytesBE 2 (digits.foldl (fun acc digit => acc * 16 + digit) 0)
  else none

def groupText : List UInt8 → List Text
  | hi :: lo :: rest =>
      [hexDigit (hi.toNat / 16), hexDigit (hi.toNat % 16),
        hexDigit (lo.toNat / 16), hexDigit (lo.toNat % 16)] :: groupText rest
  | _ => []

/--
The conversions on dotted decimals and on IPv6 addresses written as eight
groups, without the `::` abbreviation.
-/
def Inet.plain : Inet where
  ntop4 addr :=
    List.intercalate [46] (addr.val.map fun b => ascii (Nat.repr b.toNat))
  ntop6 addr := List.intercalate [58] (groupText addr.val)
  pton4 t :=
    match (t.splitOn 46).mapM parseByte with
    | some [a, b, c, d] => some ⟨[a, b, c, d], rfl⟩
    | _ => none
  pton6 t :=
    match (t.splitOn 58).mapM parseGroup with
    | some groups =>
        if hsize : groups.flatten.length = 16 then
          some ⟨groups.flatten, hsize⟩
        else none
    | none => none

end Presentation

section Requests

/-- The parameters of a query, or the headers of a request. -/
abbrev Params := List (Text × Text)

/-- `queryGet`: the first value of the parameter, or the empty string. -/
def queryGet (name : Text) (query : Params) : Text :=
  (query.lookup name).getD []

/-- The values of a parameter, in order. -/
def queryAll (name : Text) (query : Params) : List Text :=
  query.filterMap fun param =>
    if param.1 = name then some param.2 else none

/-- What the handlers read of an HTTP request. -/
structure HttpRequest where
  location : Text
  query : Params
  headers : Params

end Requests

namespace Bencode

/-- The calls to the encoder. -/
inductive Token where
  | startDict
  | startList
  | finish
  | pushInt (value : Nat)
  | pushData (data : Text)
deriving DecidableEq

end Bencode

open Bencode (Token)

inductive Reply where
  | unhandled
  | body (items : List Token)

/-- Whether the connection is closed after the reply. -/
def Reply.closes : Reply → Bool
  | .unhandled => false
  | .body _ => true

namespace AnnounceHandler

/-- The `numwant` parameter: the minimum when it is missing. -/
def numWant (opt : Options) (query : Params) : UInt32 :=
  match query.lookup (ascii "numwant") with
  | none => opt.minNumwant
  | some value => UInt32.ofInt (min (atoi value) (toInt32 opt.maxNumwant))

/--
The address an announce registers, before `setPort`.  `inet_pton` sets no port;
an address left alone is a default one, whose union holds what the memory held.
-/
def requestAddr (opt : Options) (net : Inet) (raw : Block 18)
    (remoteAddr : Sockaddr) (ip : Text) : Address :=
  if opt.allowProxy ∧ ip ≠ [] then
    match net.pton4 (cStr ip) with
    | some sinAddr => .ofSockaddrIn ⟨0, sinAddr⟩
    | none =>
        match net.pton6 (cStr ip) with
        | some sin6Addr => .ofSockaddrIn6 ⟨0, sin6Addr, 0⟩
        | none => .unspec raw
  else .ofSockaddr raw remoteAddr

/-- The internal request of a query with this `peer_id` and `info_hash`. -/
def requestOf (opt : Options) (net : Inet) (raw : Block 18)
    (remoteAddr : Sockaddr) (query : Params) (peerid infoHash : Block 20) :
    AnnounceRequest where
  peerid := peerid
  infoHash := { InfoHash.empty.setBytes20 infoHash with kind := .sha1 }
  numWant := numWant opt query
  event := AnnounceRequest.parseEvent (queryGet (ascii "event") query)
  downloaded := UInt64.ofInt (atoll (queryGet (ascii "downloaded") query))
  uploaded := UInt64.ofInt (atoll (queryGet (ascii "uploaded") query))
  left := UInt64.ofInt (atoll (queryGet (ascii "left") query))
  addr :=
    (requestAddr opt net raw remoteAddr (queryGet (ascii "ip") query)).setPort
      (UInt16.ofInt (atoi (queryGet (ascii "port") query)))
  skipIpv6 := false

/-- The internal request, if `peer_id` and `info_hash` have the right size. -/
def request (opt : Options) (net : Inet) (raw : Block 18)
    (remoteAddr : Sockaddr) (query : Params) : Option AnnounceRequest :=
  if hsize : (queryGet (ascii "peer_id") query).length = 20 ∧
      (queryGet (ascii "info_hash") query).length = 20 then
    some (requestOf opt net raw remoteAddr query
      ⟨queryGet (ascii "peer_id") query, hsize.1⟩
      ⟨queryGet (ascii "info_hash") query, hsize.2⟩)
  else none

@[simp] theorem bytes_requestOf (opt : Options) (net : Inet)
    (raw : Block 18) (remoteAddr : Sockaddr) (query : Params)
    (peerid infoHash : Block 20) :
    (requestOf opt net raw remoteAddr query peerid infoHash).infoHash.bytes =
      infoHash.val :=
  InfoHash.bytes_ofSha1 infoHash

/-- The database call; nothing happens when the sizes are wrong. -/
def announce (opt : Options) (net : Inet) (now : Int) (raw : Block 18)
    (remoteAddr : Sockaddr) (query : Params) (db : TorrentDb) :
    Option (AnnounceResponse × TorrentDb) :=
  (request opt net raw remoteAddr query).map fun rq =>
    db.announce opt now rq

def peerItems (net : Inet) (addr : Address) : List Token :=
  [.startDict, .pushData (ascii "ip"), .pushData (addr.ipStr net),
    .pushData (ascii "port"), .pushInt addr.port.toNat, .finish]

/-- The bytes of an IPv4 peer in the compact form. -/
def compact4 : Address → Text
  | .inet addr word => addr.val ++ (toLE 2 word.toNat).val
  | _ => []

def compact6 : Address → Text
  | .inet6 addr word => addr.val ++ (toLE 2 word.toNat).val
  | _ => []

def failure (reason : Text) : List Token :=
  [.startDict, .pushData (ascii "failure reason"), .pushData reason, .finish]

def success (net : Inet) (compact : Bool) (rp : AnnounceResponse) :
    List Token :=
  [.startDict, .pushData (ascii "interval"), .pushInt rp.interval.toNat] ++
    (if compact then
      [.pushData (ascii "peers"), .pushData (rp.addrs.flatMap compact4),
        .pushData (ascii "peers6"), .pushData (rp.addrs.flatMap compact6)]
    else
      [.pushData (ascii "peers"), .startList] ++
        rp.addrs.flatMap (peerItems net) ++ [.finish]) ++
    [.finish]

def handle (opt : Options) (net : Inet) (now : Int) (raw : Block 18)
    (remoteAddr : Sockaddr) (query : Params) (db : TorrentDb) :
    Reply × TorrentDb :=
  let compact := (query.lookup (ascii "compact")).isSome
  match announce opt net now raw remoteAddr query db with
  | none => (.unhandled, db)
  | some (rp, db) =>
      if rp.error then (.body (failure rp.errorMsg), db)
      else (.body (success net compact rp), db)

end AnnounceHandler

namespace ScrapeHandler

/-- The requested hashes; values of another size are left out. -/
def request (query : Params) : ScrapeRequest where
  infoHashs := (queryAll (ascii "info_hash") query).filterMap fun value =>
    if hsize : value.length = 20 then some (.ofSha1 ⟨value, hsize⟩) else none

def fileItems (item : ScrapeResponse.Item) : List Token :=
  [.pushData (item.infoHash.bytes32.val.take 20), .startDict,
    .pushData (ascii "complete"), .pushInt item.nseeders.toNat,
    .pushData (ascii "incomplete"), .pushInt item.nleechers.toNat,
    .pushData (ascii "downloaded"), .pushInt item.ndownloaded.toNat, .finish]

/-- The reply; `scrape` never reports an error. -/
def handle (opt : Options) (query : Params) (db : TorrentDb) : Reply :=
  let rp := db.scrape opt (request query)
  if rp.error then .body (AnnounceHandler.failure rp.errorMsg)
  else
    .body
      ([.startDict, .pushData (ascii "flags"), .startDict,
          .pushData (ascii "min_request_interval"),
          .pushInt rp.interval.toNat, .finish,
          .pushData (ascii "files"), .startDict] ++
        rp.items.flatMap fileItems ++ [.finish, .finish])

end ScrapeHandler

end Hefur
