import Hefur.Lib.Bytes

/-!
# Addresses

The model of `address.hh`, `address.hxx` and `address.cc`.

`family_` and the packed union behind it are one inductive type: the union is
only ever read through the member that `family_` selects.  An address whose
family is `AF_UNSPEC` keeps the raw bytes of the union, because `key()` reads
them: they are whatever the memory held before.

Ports are stored as the network-order word of the source, that is the word the
host reads from two bytes in network order; `htons` and `ntohs` convert.

The textual forms are those of `inet_ntop` and `inet_pton`, which are taken as
a parameter (`Inet`).
-/

namespace Hefur

open Bytes

/-- A C++ string: any bytes. -/
abbrev Text := List UInt8

/-- The C string behind `c_str()`: it ends at the first NUL. -/
def cStr (t : Text) : Text :=
  t.takeWhile (· ≠ 0)

/-- Swap the two bytes of a word. -/
def swap16 (w : UInt16) : UInt16 :=
  UInt16.ofNat (w.toNat % 256 * 256 + w.toNat / 256)

def htons (port : UInt16) : UInt16 := swap16 port

def ntohs (word : UInt16) : UInt16 := swap16 word

theorem toNat_swap16 (w : UInt16) :
    (swap16 w).toNat = w.toNat % 256 * 256 + w.toNat / 256 := by
  have hw := w.toNat_lt
  apply UInt16.toNat_ofNat_of_lt'
  show _ < 65536
  omega

theorem swap16_swap16 (w : UInt16) :
    swap16 (swap16 w) = w := by
  have hw := w.toNat_lt
  apply UInt16.toNat_inj.mp
  rw [toNat_swap16, toNat_swap16]
  omega

/-- `inet_ntop` and `inet_pton` for both families. -/
structure Inet where
  ntop4 : Block 4 → Text
  ntop6 : Block 16 → Text
  pton4 : Text → Option (Block 4)
  pton6 : Text → Option (Block 16)

structure SockaddrIn where
  sinPort : UInt16
  sinAddr : Block 4
deriving DecidableEq

/-- `sin6_flowinfo` is left out: nothing reads it. -/
structure SockaddrIn6 where
  sin6Port : UInt16
  sin6Addr : Block 16
  sin6ScopeId : UInt32
deriving DecidableEq

/-- A `sockaddr`, read through the member its `sa_family` selects. -/
inductive Sockaddr where
  | inet (sin : SockaddrIn)
  | inet6 (sin6 : SockaddrIn6)
  | other (saFamily : UInt16)
deriving DecidableEq

/-- The sockets of the servers are `AF_INET` or `AF_INET6`. -/
def Sockaddr.IsIp : Sockaddr → Prop
  | .inet _ => True
  | .inet6 _ => True
  | .other _ => False

instance : DecidablePred Sockaddr.IsIp := fun s =>
  match s with
  | .inet _ => isTrue trivial
  | .inet6 _ => isTrue trivial
  | .other _ => isFalse not_false

inductive Family where
  | unspec
  | inet
  | inet6
deriving DecidableEq

inductive Address where
  | unspec (raw : Block 18)
  | inet (addr : Block 4) (port : UInt16)
  | inet6 (addr : Block 16) (port : UInt16)
deriving DecidableEq

/-- The first 12 bytes of an IPv4-mapped IPv6 address. -/
def v4MappedPrefix : List UInt8 :=
  List.replicate 10 0 ++ [0xFF, 0xFF]

/-- The last four bytes of an IPv6 address. -/
def lastFour (a : Block 16) : Block 4 :=
  ⟨a.val.drop 12, by simp [a.property]⟩

/-- An IP address of either family, without a port. -/
inductive Ip where
  | v4 (addr : Block 4)
  | v6 (addr : Block 16)
deriving DecidableEq

namespace Ip

/-- The address with a port word. -/
def withPort (ip : Ip) (word : UInt16) : Address :=
  match ip with
  | v4 addr => .inet addr word
  | v6 addr => .inet6 addr word

def text (net : Inet) : Ip → Text
  | v4 addr => net.ntop4 addr
  | v6 addr => net.ntop6 addr

end Ip

/-- The address `10.0.0.1`. -/
def sampleIp : Block 4 :=
  ⟨[10, 0, 0, 1], rfl⟩

namespace Address

/-- The IP of an address of known family. -/
def ip : Address → Option Ip
  | unspec _ => none
  | inet addr _ => some (.v4 addr)
  | inet6 addr _ => some (.v6 addr)

def family : Address → Family
  | unspec _ => .unspec
  | inet _ _ => .inet
  | inet6 _ _ => .inet6

/-- `operator=(const sockaddr_in *)`. -/
def ofSockaddrIn (sin : SockaddrIn) : Address :=
  inet sin.sinAddr sin.sinPort

/-- `operator=(const sockaddr_in6 *)`: mapped addresses become IPv4. -/
def ofSockaddrIn6 (sin6 : SockaddrIn6) : Address :=
  if sin6.sin6Addr.val.take 12 ≠ v4MappedPrefix then
    inet6 sin6.sin6Addr sin6.sin6Port
  else
    inet (lastFour sin6.sin6Addr) sin6.sin6Port

/-- `operator=(const sockaddr *)` on an address whose union holds `raw`. -/
def ofSockaddr (raw : Block 18) : Sockaddr → Address
  | .inet sin => ofSockaddrIn sin
  | .inet6 sin6 => ofSockaddrIn6 sin6
  | .other _ => unspec raw

def setPort (port : UInt16) : Address → Address
  | unspec raw => unspec raw
  | inet addr _ => inet addr (htons port)
  | inet6 addr _ => inet6 addr (htons port)

def port : Address → UInt16
  | unspec _ => 0
  | inet _ word => ntohs word
  | inet6 _ word => ntohs word

/-- `operator==`: two addresses of unknown family are never equal. -/
def same : Address → Address → Bool
  | inet a p, inet b q => a = b ∧ p = q
  | inet6 a p, inet6 b q => a = b ∧ p = q
  | _, _ => false

/-- The packed bytes used as the key of the peer index. -/
def key : Address → List UInt8
  | unspec raw => raw.val
  | inet addr word => addr.val ++ (toLE 2 word.toNat).val
  | inet6 addr word => addr.val ++ (toLE 2 word.toNat).val

def ipStr (net : Inet) : Address → Text
  | unspec _ => ascii "(unknown family)"
  | inet addr _ => net.ntop4 addr
  | inet6 addr _ => net.ntop6 addr

@[simp] theorem ip_withPort (ip : Ip) (word : UInt16) :
    (ip.withPort word).ip = some ip := by
  cases ip <;> rfl

@[simp] theorem ipStr_withPort (net : Inet) (ip : Ip) (word : UInt16) :
    (ip.withPort word).ipStr net = ip.text net := by
  cases ip <;> rfl

@[simp] theorem port_withPort (ip : Ip) (word : UInt16) :
    (ip.withPort word).port = ntohs word := by
  cases ip <;> rfl

theorem withPort_inj {ip ip' : Ip} {word word' : UInt16} :
    ip.withPort word = ip'.withPort word' ↔ ip = ip' ∧ word = word' := by
  cases ip <;> cases ip' <;> simp [Ip.withPort]

/-- An address of known family is an IP with a port. -/
theorem exists_withPort_of_ip {a : Address} {ip : Ip} (ha : a.ip = some ip) :
    ∃ word, a = ip.withPort word := by
  cases a with
  | unspec raw =>
      cases ha
  | inet addr word =>
      obtain rfl := Option.some.inj ha
      exact ⟨word, rfl⟩
  | inet6 addr word =>
      obtain rfl := Option.some.inj ha
      exact ⟨word, rfl⟩

@[simp] theorem family_setPort (port : UInt16) (a : Address) :
    (a.setPort port).family = a.family := by
  cases a <;> rfl

theorem family_withPort_ne_unspec (ip : Ip) (word : UInt16) :
    (ip.withPort word).family ≠ .unspec := by
  cases ip <;> simp [Ip.withPort, family]

theorem exists_withPort_ofSockaddrIn6 (sin6 : SockaddrIn6) :
    ∃ ip : Ip, ofSockaddrIn6 sin6 = ip.withPort sin6.sin6Port := by
  unfold ofSockaddrIn6
  split
  · exact ⟨.v6 sin6.sin6Addr, rfl⟩
  · exact ⟨.v4 (lastFour sin6.sin6Addr), rfl⟩

/-- The address of an IP socket is an IP with a port. -/
theorem exists_withPort_ofSockaddr
    (raw : Block 18) {s : Sockaddr} (hs : s.IsIp) :
    ∃ ip word, ofSockaddr raw s = Ip.withPort ip word := by
  cases s with
  | inet sin =>
      exact ⟨.v4 sin.sinAddr, sin.sinPort, rfl⟩
  | inet6 sin6 =>
      obtain ⟨ip, hip⟩ := exists_withPort_ofSockaddrIn6 sin6
      exact ⟨ip, sin6.sin6Port, hip⟩
  | other f =>
      exact hs.elim

theorem family_ofSockaddr_ne_unspec
    (raw : Block 18) {s : Sockaddr} (hs : s.IsIp) :
    (ofSockaddr raw s).family ≠ .unspec := by
  obtain ⟨ip, word, haddr⟩ := exists_withPort_ofSockaddr raw hs
  rw [haddr]
  exact family_withPort_ne_unspec ip word

/-- The length of a key tells the families apart. -/
theorem length_key (a : Address) :
    a.key.length = if a.family = .inet then 6 else 18 := by
  cases a with
  | unspec raw => simp [key, family, raw.property]
  | inet addr word => simp [key, family, addr.property, (toLE 2 _).property]
  | inet6 addr word => simp [key, family, addr.property, (toLE 2 _).property]

/-- `operator==` holds of equal addresses of known family. -/
theorem same_iff {a b : Address} :
    a.same b = true ↔ a.family ≠ .unspec ∧ a = b := by
  cases a <;> cases b <;> simp [same, family]

theorem toLE_word_inj {word word' : UInt16}
    (h : (toLE 2 word.toNat).val = (toLE 2 word'.toNat).val) :
    word = word' := by
  apply UInt16.toNat_inj.mp
  rw [← ofLE_toLE (n := 2) word.toNat_lt, h, ofLE_toLE word'.toNat_lt]

/-- The length of a key stands for the family that the key leaves out. -/
theorem key_inj {a b : Address}
    (ha : a.family ≠ .unspec) (hb : b.family ≠ .unspec) :
    a.key = b.key ↔ a = b := by
  constructor
  · intro hkey
    have hlength := congrArg List.length hkey
    rw [length_key, length_key] at hlength
    cases a with
    | unspec raw =>
        exact (ha rfl).elim
    | inet addr word =>
        cases b with
        | unspec raw =>
            exact (hb rfl).elim
        | inet addr' word' =>
            obtain ⟨haddr, hword⟩ := List.append_inj hkey
              (addr.property.trans addr'.property.symm)
            rw [Subtype.val_inj.mp haddr, toLE_word_inj hword]
        | inet6 addr' word' =>
            simp [family] at hlength
    | inet6 addr word =>
        cases b with
        | unspec raw =>
            exact (hb rfl).elim
        | inet addr' word' =>
            simp [family] at hlength
        | inet6 addr' word' =>
            obtain ⟨haddr, hword⟩ := List.append_inj hkey
              (addr.property.trans addr'.property.symm)
            rw [Subtype.val_inj.mp haddr, toLE_word_inj hword]
  · rintro rfl
    rfl

end Address

end Hefur
