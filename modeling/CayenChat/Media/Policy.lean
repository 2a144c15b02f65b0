import CayenChat.Lib.Digits
import CayenChat.Media.Cache
import CayenChat.Wire.Transcript

/-! # Which hosts may be contacted

Every request, including each redirect target, must pass `checkRequest`, and a
resolver hands out public addresses only. The ranges the documentation names
are listed as blocks of addresses, apart from the comparisons the code makes.
-/

namespace CayenChat.Media

open Digits

structure Ipv4Addr where
  a : Fin 256
  b : Fin 256
  c : Fin 256
  d : Fin 256
  deriving DecidableEq, Repr

/-- The eight segments, in the order they are written. -/
structure Ipv6Addr where
  segments : Fin 8 → Fin 65536
  deriving DecidableEq

inductive IpAddr
  | v4 (ip : Ipv4Addr)
  | v6 (ip : Ipv6Addr)
  deriving DecidableEq

inductive Host
  | domain (name : String)
  | ipv4 (ip : Ipv4Addr)
  | ipv6 (ip : Ipv6Addr)
  deriving DecidableEq

/-- A parsed URL. The port is dropped when it is the default of the scheme. -/
structure Url where
  scheme : String
  username : String := ""
  password : Option String := none
  host : Option Host
  port : Option ℕ := none
  path : String := "/"
  deriving DecidableEq

/-- Relaxations used only by tests against a local server. -/
structure Rules where
  /-- Allow 127.0.0.1 on any port. -/
  loopbackFixture : Bool := false
  deriving DecidableEq, Repr

def Ipv4Addr.localhost : Ipv4Addr := ⟨127, 0, 0, 1⟩

def isPublicV4 (ip : Ipv4Addr) : Bool :=
  let a := ip.a.val
  let b := ip.b.val
  let c := ip.c.val
  !(a == 0
    || a == 10
    || a == 127
    || (a == 100 && (64 ≤ b && b < 128))
    || (a == 169 && b == 254)
    || (a == 172 && (16 ≤ b && b < 32))
    || (a == 192 && b == 0 && c == 0)
    || (a == 192 && b == 0 && c == 2)
    || (a == 192 && b == 88 && c == 99)
    || (a == 192 && b == 168)
    || (a == 198 && (18 ≤ b && b < 20))
    || (a == 198 && b == 51 && c == 100)
    || (a == 203 && b == 0 && c == 113)
    || 224 ≤ a)

def embeddedV4 (high low : Fin 65536) : Ipv4Addr :=
  ⟨Fin.ofNat 256 (high.val / 256), Fin.ofNat 256 high.val, Fin.ofNat 256 (low.val / 256),
    Fin.ofNat 256 low.val⟩

namespace Ipv6Addr

variable (ip : Ipv6Addr)

def digits : List ℕ := List.ofFn fun i => (ip.segments i).val

/-- Mapped (`::ffff:0:0/96`) or NAT64 (`64:ff9b::/96`). -/
def isMapped : Bool :=
  ip.digits.take 5 == [0, 0, 0, 0, 0] && (ip.segments 5).val == 0xffff
    || ip.digits.take 6 == [0x64, 0xff9b, 0, 0, 0, 0]

end Ipv6Addr

def isPublicV6 (ip : Ipv6Addr) : Bool :=
  if ip.isMapped then isPublicV4 (embeddedV4 (ip.segments 6) (ip.segments 7))
  -- 6to4 embeds the IPv4 address in the next 32 bits.
  else if (ip.segments 0).val == 0x2002 then isPublicV4 (embeddedV4 (ip.segments 1) (ip.segments 2))
  else
    -- Only global unicast, without Teredo, ORCHID and documentation ranges.
    ((ip.segments 0).val &&& 0xe000) == 0x2000
      && ip.digits.take 2 != [0x2001, 0]
      && !((ip.segments 0).val == 0x2001
        && (0x10 ≤ (ip.segments 1).val && (ip.segments 1).val < 0x40))
      && ip.digits.take 2 != [0x2001, 0xdb8]
      && (ip.segments 0).val != 0x3fff

def isPublicIp : IpAddr → Bool
  | .v4 ip => isPublicV4 ip
  | .v6 ip => isPublicV6 ip

/-- HTTP or HTTPS; a redirect may not go from HTTPS to plain HTTP. -/
def allowedScheme (url : Url) (previous : Option Url) : Bool :=
  let secureBefore := previous.any (·.scheme == "https")
  if url.scheme = "https" then true
  else if url.scheme = "http" then !secureBefore
  else false

/-- A public host, at the default port. -/
def hostOk (url : Url) (rules : Rules) : Bool :=
  let fixture := fun ip => rules.loopbackFixture && ip == Ipv4Addr.localhost
  match url.host with
  | some (.domain domain) =>
    let domain := toAsciiLowercase (trimEndMatches ['.'] domain)
    url.port.isNone
      && domain.toList.contains '.'
      && domain != "localhost"
      && !".localhost".toList.isSuffixOf domain.toList
  | some (.ipv4 ip) => fixture ip || (url.port.isNone && isPublicIp (.v4 ip))
  | some (.ipv6 ip) => url.port.isNone && isPublicIp (.v6 ip)
  | none => false

def checkRequest (url : Url) (previous : Option Url) (rules : Rules) : Except LoadError Unit :=
  if !allowedScheme url previous || url.username != "" || url.password.isSome then .error .blocked
  else if hostOk url rules then .ok ()
  else .error .blocked

def permits (rules : Rules) (ip : IpAddr) : Bool :=
  isPublicIp ip || (rules.loopbackFixture && ip == .v4 Ipv4Addr.localhost)

/-! ## The ranges the documentation names -/

/-- What a range of addresses is set aside for. -/
inductive Purpose
  | loopback
  | privateUse
  | shared
  | linkLocal
  | multicast
  | documentation
  | benchmarking
  | reserved
  deriving DecidableEq, Repr

/-- A block of addresses: its first digits, how many bits of them count, and its purpose. -/
structure Range where
  base : List ℕ
  len : ℕ
  purpose : Purpose
  deriving DecidableEq, Repr

/-- The IPv4 blocks that are not for the public. -/
def ranges4 : List Range :=
  [⟨[0, 0, 0, 0], 8, .reserved⟩,
    ⟨[10, 0, 0, 0], 8, .privateUse⟩,
    ⟨[127, 0, 0, 0], 8, .loopback⟩,
    ⟨[100, 64, 0, 0], 10, .shared⟩,
    ⟨[169, 254, 0, 0], 16, .linkLocal⟩,
    ⟨[172, 16, 0, 0], 12, .privateUse⟩,
    ⟨[192, 0, 0, 0], 24, .reserved⟩,
    ⟨[192, 0, 2, 0], 24, .documentation⟩,
    ⟨[192, 88, 99, 0], 24, .reserved⟩,
    ⟨[192, 168, 0, 0], 16, .privateUse⟩,
    ⟨[198, 18, 0, 0], 15, .benchmarking⟩,
    ⟨[198, 51, 100, 0], 24, .documentation⟩,
    ⟨[203, 0, 113, 0], 24, .documentation⟩,
    ⟨[224, 0, 0, 0], 4, .multicast⟩,
    ⟨[240, 0, 0, 0], 4, .reserved⟩]

/-- The IPv6 block of the benchmarking methodology, `2001:2::/48`. -/
def benchmarking6 : Range := ⟨[0x2001, 2, 0, 0, 0, 0, 0, 0], 48, .benchmarking⟩

/-- The IPv6 blocks that are not for the public: all outside global unicast, `2000::/3`, and
what is set aside within it. -/
def ranges6 : List Range :=
  [⟨[0, 0, 0, 0, 0, 0, 0, 1], 128, .loopback⟩,
    ⟨[0, 0, 0, 0, 0, 0, 0, 0], 3, .reserved⟩,
    ⟨[0x4000, 0, 0, 0, 0, 0, 0, 0], 2, .reserved⟩,
    ⟨[0x8000, 0, 0, 0, 0, 0, 0, 0], 1, .reserved⟩,
    ⟨[0xfc00, 0, 0, 0, 0, 0, 0, 0], 7, .privateUse⟩,
    ⟨[0xfe80, 0, 0, 0, 0, 0, 0, 0], 10, .linkLocal⟩,
    ⟨[0xfec0, 0, 0, 0, 0, 0, 0, 0], 10, .privateUse⟩,
    ⟨[0xff00, 0, 0, 0, 0, 0, 0, 0], 8, .multicast⟩,
    ⟨[0x2001, 0, 0, 0, 0, 0, 0, 0], 32, .reserved⟩,
    benchmarking6,
    ⟨[0x2001, 0x10, 0, 0, 0, 0, 0, 0], 28, .reserved⟩,
    ⟨[0x2001, 0x20, 0, 0, 0, 0, 0, 0], 28, .reserved⟩,
    ⟨[0x2001, 0xdb8, 0, 0, 0, 0, 0, 0], 32, .documentation⟩,
    ⟨[0x3fff, 0, 0, 0, 0, 0, 0, 0], 20, .documentation⟩]

def Ipv4Addr.digits (ip : Ipv4Addr) : List ℕ := [ip.a.val, ip.b.val, ip.c.val, ip.d.val]

def Ipv4Addr.In (ip : Ipv4Addr) (r : Range) : Prop :=
  Agree 32 r.len (value 8 ip.digits) (value 8 r.base)

def Ipv6Addr.In (ip : Ipv6Addr) (r : Range) : Prop :=
  Agree 128 r.len (value 16 ip.digits) (value 16 r.base)

def mapped6 : Range := ⟨[0, 0, 0, 0, 0, 0xffff, 0, 0], 96, .reserved⟩

def nat64 : Range := ⟨[0x64, 0xff9b, 0, 0, 0, 0, 0, 0], 96, .reserved⟩

def sixToFour : Range := ⟨[0x2002, 0, 0, 0, 0, 0, 0, 0], 16, .reserved⟩

def Refused4 (ip : Ipv4Addr) : Prop := ∃ r ∈ ranges4, ip.In r

/-- An IPv6 address that embeds a refused IPv4 address or lies in a block set aside. -/
def Refused6 (ip : Ipv6Addr) : Prop :=
  ((ip.In mapped6 ∨ ip.In nat64) ∧ Refused4 (embeddedV4 (ip.segments 6) (ip.segments 7))) ∨
  (ip.In sixToFour ∧ Refused4 (embeddedV4 (ip.segments 1) (ip.segments 2))) ∨
  (¬ ip.In mapped6 ∧ ¬ ip.In nat64 ∧ ∃ r ∈ ranges6, ip.In r)

def Refused : IpAddr → Prop
  | .v4 ip => Refused4 ip
  | .v6 ip => Refused6 ip

def Benchmarks : IpAddr → Prop
  | .v4 _ => False
  | .v6 ip => ip.In benchmarking6

end CayenChat.Media
