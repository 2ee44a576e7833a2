import Mathlib.Algebra.Ring.Nat
import Mathlib.Data.List.Basic

/-!
# Network addresses

The addresses of `netbase.h` and `protocol.h`, with the ranges that are told apart and the groups
that addresses fall into.

## Main definitions

* `CNetAddr`, `CService`, `CAddress`
* `CNetAddr.isValid`, `CNetAddr.isRoutable`
* `CNetAddr.getGroup`, `CService.getKey`: what names the group of an address, and an endpoint
-/

namespace MotaCoin

/-- `CNetAddr`: the sixteen bytes of an address, in network order. -/
structure CNetAddr where
  ip : List UInt8
  length_ip : ip.length = 16
  deriving DecidableEq

/-- `CService`. -/
structure CService extends CNetAddr where
  port : UInt16
  deriving DecidableEq

/-- `CAddress`. -/
structure CAddress extends CService where
  nServices : UInt64
  nTime : UInt32
  nLastTry : Int64
  deriving DecidableEq

/-- `enum Network`. -/
inductive Network where
  | unroutable
  | ipv4
  | ipv6
  | tor
  | i2p
  deriving DecidableEq, Repr

/-- The number of a network, which starts the groups of its addresses. -/
def Network.toByte : Network → UInt8
  | .unroutable => 0
  | .ipv4 => 1
  | .ipv6 => 2
  | .tor => 3
  | .i2p => 4

namespace CNetAddr

variable (addr : CNetAddr)

/-- `GetByte`, from the last byte up. -/
def getByte (n : Nat) : UInt8 := addr.ip.getD (15 - n) 0

/-- `memcmp(ip, pch, sizeof(pch)) == 0`. -/
def startsWith (pch : List UInt8) : Bool := addr.ip.take pch.length == pch

def pchIPv4 : List UInt8 := [0, 0, 0, 0, 0, 0, 0, 0, 0, 0, 0xff, 0xff]

def pchOnionCat : List UInt8 := [0xFD, 0x87, 0xD8, 0x7E, 0xEB, 0x43]

def pchGarliCat : List UInt8 := [0xFD, 0x60, 0xDB, 0x4D, 0xDD, 0xB5]

def isIPv4 : Bool := addr.startsWith pchIPv4

/-- IPv4 private networks. -/
def isRFC1918 : Bool :=
  addr.isIPv4 && (addr.getByte 3 == 10 ||
    (addr.getByte 3 == 192 && addr.getByte 2 == 168) ||
    (addr.getByte 3 == 172 && (decide (16 ≤ addr.getByte 2) && decide (addr.getByte 2 ≤ 31))))

/-- IPv4 autoconfiguration. -/
def isRFC3927 : Bool := addr.isIPv4 && (addr.getByte 3 == 169 && addr.getByte 2 == 254)

/-- IPv6 documentation addresses. -/
def isRFC3849 : Bool :=
  addr.getByte 15 == 0x20 && addr.getByte 14 == 0x01 && addr.getByte 13 == 0x0D &&
    addr.getByte 12 == 0xB8

/-- IPv6 6to4 tunnelling. -/
def isRFC3964 : Bool := addr.getByte 15 == 0x20 && addr.getByte 14 == 0x02

/-- The well-known IPv6 range for IPv4. -/
def isRFC6052 : Bool := addr.startsWith [0, 0x64, 0xFF, 0x9B, 0, 0, 0, 0, 0, 0, 0, 0]

/-- IPv6 Teredo tunnelling. -/
def isRFC4380 : Bool :=
  addr.getByte 15 == 0x20 && addr.getByte 14 == 0x01 && addr.getByte 13 == 0 && addr.getByte 12 == 0

/-- IPv6 autoconfiguration. -/
def isRFC4862 : Bool := addr.startsWith [0xFE, 0x80, 0, 0, 0, 0, 0, 0]

/-- IPv6 unique local addresses. -/
def isRFC4193 : Bool := addr.getByte 15 &&& 0xFE == 0xFC

/-- IPv4-translated IPv6 addresses. -/
def isRFC6145 : Bool := addr.startsWith [0, 0, 0, 0, 0, 0, 0, 0, 0xFF, 0xFF, 0, 0]

/-- IPv6 ORCHID. -/
def isRFC4843 : Bool :=
  addr.getByte 15 == 0x20 && addr.getByte 14 == 0x01 && addr.getByte 13 == 0x00 &&
    addr.getByte 12 &&& 0xF0 == 0x10

def isTor : Bool := addr.startsWith pchOnionCat

def isI2P : Bool := addr.startsWith pchGarliCat

def isLocal : Bool :=
  addr.isIPv4 && (addr.getByte 3 == 127 || addr.getByte 3 == 0) ||
    addr.startsWith [0, 0, 0, 0, 0, 0, 0, 0, 0, 0, 0, 0, 0, 0, 0, 1]

/-- `IsValid`. The first check is for addresses that are shifted by three bytes. -/
def isValid : Bool :=
  if addr.startsWith (pchIPv4.drop 3) then false
  else if addr.startsWith (List.replicate 16 0) then false
  else if addr.isRFC3849 then false
  else if addr.isIPv4 then
    !(addr.ip.drop 12 == [0xff, 0xff, 0xff, 0xff]) && !(addr.ip.drop 12 == [0, 0, 0, 0])
  else true

def isRoutable : Bool :=
  addr.isValid && !(addr.isRFC1918 || addr.isRFC3927 || addr.isRFC4862 ||
    (addr.isRFC4193 && !addr.isTor && !addr.isI2P) || addr.isRFC4843 || addr.isLocal)

/-- The class of a group with the first bits of the address after `nStartByte`. -/
def groupBits (nClass : UInt8) (nStartByte nBits : Nat) : List UInt8 :=
  nClass :: (List.range (nBits / 8)).map (fun i => addr.getByte (15 - (nStartByte + i))) ++
    if nBits % 8 = 0 then []
    else [addr.getByte (15 - (nStartByte + nBits / 8)) ||| UInt8.ofNat (2 ^ (nBits % 8) - 1)]

/-- `GetGroup`. -/
def getGroup : List UInt8 :=
  if !addr.isRoutable then addr.groupBits Network.unroutable.toByte 0 0
  else if addr.isIPv4 || addr.isRFC6145 || addr.isRFC6052 then
    addr.groupBits Network.ipv4.toByte 12 (if addr.isLocal then 0 else 16)
  else if addr.isRFC3964 then
    addr.groupBits Network.ipv4.toByte 2 (if addr.isLocal then 0 else 16)
  else if addr.isRFC4380 then
    [Network.ipv4.toByte, addr.getByte 3 ^^^ 0xFF, addr.getByte 2 ^^^ 0xFF]
  else if addr.isTor then addr.groupBits Network.tor.toByte 6 4
  else if addr.isI2P then addr.groupBits Network.i2p.toByte 6 4
  else
    let nClass := if addr.isLocal then 255 else Network.ipv6.toByte
    if addr.getByte 15 == 0x20 && addr.getByte 14 == 0x11 && addr.getByte 13 == 0x04 &&
        addr.getByte 12 == 0x70 then addr.groupBits nClass 0 36
    else addr.groupBits nClass 0 32

end CNetAddr

namespace CService

/-- `GetKey`. -/
def getKey (addr : CService) : List UInt8 :=
  addr.ip ++ [(addr.port >>> 8).toUInt8, addr.port.toUInt8]

end CService

end MotaCoin
