import Xstack.Arp.Cache
import Xstack.Ether
import Xstack.Ip.Fragment
import Xstack.Ip.Route
import Xstack.Lib.Program
import Xstack.Tcp
import Xstack.Udp

/-! # The state of the stack

All static variables of the daemon in one record, and the functions at the bottom of the call graph:
`ether_send`, the ARP messages and `arp_cache_get_haddr`.

`tx`, `calls` and `deferLog` are history variables: the frames given to `sendto`, the calls of protocol
handlers, and what `ip_defer_handler` has done. What is outside the program is a parameter, `Env`.
Logging and signals are left out. -/

namespace Xstack.Net.State

open Xstack.Config Xstack.Lib.Bytes Xstack.Lib.Lex Xstack.Lib.Program Xstack.Ether
open Xstack.Arp.Cache Xstack.Ip.Header Xstack.Ip.Fragment Xstack.Ip.Route Xstack.Tcp Xstack.Udp

/-- What the program gets from the C library and the kernel. -/
structure Env where
  mc : Memcmp
  /-- The result of `sendto` for the last of the frames so far, or minus the `errno` it sets. -/
  sendto : List (List UInt8) → ℤ

/-- `struct ip_defer`. -/
structure IpDefer where
  tries : ℤ
  dst : InAddr
  proto : UInt8
  bufSize : ℕ
  buf : Buf

/-- `ip_defer_queue` with its indices and `defer_inhibit`. -/
structure DeferQueue where
  slot : Fin xstackIpDeferMax → IpDefer
  qRd : Fin xstackIpDeferMax
  qWr : Fin xstackIpDeferMax
  deferInhibit : Bool

/-- What `ip_defer_handler` does with the first packet of the queue. -/
inductive DeferEvent
  /-- A call of `ip_send` with the fields of the slot. -/
  | send (ipd : IpDefer)
  | drop

/-- A call of a protocol handler: the protocol and the sender in the header, the memory behind the data
pointer, and the size argument. -/
structure HandlerCall where
  proto : UInt8
  src : InAddr
  data : Buf
  size : ℕ

/-- The static variables of the daemon. -/
structure Stack where
  errno : ℤ
  /-- `el_mac` of the only interface. -/
  mac : MacAddr
  arp : ArpCache
  rib : Rib
  ipGlobalId : UInt32
  defer : DeferQueue
  pool : Pool
  tcp : TcpMap
  udp : UdpTable
  tx : List (List UInt8)
  calls : List HandlerCall
  deferLog : List DeferEvent

/-- Static memory at start-up, once the routing table is initialised. -/
def Stack.init (mac : MacAddr) : Stack where
  errno := 0
  mac := mac
  arp := ArpCache.init
  rib := Rib.init
  ipGlobalId := 0
  defer := ⟨fun _ => ⟨0, 0, 0, 0, fun _ => 0⟩, 0, 0, false⟩
  pool := Pool.init
  tcp := TcpMap.init
  udp := UdpTable.init
  tx := []
  calls := []
  deferLog := []

/-- A function of the daemon. -/
abbrev Act := Prog Stack

variable (env : Env)

def setErrno (e : ℤ) : Act Unit := modify fun s => { s with errno := e }

/-! ### Frames -/

/-- `ether_handle2addr`; `none` is -1. -/
def etherHandle2addr (handle : ℤ) : Act (Option MacAddr) := do
  if handle ≥ etherMaxIf then
    setErrno ENODEV
    return none
  else if handle < 0 then stuck
  else return some (← get).mac

/-- `ether_send` of the first `bsize` bytes of `buf`. -/
def etherSend (handle : ℤ) (dst : MacAddr) (proto : UInt16) (buf : Buf) (bsize : ℕ) : Act ℤ := do
  if frameSize bsize > etherMaxlen + etherFcsLen then return -EMSGSIZE
  else if handle ≥ etherMaxIf then
    setErrno ENODEV
    return -ENODEV
  else if handle < 0 then stuck
  else
    let s ← get
    let tx := s.tx ++ [etherFrame dst s.mac proto (slice buf bsize)]
    modify fun s => { s with tx := tx }
    let retval := env.sendto tx
    if retval < 0 then setErrno (-retval)
    return retval

/-- A run of `ether_send` that reaches `sendto`. -/
theorem etherSend_run {bsize : ℕ} {handle : ℤ} (h0 : 0 ≤ handle) (h1 : handle < etherMaxIf)
    (hsize : ¬ frameSize bsize > etherMaxlen + etherFcsLen) (dst : MacAddr) (proto : UInt16)
    (buf : Buf) (s : Stack) :
    let tx := s.tx ++ [etherFrame dst s.mac proto (slice buf bsize)]
    etherSend env handle dst proto buf bsize s = (some (env.sendto tx),
      { s with tx := tx, errno := if env.sendto tx < 0 then -env.sendto tx else s.errno }) := by
  intro tx
  unfold etherSend
  rw [if_neg hsize, if_neg (by omega), if_neg (by omega), get_bind, modify_bind]
  show (if env.sendto tx < 0 then _ else _ : Act ℤ) _ = _
  split_ifs <;> rfl

/-! ### ARP messages -/

/-- `struct arp_ip`. -/
structure ArpIp where
  arpHtype : UInt16
  arpPtype : UInt16
  arpHlen : UInt8
  arpPlen : UInt8
  arpOper : UInt16
  arpSha : MacAddr
  arpSpa : InAddr
  arpTha : MacAddr
  arpTpa : InAddr

/-- `sizeof(struct arp_ip)`. -/
def arpIpSize : ℕ := 28

def arpHtypeEther : UInt16 := 1
def arpOperRequest : UInt16 := 1
def arpOperReply : UInt16 := 2

namespace ArpIp

def bytes (a : ArpIp) : List UInt8 :=
  le16 a.arpHtype ++ le16 a.arpPtype ++ [a.arpHlen, a.arpPlen] ++ le16 a.arpOper ++
    macBytes a.arpSha ++ le32 a.arpSpa ++ macBytes a.arpTha ++ le32 a.arpTpa

def load (b : Buf) : ArpIp :=
  ⟨rd16 b 0, rd16 b 2, b 4, b 5, rd16 b 6, macLoad b 8, rd32 b 14, macLoad b 18, rd32 b 24⟩

end ArpIp

/-- `arp_ntoh`, `arp_hton`. -/
def arpNtoh (a : ArpIp) : ArpIp :=
  { a with
    arpHtype := swap16 a.arpHtype
    arpPtype := swap16 a.arpPtype
    arpOper := swap16 a.arpOper
    arpSpa := swap32 a.arpSpa
    arpTpa := swap32 a.arpTpa }

/-- The message of `arp_request` and `arp_gratuitous`. -/
def arpMsg (handle : ℤ) (spa tpa : InAddr) : Act ArpIp := do
  let sha ← etherHandle2addr handle
  return ⟨arpHtypeEther, etherProtoIpv4, UInt8.ofNat etherAlen, 4, arpOperRequest,
    sha.getD fun _ => 0, spa, fun _ => 0, tpa⟩

/-- `arp_request`. -/
def arpRequest (handle : ℤ) (spa tpa : InAddr) : Act ℤ := do
  let msg ← arpMsg handle spa tpa
  let retval ← etherSend env handle macBroadcastAddr etherProtoArp (ofBytes (arpNtoh msg).bytes)
    arpIpSize
  return if retval < 0 then retval else 0

/-- `arp_gratuitous`. -/
def arpGratuitous (handle : ℤ) (spa : InAddr) : Act ℤ := do
  let msg ← arpMsg handle spa spa
  let _ ← etherSend env handle macBroadcastAddr etherProtoArp (ofBytes (arpNtoh msg).bytes) arpIpSize
  return 0

/-! ### The tables -/

/-- `arp_cache_insert`. -/
def arpCacheInsert (ipAddr : InAddr) (haddr : MacAddr) (type : ArpCacheEntryType) : Act ℤ := do
  let s ← get
  let (retval, arp) ← ofOption (s.arp.arpCacheInsert ipAddr haddr type)
  modify fun s => { s with arp := arp }
  if retval = -1 then setErrno ENOMEM
  return retval

/-- A run of `arp_cache_insert` that returns: the cache changes, and perhaps `errno`. -/
theorem arpCacheInsert_run {s : Stack} {ipAddr : InAddr} {haddr : MacAddr}
    {type : ArpCacheEntryType} {retval : ℤ} {arp : ArpCache}
    (h : s.arp.arpCacheInsert ipAddr haddr type = some (retval, arp)) :
    ∃ e, arpCacheInsert ipAddr haddr type s = (some retval, { s with arp := arp, errno := e }) := by
  unfold arpCacheInsert
  rw [get_bind, h, ofOption_some, bind_pure]
  dsimp only
  rw [modify_bind]
  split_ifs
  · exact ⟨ENOMEM, rfl⟩
  · exact ⟨s.errno, rfl⟩

/-- `arp_cache_update`. -/
def arpCacheUpdate (deltaTime : ℤ) : Act Unit := do
  let s ← get
  let arp ← ofOption (s.arp.arpCacheUpdate deltaTime)
  modify fun s => { s with arp := arp }

/-- `ip_route_find_by_iface`; `none` is -1. -/
def ipRouteFindByIface (addr : InAddr) : Act (Option IpRoute) := do
  let s ← get
  let route ← ofOption (s.rib.ipRouteFindByIface addr)
  if route.isNone then setErrno ENOENT
  return route

theorem ipRouteFindByIface_found {s : Stack} {addr : InAddr} {route : IpRoute}
    (h : s.rib.ipRouteFindByIface addr = some (some route)) :
    ipRouteFindByIface addr s = (some (some route), s) := by
  unfold ipRouteFindByIface
  rw [get_bind, h]
  rfl

/-- `ip_route_find_by_network`; `none` is -1. -/
def ipRouteFindByNetwork (addr : InAddr) : Act (Option IpRoute) := do
  let s ← get
  let route ← ofOption (s.rib.ipRouteFindByNetwork addr)
  if route.isNone then setErrno ENOENT
  return route

theorem ipRouteFindByNetwork_found {s : Stack} {addr : InAddr} {route : IpRoute}
    (h : s.rib.ipRouteFindByNetwork addr = some (some route)) :
    ipRouteFindByNetwork addr s = (some (some route), s) := by
  unfold ipRouteFindByNetwork
  rw [get_bind, h]
  rfl

/-- The test of `arp_cache_get_haddr` on the entry it finds. -/
def cachedHaddr (arp : ArpCache) (ipAddr : InAddr) : Option (Option MacAddr) := do
  match ← arp.arpCacheGetEntry ipAddr with
  | some i => return if (arp.slot i).age ≥ 0 then some (arp.slot i).haddr else none
  | none => return none

/-- `arp_cache_get_haddr`; `none` is -1. -/
def arpCacheGetHaddr (iface ipAddr : InAddr) : Act (Option MacAddr) := do
  let s ← get
  match ← ofOption (cachedHaddr s.arp ipAddr) with
  | some haddr => return some haddr
  | none =>
    match ← ipRouteFindByIface iface with
    | some route =>
      let retval ← arpRequest env route.rIfaceHandle route.rIface ipAddr
      if retval = 0 then setErrno EHOSTUNREACH
      return none
    | none => return none

/-! ### Start-up -/

/-- The end of `ip_config`: the route, and three announcements. -/
def ipAnnounce (handle : ℤ) (ipAddr netmask : InAddr) : Act ℤ := do
  let s ← get
  let rib ← ofOption (s.rib.ipRouteUpdate ⟨ipAddr &&& netmask, netmask, 0, ipAddr, handle⟩)
  modify fun s => { s with rib := rib }
  let _ ← arpGratuitous env handle ipAddr
  let _ ← arpGratuitous env handle ipAddr
  let _ ← arpGratuitous env handle ipAddr
  return 0

/-- `ip_config`. Without the address of the interface it would insert one that was never set. -/
def ipConfig (handle : ℤ) (ipAddr netmask : InAddr) : Act ℤ := do
  match ← etherHandle2addr handle with
  | none => stuck
  | some mac =>
    let _ ← arpCacheInsert ipAddr mac .static
    ipAnnounce env handle ipAddr netmask

end Xstack.Net.State
