import Xstack.Net.State

/-! # Sending

`ip_send` with its fragmentation, `xstack_udp_send`, and the queue of deferred packets
(`ip_defer.c`). A size is a `size_t`; one that comes from a negative `int` has no packet on the stack
of the daemon. -/

namespace Xstack.Net.Send

open Xstack.Config Xstack.Lib.Bytes Xstack.Lib.Program Xstack.Ether Xstack.Ip.Header
open Xstack.Ip.Route Xstack.Sock.Queue Xstack.Udp Xstack.Net.State

variable (env : Env)

/-! ### Deferred packets -/

/-- The next index of the ring. -/
def nextSlot (i : Fin xstackIpDeferMax) : Fin xstackIpDeferMax := i + 1

theorem val_nextSlot (i : Fin xstackIpDeferMax) : (nextSlot i).val = (i.val + 1) % 20 := rfl

/-- `ip_defer_push`. The size of the packet is not stored. -/
def DeferQueue.ipDeferPush (q : DeferQueue) (dst : InAddr) (proto : UInt8) (buf : Buf)
    (bsize : ℕ) : ℤ × DeferQueue :=
  if q.deferInhibit then (-EALREADY, q)
  else if nextSlot q.qWr = q.qRd then (-ENOBUFS, q)
  else if bsize > etherAlen then (-EMSGSIZE, q)
  else
    let old := q.slot q.qWr
    let slot : IpDefer :=
      { old with tries := 0, dst := dst, proto := proto, buf := copy old.buf 0 buf bsize }
    (0, { q with slot := Function.update q.slot q.qWr slot, qWr := nextSlot q.qWr })

def ipDeferPush (dst : InAddr) (proto : UInt8) (buf : Buf) (bsize : ℕ) : Act ℤ := do
  let s ← get
  let (retval, q) := DeferQueue.ipDeferPush s.defer dst proto buf bsize
  modify fun s => { s with defer := q }
  return retval

/-! ### Fragments -/

/-- `ip_off_round`. -/
def ipOffRound (plen : ℕ) : ℕ := (plen + 7) / 8 * 8

/-- `next_fragment_size`. -/
def nextFragmentSize (bytes hlen mtu : ℕ) : ℕ :=
  if bytes < ipOffRound (mtu - hlen - 8) then bytes else ipOffRound (mtu - hlen - 8)

/-- The header of the fragment with `plen` bytes at `offset`, when `bytes` are left after it. -/
def fragmentHdr (ipHdr : IpHdr) (plen bytes offset : ℕ) : IpHdr :=
  { ipHdr with
    ipLen := UInt16.ofNat (ipHdrHlen ipHdr + plen)
    ipFoff := (if bytes ≠ 0 then ipFlagsMf else 0) ||| UInt16.ofNat (offset >>> 3) }

/-- The packet buffer as it is given to `ether_send` for that fragment. -/
def fragmentPacket (b : Buf) (ipHdr : IpHdr) (plen bytes offset : ℕ) : Buf :=
  let hlen := ipHdrHlen ipHdr
  let b := ipHton b 0 (fragmentHdr ipHdr plen bytes offset)
  copy b hlen (shift b (hlen + offset)) plen

/-- The loop of `ip_send_fragments`; `fuel` is more than the number of fragments. -/
def sendLoop (handle : ℤ) (dstMac : MacAddr) (ipHdr : IpHdr) :
    ℕ → Buf → ℕ → ℕ → ℤ → Act ℤ
  | 0, _, _, _, _ => stuck
  | fuel + 1, b, bytes, offset, retval => do
    let plen := nextFragmentSize bytes (ipHdrHlen ipHdr) etherDataLen
    let b := fragmentPacket b ipHdr plen (bytes - plen) offset
    let eret ← etherSend env handle dstMac etherProtoIpv4 b
      (fragmentHdr ipHdr plen (bytes - plen) offset).ipLen.toNat
    if eret < 0 then return eret
    else if bytes - plen > 0 then
      sendLoop handle dstMac ipHdr fuel b (bytes - plen) (offset + plen) (retval + eret)
    else return retval + eret

/-- `ip_send_fragments` of the packet of `bsize` bytes in `b`, in network order. -/
def ipSendFragments (handle : ℤ) (dstMac : MacAddr) (b : Buf) (bsize : ℕ) : Act ℤ :=
  let ipHdr := ipNtoh (IpHdr.load b)
  let bytes := bsize - ipHdrHlen ipHdr
  sendLoop env handle dstMac ipHdr (bytes + 1) b bytes 0 0

/-! ### `ip_send` -/

/-- The header that `ip_send` fills in, in host order. -/
def sendHdr (route : IpRoute) (dst : InAddr) (proto : UInt8) (id : UInt32) (packetSize : ℕ) :
    IpHdr where
  ipVhl := ipVhlDefault
  ipTos := ipTosDefault
  ipLen := UInt16.ofNat packetSize
  ipId := id.toUInt16
  ipFoff := ipToffDefault
  ipTtl := ipTtlDefault
  ipProto := proto
  ipCsum := 0
  ipSrc := route.rIface
  ipDst := dst

/-- The packet that `ip_send` builds, in network order. -/
def sendPacket (hdr : IpHdr) (buf : Buf) (bsize : ℕ) : Buf :=
  ipHton (copy (fun _ => 0) ipHdrSize buf bsize) 0 hdr

/-- `ip_send` once the address of the receiver is known. -/
def ipSendTo (route : IpRoute) (dstMac : MacAddr) (dst : InAddr) (proto : UInt8) (buf : Buf)
    (bsize : ℕ) : Act ℤ := do
  if bsize ≥ 2 ^ 31 then stuck
  else
    let s ← get
    let packetSize := ipHdrSize + bsize
    let packet := sendPacket (sendHdr route dst proto s.ipGlobalId packetSize) buf bsize
    modify fun s => { s with ipGlobalId := s.ipGlobalId + 1 }
    if bsize ≤ etherDataLen then
      etherSend env route.rIfaceHandle dstMac etherProtoIpv4 packet packetSize
    else
      let retval ← ipSendFragments env route.rIfaceHandle dstMac packet packetSize
      if retval < 0 then
        setErrno (-retval)
        return -1
      else return retval

/-- `ip_send` when the address of the receiver is not known: 0 for a deferred packet, and also when
`arp_cache_get_haddr` failed with another error than `EHOSTUNREACH`. -/
def ipSendLater (dst : InAddr) (proto : UInt8) (buf : Buf) (bsize : ℕ) : Act ℤ := do
  let s ← get
  if s.errno = EHOSTUNREACH then
    let retval ← ipDeferPush dst proto buf bsize
    if retval = 0 ∨ retval = -EALREADY then return 0
    else
      setErrno (-retval)
      return -1
  else return 0

/-- `ip_send`. -/
def ipSend (dst : InAddr) (proto : UInt8) (buf : Buf) (bsize : ℕ) : Act ℤ := do
  match ← ipRouteFindByNetwork dst with
  | none =>
    setErrno EHOSTUNREACH
    return -1
  | some route =>
    match ← arpCacheGetHaddr env route.rIface dst with
    | none => ipSendLater dst proto buf bsize
    | some dstMac => ipSendTo env route dstMac dst proto buf bsize

section

variable {env : Env} {s : Stack} {route : IpRoute} {dst : InAddr} {dstMac : MacAddr} {proto : UInt8}
  {buf : Buf} {bsize : ℕ}

/-- `ip_send` when the route and the address of the receiver are known. -/
theorem ipSend_known (hroute : s.rib.ipRouteFindByNetwork dst = some (some route))
    (hmac : cachedHaddr s.arp dst = some (some dstMac)) : ipSend env dst proto buf bsize s =
      ipSendTo env route dstMac dst proto buf bsize s := by
  have h1 := ipRouteFindByNetwork_found hroute
  have h2 : arpCacheGetHaddr env route.rIface dst s = (some (some dstMac), s) := by
    unfold arpCacheGetHaddr
    rw [get_bind, hmac]
    rfl
  unfold ipSend
  rw [bind_of_some h1]
  dsimp only
  rw [bind_of_some h2]

/-- `ip_send` of a packet that fits a frame, when everything is known. -/
theorem ipSend_resolved (hroute : s.rib.ipRouteFindByNetwork dst = some (some route))
    (hmac : cachedHaddr s.arp dst = some (some dstMac)) (hb : bsize ≤ etherDataLen) :
    ipSend env dst proto buf bsize s =
      etherSend env route.rIfaceHandle dstMac etherProtoIpv4
        (sendPacket (sendHdr route dst proto s.ipGlobalId (ipHdrSize + bsize)) buf bsize)
        (ipHdrSize + bsize) { s with ipGlobalId := s.ipGlobalId + 1 } := by
  have hb' : ¬ bsize ≥ 2 ^ 31 := by unfold etherDataLen at hb; omega
  rw [ipSend_known hroute hmac]
  unfold ipSendTo
  rw [if_neg hb', get_bind, modify_bind, if_pos hb]

end

/-! ### `xstack_udp_send` -/

/-- The datagram that `xstack_udp_send` builds, with its header in network order. -/
def udpBuf (udp : UdpHdr) (buf : Buf) (bsize : ℕ) : Buf :=
  copy (ofBytes (udpNtoh udp).bytes) udpHdrSize buf bsize

/-- `xstack_udp_send` of a socket with the address `sockAddr`. -/
def xstackUdpSend (sockAddr : SockAddr) (dgram : XstackDgram) : Act ℤ := do
  if ¬ (dgram.bufSize > 0 ∧ dgram.bufSize < udpMaxlen) then return -EINVAL
  else
    let udp : UdpHdr := ⟨sockAddr.port.toUInt16, dgram.dstaddr.port.toUInt16,
      UInt16.ofNat (udpHdrSize + dgram.bufSize), 0⟩
    ipSend env dgram.dstaddr.inet4Addr ipProtoUdp (udpBuf udp dgram.buf dgram.bufSize)
      (udpHdrSize + dgram.bufSize)

/-! ### `ip_defer_handler` -/

/-- The queue with `tries` of the first packet counted up. -/
def DeferQueue.countTry (q : DeferQueue) : DeferQueue :=
  let ipd := q.slot q.qRd
  { q with slot := Function.update q.slot q.qRd ({ ipd with tries := ipd.tries + 1 }) }

/-- `ip_defer_drop` of a queue that is not empty. -/
def DeferQueue.drop (q : DeferQueue) : DeferQueue := { q with qRd := nextSlot q.qRd }

def countTry : Act Unit := modify fun s => { s with defer := DeferQueue.countTry s.defer }

def ipDeferDrop : Act Unit :=
  modify fun s => { s with defer := DeferQueue.drop s.defer, deferLog := s.deferLog ++ [.drop] }

/-- The call of `ip_send` for the first packet. -/
def sendDeferred (ipd : IpDefer) : Act ℤ := do
  modify fun s => { s with deferLog := s.deferLog ++ [.send ipd] }
  ipSend env ipd.dst ipd.proto ipd.buf ipd.bufSize

/-- The loop of `ip_defer_handler`; every turn takes a packet off the queue or returns. The line
that would clear `defer_inhibit` is never reached. -/
def deferLoop : ℕ → Act Unit
  | 0 => stuck
  | fuel + 1 => do
    let s ← get
    if s.defer.qRd = s.defer.qWr then return
    else
      let ipd := s.defer.slot s.defer.qRd
      countTry
      if ipd.tries > 3 then
        ipDeferDrop
        deferLoop fuel
      else
        let retval ← sendDeferred env ipd
        let s ← get
        if retval = -1 ∧ s.errno = EHOSTUNREACH then countTry
        else
          ipDeferDrop
          deferLoop fuel

/-- `ip_defer_handler`. -/
def ipDeferHandler : Act Unit := do
  modify fun s => { s with defer := { s.defer with deferInhibit := true } }
  deferLoop env (xstackIpDeferMax + 1)

end Xstack.Net.Send
