import Xstack.Net.Send

/-! # Receiving

The input chain: `ether_input`, `arp_input`, `ip_input` with reassembly, and the protocol handlers.
A handler works on the receive buffer, a `Buf`, and returns it with its reply in place.

* `ipCheck`, `ipCall`: `ip_input` before and after it has decided what to call with which size. Sizes
  are `size_t`: `sub64` wraps around.
* `ipInputWith`: `ip_input`, given `ip_fragment_input`. The reassembled header has offset zero, so
  the call from `ip_fragment_input` does not come back to it.
* `ingress`: what the ingress thread does with a received frame. -/

namespace Xstack.Net.Input

open Xstack.Config Xstack.Lib.Bytes Xstack.Lib.Program Xstack.Ether Xstack.Arp.Cache
open Xstack.Ip.Header Xstack.Ip.Fragment Xstack.Ip.Route Xstack.Tcp Xstack.Udp
open Xstack.Net.State Xstack.Net.Send

variable (env : Env)

/-! ### ICMP -/

def icmpTypeEchoReply : UInt8 := 0
def icmpTypeDestunreac : UInt8 := 3
def icmpTypeEchoRequest : UInt8 := 8
def icmpCodeHostunreac : UInt8 := 1
def icmpCodeProtounreac : UInt8 := 2
def icmpCodePortunreac : UInt8 := 3

/-- `sizeof(struct icmp)`. -/
def icmpSize : ℕ := 8

/-- `sizeof(struct icmp_destunreac)`, with its eight bytes of data. -/
def icmpDestunreacSize : ℕ := 36

/-- `icmp_input` on the message at offset `o`. The checksum of more bytes than an IP packet can have
would read outside the buffer. -/
def icmpInput (b : Buf) (o bsize : ℕ) : Option (ℤ × Buf) :=
  if bsize < icmpSize then some (-EBADMSG, b)
  else if b o = icmpTypeEchoRequest then
    if bsize > ipMaxBytes then none
    else
      let b := put b o [icmpTypeEchoReply]
      let b := put b (o + 2) (le16 0)
      let b := put b (o + 2) (le16 (ipChecksum (shift b o) bsize))
      some (bsize, b)
  else some (-ENOMSG, b)

/-- The number of payload bytes that are quoted: `min`, which works on `unsigned int`. -/
def quoted (bsize : ℕ) : ℕ := min 8 (bsize % 2 ^ 32)

/-- `icmp_generate_dest_unreachable` for the header at the start of the buffer, in host order, and
the payload at offset `o`. The size of the message is counted twice. -/
def icmpGenerateDestUnreachable (b : Buf) (code : UInt8) (o bsize : ℕ) : ℤ × Buf :=
  let msgSize := icmpDestunreacSize + quoted bsize
  let b := copy b (o + 28) (shift b o) (quoted bsize)
  let b := put b o [icmpTypeDestunreac, code, 0, 0, 0, 0, 0, 0]
  let b := put b (o + 2) (le16 (ipChecksum (shift b o) msgSize))
  let hdr := IpHdr.load b
  let b := ipHton b (o + 8) hdr
  let b := put b 0 { hdr with
    ipVhl := ipVhlDefault, ipTos := ipTosDefault, ipProto := ipProtoIcmp }.bytes
  let (size, b) := ipReplyHeader b msgSize
  (msgSize + size, b)

/-! ### IP -/

/-- `bsize - hlen` as a `size_t`. -/
def sub64 (bsize hlen : ℕ) : ℕ := (bsize + 2 ^ 64 - hlen) % 2 ^ 64

theorem sub64_of_le {bsize hlen : ℕ} (h : hlen ≤ bsize) (hb : bsize < 2 ^ 64) :
    sub64 bsize hlen = bsize - hlen := by
  unfold sub64
  omega

/-- The protocols in `_ip_proto_handlers`. -/
inductive Proto
  | icmp
  | tcp
  | udp
  deriving DecidableEq

/-- The search in `_ip_proto_handlers`. -/
def findProto (proto : UInt8) : Option Proto :=
  if proto = ipProtoIcmp then some .icmp
  else if proto = ipProtoTcp then some .tcp
  else if proto = ipProtoUdp then some .udp
  else none

/-- The tests of `ip_input` that drop a packet: version, header length, total length. -/
def ipAccepts (ip : IpHdr) (bsize : ℕ) : Prop :=
  (ip.ipVhl &&& 0x40) = 0x40 ∧ 20 ≤ ipHdrHlen ip ∧ ip.ipLen.toNat = bsize

instance (ip : IpHdr) (bsize : ℕ) : Decidable (ipAccepts ip bsize) := by
  unfold ipAccepts; infer_instance

/-- What `ip_input` calls for an accepted packet. -/
inductive Dispatch
  /-- `icmp_generate_dest_unreachable` with a code and a size. -/
  | unreachable (code : UInt8) (size : ℕ)
  /-- `ip_fragment_input`, which copies the given number of bytes. -/
  | fragment (size : ℕ)
  /-- A protocol handler with a size. -/
  | handler (proto : Proto) (size : ℕ)
  deriving DecidableEq

/-- The choice of `ip_input`; `isLocal` says whether the destination is an interface. -/
def ipDispatch (ip : IpHdr) (bsize : ℕ) (isLocal : Bool) : Dispatch :=
  if !isLocal then .unreachable icmpCodeHostunreac (sub64 bsize (ipHdrHlen ip))
  else if ipFragmentIsFrag ip then .fragment (sub64 ip.ipLen.toNat (ipHdrHlen ip))
  else
    match findProto ip.ipProto with
    | some proto => .handler proto (sub64 bsize (ipHdrHlen ip))
    | none => .unreachable icmpCodeProtounreac (sub64 bsize (ipHdrHlen ip))

/-- The handler of a protocol, on the payload at offset `o`. -/
def protoInput (proto : Proto) (ip : IpHdr) (b : Buf) (o bsize : ℕ) : Act (ℤ × Buf) := do
  let s ← get
  match proto with
  | .icmp => ofOption (icmpInput b o bsize)
  | .tcp =>
    let (retval, tcp, b) ← ofOption (s.tcp.tcpInput env.mc ip b o bsize)
    modify fun s => { s with tcp := tcp }
    return (retval, b)
  | .udp =>
    let (retval, udp, b) ← ofOption (s.udp.udpInput env.mc ip b o bsize)
    modify fun s => { s with udp := udp }
    return (retval, b)

theorem protoInput_icmp {b c : Buf} {o bsize : ℕ} {r : ℤ} (h : icmpInput b o bsize = some (r, c))
    (ip : IpHdr) (s : Stack) :
    protoInput env .icmp ip b o bsize s = (some (r, c), s) := by
  unfold protoInput
  rw [get_bind, h]
  rfl

/-- Only the connections and the sockets have changed. -/
def Handled (s t : Stack) : Prop := ∃ tcp udp, t = { s with tcp := tcp, udp := udp }

theorem Handled.refl (s : Stack) : Handled s s := ⟨s.tcp, s.udp, rfl⟩

theorem Handled.trans {s t u : Stack} (h : Handled s t) (h' : Handled t u) : Handled s u := by
  obtain ⟨_, _, rfl⟩ := h
  obtain ⟨tcp, udp, rfl⟩ := h'
  exact ⟨tcp, udp, rfl⟩

theorem protoInput_handled (proto : Proto) (ip : IpHdr) (b : Buf) (o bsize : ℕ) :
    Steps Handled (protoInput env proto ip b o bsize) := by
  unfold protoInput
  refine .bind .trans (.get .refl) fun s => ?_
  cases proto with
  | icmp => exact .ofOption .refl _
  | tcp =>
    refine .bind .trans (.ofOption .refl _) fun r => ?_
    exact .bind .trans (.modify fun s => ⟨_, s.udp, rfl⟩) fun _ => .pure .refl _
  | udp =>
    refine .bind .trans (.ofOption .refl _) fun r => ?_
    exact .bind .trans (.modify fun s => ⟨s.tcp, _, rfl⟩) fun _ => .pure .refl _

/-- The call of a handler by `ip_input`, and what it makes of the result. -/
def callHandler (proto : Proto) (ip : IpHdr) (b : Buf) (size : ℕ) : Act (ℤ × Buf) := do
  let hlen := ipHdrHlen ip
  modify fun s => { s with calls := s.calls ++ [⟨ip.ipProto, ip.ipSrc, shift b hlen, size⟩] }
  let (retval, b) ← protoInput env proto ip b hlen size
  if retval > 0 then
    let (size, b) := ipReplyHeader b retval.toNat
    return (size, b)
  else if retval = -ENOTSOCK then
    return icmpGenerateDestUnreachable b icmpCodePortunreac hlen size
  else return (retval, b)

/-- The state in which a handler runs. -/
def withCall (s : Stack) (ip : IpHdr) (b : Buf) (size : ℕ) : Stack :=
  { s with calls := s.calls ++ [⟨ip.ipProto, ip.ipSrc, shift b (ipHdrHlen ip), size⟩] }

theorem callHandler_of_none {proto : Proto} {ip : IpHdr} {b : Buf} {size : ℕ} {s t : Stack}
    (h : protoInput env proto ip b (ipHdrHlen ip) size (withCall s ip b size) = (none, t)) :
    callHandler env proto ip b size s = (none, t) := by
  unfold callHandler
  rw [modify_bind]
  exact bind_of_none h

/-- What `ip_input` makes of the result of a handler. -/
theorem callHandler_of_some {proto : Proto} {ip : IpHdr} {b c : Buf} {size : ℕ} {r : ℤ} {s t : Stack}
    (h : protoInput env proto ip b (ipHdrHlen ip) size (withCall s ip b size) = (some (r, c), t)) :
    callHandler env proto ip b size s = (some (if r > 0 then
        (((ipReplyHeader c r.toNat).1 : ℤ), (ipReplyHeader c r.toNat).2)
      else if r = -ENOTSOCK then icmpGenerateDestUnreachable c icmpCodePortunreac (ipHdrHlen ip) size
      else (r, c)), t) := by
  unfold callHandler
  rw [modify_bind]
  refine (bind_of_some h).trans ?_
  dsimp only
  split_ifs
  · rfl
  · rfl
  · rfl

/-- The sender of a frame goes into the ARP cache. -/
def learnSender (src : Option MacAddr) (addr : InAddr) : Act Unit := do
  match src with
  | some mac =>
    let _ ← arpCacheInsert addr mac .dyn
    return
  | none => return

/-- The header of the packet in `b`. `src` is the sender of the frame; without one the packet is a
reassembled one, with its header in host order. -/
def hdrOf (src : Option MacAddr) (b : Buf) : IpHdr :=
  if src.isSome then ipNtoh (IpHdr.load b) else IpHdr.load b

/-- `ip_input` up to the call it makes, if it makes one. -/
def ipCheck (src : Option MacAddr) (ip : IpHdr) (bsize : ℕ) : Act (Option Dispatch) := do
  if ipAccepts ip bsize then
    learnSender src ip.ipSrc
    let route ← ipRouteFindByIface ip.ipDst
    return some (ipDispatch ip bsize route.isSome)
  else return none

/-- The calls of `ip_input`, with the header in host order in `b`. -/
def ipCall (fragmentInput : IpHdr → Buf → Act ℤ) (ip : IpHdr) (b : Buf) :
    Option Dispatch → Act (ℤ × Buf)
  | none => return (0, b)
  | some (.unreachable code size) =>
    return icmpGenerateDestUnreachable b code (ipHdrHlen ip) size
  | some (.fragment _) => do
    let _ ← fragmentInput ip (shift b (ipHdrHlen ip))
    return (0, b)
  | some (.handler proto size) => callHandler env proto ip b size

/-- `ip_input` on the packet in `b`. -/
def ipInputWith (fragmentInput : IpHdr → Buf → Act ℤ) (src : Option MacAddr) (b : Buf)
    (bsize : ℕ) : Act (ℤ × Buf) := do
  let ip := hdrOf src b
  let call ← ipCheck src ip bsize
  ipCall env fragmentInput ip (put b 0 ip.bytes) call

/-- The memory from `ip_hdr` of a packet buffer on: the header, and right behind it the payload. -/
def packetMem (p : PacketBuf) : Buf :=
  fun i => if i < ipHdrSize then p.ipHdr.bytes.getD i 0 else p.payload (i - ipHdrSize)

/-- An `int` as a `size_t`. -/
def toSize (retval : ℤ) : ℕ := if 0 ≤ retval then retval.toNat else (2 ^ 64 + retval).toNat

/-- The completion branch of `ip_fragment_input`. -/
def completeFragments (i : Fin 4) : Act ℤ := do
  let s ← get
  let p := s.pool.buf i
  let (retval, mem) ← ipInputWith env (fun _ _ => stuck) none (packetMem p) p.ipHdr.ipLen.toNat
  let hdr := ipNtoh (IpHdr.load mem)
  let payload := shift mem ipHdrSize
  modify fun s => { s with
    pool := s.pool.set i { s.pool.buf i with ipHdr := hdr, payload := payload } }
  let _ ← ipSend env hdr.ipDst hdr.ipProto payload (toSize retval)
  let s ← get
  let pool ← ofOption (s.pool.releasePacketBuffer i)
  modify fun s => { s with pool := pool }
  return 0

/-- `ip_fragment_input`. -/
def ipFragmentInput (ipHdr : IpHdr) (rxPacket : Buf) : Act ℤ := do
  let s ← get
  let (outcome, pool) ← ofOption (ipFragmentStore env.mc s.pool ipHdr rxPacket)
  modify fun s => { s with pool := pool }
  match outcome with
  | .emsgsize => return -EMSGSIZE
  | .nobufs => return -ENOBUFS
  | .stored => return 0
  | .complete i => completeFragments env i

/-- `ip_input`. -/
def ipInput (src : Option MacAddr) (b : Buf) (bsize : ℕ) : Act (ℤ × Buf) :=
  ipInputWith env (ipFragmentInput env) src b bsize

/-! ### ARP -/

/-- The reply that `arp_input` writes over the request. -/
def arpReply (b : Buf) (arp : ArpIp) (sha : Option MacAddr) (iface : InAddr) : Buf :=
  let b := put b 6 (le16 (swap16 arpOperReply))
  let b := put b 8 (macBytes (sha.getD arp.arpSha))
  let b := put b 18 (macBytes arp.arpSha)
  let b := put b 24 (le32 (rd32 b 14))
  put b 14 (le32 (swap32 iface))

/-- `arp_input`, which reads a whole message whatever the size of the frame is. -/
def arpInput (b : Buf) (bsize : ℕ) : Act (ℤ × Buf) := do
  let arp := arpNtoh (ArpIp.load b)
  if arp.arpHtype ≠ arpHtypeEther then return (-EPROTOTYPE, b)
  else if arp.arpPtype ≠ etherProtoIpv4 then return (-EPROTOTYPE, b)
  else
    let _ ← arpCacheInsert arp.arpSpa arp.arpSha .dyn
    ipDeferHandler env
    if arp.arpOper = arpOperRequest then
      match ← ipRouteFindByIface arp.arpTpa with
      | some route =>
        let sha ← etherHandle2addr route.rIfaceHandle
        return (bsize, arpReply b arp sha route.rIface)
      | none => return (0, b)
    else return (0, b)

/-! ### Frames -/

/-- The handlers in `_ether_proto_handlers`. -/
def etherProtoInput (hdr : EtherHdr) (b : Buf) (bsize : ℕ) : Option (Act (ℤ × Buf)) :=
  if hdr.hProto = etherProtoArp then some (arpInput env b bsize)
  else if hdr.hProto = etherProtoIpv4 then some (ipInput env (some hdr.hSrc) b bsize)
  else none

/-- `ether_input`. -/
def etherInput (hdr : EtherHdr) (b : Buf) (bsize : ℕ) : Act (ℤ × Buf) := do
  match etherProtoInput env hdr b bsize with
  | some fn =>
    let (retval, b) ← fn
    if retval < 0 then
      setErrno (-retval)
      return (-1, b)
    else return (retval, b)
  | none =>
    setErrno EPROTONOSUPPORT
    return (-1, b)

/-- The handle of the only interface, as `ether_init` returns it. -/
def etherHandle : ℤ := 0

/-- `ether_output_reply`. -/
def etherOutputReply (hdr : EtherHdr) (b : Buf) (bsize : ℕ) : Act ℤ := do
  let retval ← etherSend env etherHandle hdr.hSrc hdr.hProto b bsize
  if retval < 0 then
    setErrno (-retval)
    return -1
  else return retval

/-- What the ingress thread does with a frame whose data `received` has just been copied to
`rx_buffer`; the rest of the buffer is what earlier frames left there. -/
def ingress (hdr : EtherHdr) (received : List UInt8) (rxBuffer : Buf) : Act Unit := do
  let (retval, b) ← etherInput env hdr (put rxBuffer 0 received) received.length
  if retval > 0 then
    let _ ← etherOutputReply env hdr b retval.toNat
    return
  else return

end Xstack.Net.Input
