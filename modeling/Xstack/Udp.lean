import Xstack.Ip.Header
import Xstack.Sock.Queue
import Xstack.Tree.Find

/-! # UDP

`udp.c`: the tree of bound sockets, and the input of a datagram. A socket has its address and its
shared memory. -/

namespace Xstack.Udp

open Xstack.Config Xstack.Lib.Bytes Xstack.Lib.Lex Xstack.Ip.Header Xstack.Sock.Queue
open Xstack.Tree.Macros

/-- `struct udp_hdr` without the data. -/
structure UdpHdr where
  udpSport : UInt16
  udpDport : UInt16
  udpLen : UInt16
  udpCsum : UInt16
  deriving DecidableEq

/-- `sizeof(struct udp_hdr)`. -/
def udpHdrSize : ℕ := 8

def udpMaxlen : ℕ := 65507

/-- `XSTACK_SOCK_PORT_MAX`. -/
def xstackSockPortMax : ℤ := 49151

namespace UdpHdr

def bytes (h : UdpHdr) : List UInt8 :=
  le16 h.udpSport ++ le16 h.udpDport ++ le16 h.udpLen ++ le16 h.udpCsum

def load (b : Buf) : UdpHdr := ⟨rd16 b 0, rd16 b 2, rd16 b 4, rd16 b 6⟩

@[simp] theorem length_bytes (h : UdpHdr) : h.bytes.length = 8 := rfl

theorem load_congr {n : ℕ} {b b' : Buf} (h : Agree n b b') (hn : 8 ≤ n) : load b = load b' := by
  unfold load
  rw [h.rd16 (o := 0) (by omega), h.rd16 (o := 2) (by omega), h.rd16 (o := 4) (by omega),
    h.rd16 (o := 6) (by omega)]

theorem load_put (b : Buf) (h : UdpHdr) : load (put b 0 h.bytes) = h := by
  have h0 : rd16 (put b 0 h.bytes) 0 = h.udpSport := rd16_put (o := 0) [] (h.bytes.drop 2)
  have h2 : rd16 (put b 0 h.bytes) 2 = h.udpDport :=
    rd16_put (o := 0) (h.bytes.take 2) (h.bytes.drop 4)
  have h4 : rd16 (put b 0 h.bytes) 4 = h.udpLen :=
    rd16_put (o := 0) (h.bytes.take 4) (h.bytes.drop 6)
  have h6 : rd16 (put b 0 h.bytes) 6 = h.udpCsum := rd16_put (o := 0) (h.bytes.take 6) []
  unfold load
  rw [h0, h2, h4, h6]

/-- The header determines its 8 bytes. -/
theorem load_inj {b b' : Buf} (h : load b = load b') : Agree 8 b b' := by
  obtain ⟨h0, h2, h4, h6⟩ := UdpHdr.mk.inj h
  obtain ⟨h0, h1⟩ := rd16_inj h0
  obtain ⟨h2, h3⟩ := rd16_inj h2
  obtain ⟨h4, h5⟩ := rd16_inj h4
  obtain ⟨h6, h7⟩ := rd16_inj h6
  intro i hi
  interval_cases i <;> assumption

end UdpHdr

/-- `udp_ntoh`, `udp_hton`; the checksum is left as it is. -/
def udpNtoh (h : UdpHdr) : UdpHdr :=
  { h with
    udpSport := swap16 h.udpSport
    udpDport := swap16 h.udpDport
    udpLen := swap16 h.udpLen }

@[simp] theorem udpNtoh_udpNtoh (h : UdpHdr) : udpNtoh (udpNtoh h) = h := by simp [udpNtoh]

/-- `struct xstack_sock`. -/
structure UdpSock where
  sockAddr : SockAddr
  shmem : Buf

/-- The sockets, by number, and `upd_sock_tree_head`. -/
structure UdpTable where
  sock : ℕ → UdpSock
  count : ℕ
  head : Rb ℕ

namespace UdpTable

def init : UdpTable := ⟨fun _ => ⟨⟨0, 0⟩, fun _ => 0⟩, 0, Rb.init⟩

/-- More steps than a walk down the tree can take. -/
def fuel (t : UdpTable) : ℕ := t.count + 1

/-- `udp_socket_cmp` of an address with a socket. -/
def udpSocketCmp (mc : Memcmp) (t : UdpTable) (addr : SockAddr) (i : ℕ) : ℤ :=
  mc.fn addr.bytes (t.sock i).sockAddr.bytes

/-- `find_udp_socket`. -/
def findUdpSocket (mc : Memcmp) (t : UdpTable) (addr : SockAddr) : Option (Option ℕ) :=
  t.head.rbFind t.fuel (t.udpSocketCmp mc addr)

/-- The results of `xstack_udp_bind`. -/
inductive Bind
  /-- -1 with `EINVAL`. -/
  | einval
  /-- -1 with `EADDRINUSE`. -/
  | eaddrinuse
  | bound (t : UdpTable)

/-- `xstack_udp_bind` of socket `i`; the port is an `int`. -/
def xstackUdpBind (mc : Memcmp) (t : UdpTable) (i : ℕ) : Option Bind := do
  let addr := (t.sock i).sockAddr
  if addr.port.toBitVec.toInt > xstackSockPortMax then return .einval
  match ← t.findUdpSocket mc addr with
  | some _ => return .eaddrinuse
  | none =>
    let (head, _) ← t.head.rbInsert t.fuel (t.udpSocketCmp mc addr) i
    return .bound { t with head := head }

/-- `udp_input` on the datagram at offset `o`. It does not return while the queue of the socket is
full, and copying more bytes than an IP packet can have is undefined. `xstack_sock_dgram_input`
never returns a positive value, so the reply of `udp_input` is dead code. -/
def udpInput (mc : Memcmp) (t : UdpTable) (ipHdr : IpHdr) (b : Buf) (o bsize : ℕ) :
    Option (ℤ × UdpTable × Buf) := do
  if bsize < udpHdrSize then return (-EBADMSG, t, b)
  let udp := udpNtoh (UdpHdr.load (shift b o))
  let b := put b o udp.bytes
  match ← t.findUdpSocket mc ⟨ipHdr.ipDst, udp.udpDport.toUInt32⟩ with
  | some i =>
    if bsize - udpHdrSize > ipMaxBytes then none
    let data := slice (shift b (o + udpHdrSize)) (bsize - udpHdrSize)
    let shmem ← xstackSockDgramInput (t.sock i).shmem (t.sock i).sockAddr
      ⟨ipHdr.ipSrc, udp.udpSport.toUInt32⟩ data
    return (0, { t with sock := Function.update t.sock i { t.sock i with shmem := shmem } }, b)
  | none => return (-ENOTSOCK, t, b)

end UdpTable

end Xstack.Udp
