import Xstack.Config
import Xstack.Lib.Bytes
import Xstack.Lib.Ring

/-! # Socket queues

The control block of `queue_r.c` and the shared memory of a socket: two queues of datagrams, one
for each direction, in one block of bytes

    ctrl | ingress_q | ingress_data | egress_q | egress_data

that the daemon and the application map. A slot holds a `struct xstack_dgram`: the two addresses,
the size, and the bytes.

* `queueCreate`, `queueAlloc`, `queueCommit`, `queuePeek`, `queueDiscard` and so on: `queue_r.c`. The
  index is an `int` of the program, exact as long as the array has fewer than `2 ^ 31` bytes.
* `xstackSendto`, `egressStep`: the application's end and the daemon's end of the egress queue.
* `xstackSockDgramInput`, `xstackRecvfrom`: the two ends of the ingress queue.

A function that waits for the other side has no result (`none`) while it would wait. -/

namespace Xstack.Sock.Queue

open Xstack.Config Xstack.Lib.Bytes

/-! ### `queue_r.c` -/

/-- `queue_cb_t`. -/
structure QueueCb where
  bSize : ℕ
  aLen : ℕ
  mWrite : ℕ
  mRead : ℕ
  deriving DecidableEq

def queueCreate (blockSize arraySize : ℕ) : QueueCb := ⟨blockSize, arraySize / blockSize, 0, 0⟩

/-- `queue_alloc`; `none` is -1, the queue is full. -/
def queueAlloc (cb : QueueCb) : Option ℕ :=
  if (cb.mWrite + 1) % cb.aLen = cb.mRead then none else some (cb.mWrite * cb.bSize)

def queueCommit (cb : QueueCb) : QueueCb := { cb with mWrite := (cb.mWrite + 1) % cb.aLen }

/-- `queue_peek`; `none` is 0, the queue is empty. -/
def queuePeek (cb : QueueCb) : Option ℕ :=
  if cb.mRead = cb.mWrite then none else some (cb.mRead * cb.bSize)

/-- `queue_discard`: the new control block and the number of elements skipped. -/
def queueDiscard (cb : QueueCb) : ℕ → QueueCb × ℕ
  | 0 => (cb, 0)
  | n + 1 =>
    if cb.mRead = cb.mWrite then (cb, 0)
    else
      let (cb, count) := queueDiscard { cb with mRead := (cb.mRead + 1) % cb.aLen } n
      (cb, count + 1)

def queueClearFromPushEnd (cb : QueueCb) : QueueCb := { cb with mWrite := cb.mRead }

def queueClearFromPopEnd (cb : QueueCb) : QueueCb := { cb with mRead := cb.mWrite }

def queueIsempty (cb : QueueCb) : Bool := cb.mWrite == cb.mRead

def queueIsfull (cb : QueueCb) : Bool := (cb.mWrite + 1) % cb.aLen == cb.mRead

/-! ### Datagrams in shared memory -/

/-- `struct xstack_sockaddr`; the port is an `int`. -/
structure SockAddr where
  inet4Addr : InAddr
  port : UInt32
  deriving DecidableEq

def SockAddr.bytes (a : SockAddr) : List UInt8 := le32 a.inet4Addr ++ le32 a.port

def SockAddr.load (b : Buf) (o : ℕ) : SockAddr := ⟨rd32 b o, rd32 b (o + 4)⟩

/-- `sizeof(struct xstack_dgram)`: `srcaddr`, `dstaddr` and `buf_size`. -/
def dgramHdrSize : ℕ := 24

/-- The value of a `struct xstack_dgram` in memory; `buf` is the flexible array. -/
structure XstackDgram where
  srcaddr : SockAddr
  dstaddr : SockAddr
  bufSize : ℕ
  buf : Buf

def XstackDgram.load (m : Buf) (o : ℕ) : XstackDgram :=
  ⟨SockAddr.load m o, SockAddr.load m (o + 8), (rd64 m (o + 16)).toNat, shift m (o + 24)⟩

/-- `XSTACK_INGRESS_QADDR`. -/
def ingressQaddr : ℕ := 8
/-- `XSTACK_INGRESS_DADDR`. -/
def ingressDaddr : ℕ := ingressQaddr + 32
/-- `XSTACK_EGRESS_QADDR`. -/
def egressQaddr : ℕ := ingressDaddr + xstackDatagramBufSize
/-- `XSTACK_EGRESS_DADDR`. -/
def egressDaddr : ℕ := egressQaddr + 32

def QueueCb.load (m : Buf) (o : ℕ) : QueueCb :=
  ⟨(rd64 m o).toNat, (rd64 m (o + 8)).toNat, (rd64 m (o + 16)).toNat, (rd64 m (o + 24)).toNat⟩

def QueueCb.bytes (cb : QueueCb) : List UInt8 :=
  le64 (UInt64.ofNat cb.bSize) ++ le64 (UInt64.ofNat cb.aLen) ++ le64 (UInt64.ofNat cb.mWrite) ++
    le64 (UInt64.ofNat cb.mRead)

def QueueCb.store (m : Buf) (o : ℕ) (cb : QueueCb) : Buf := put m o cb.bytes

/-- The shared memory after `xstack_init`, with the daemon's process id in `ctrl`. -/
def xstackInit (pid : UInt32) : Buf :=
  let m : Buf := put (fun _ => 0) 0 (le32 pid ++ le32 0)
  let m := QueueCb.store m ingressQaddr (queueCreate xstackDatagramSizeMax xstackDatagramBufSize)
  QueueCb.store m egressQaddr (queueCreate xstackDatagramSizeMax xstackDatagramBufSize)

/-! ### The two directions -/

/-- The stores of `xstack_sendto` to the slot at `dgram`. The size is not among them. -/
def sendtoStores (dgram : ℕ) (buffer : List UInt8) (destAddr : SockAddr) : List (ℕ × UInt8) :=
  storesAt dgram (List.replicate 8 0) ++ storesAt (dgram + 8) destAddr.bytes ++
    storesAt (dgram + dgramHdrSize) buffer

/-- The results of `xstack_sendto`. -/
inductive Sendto
  /-- -1 with `ENOBUFS`. -/
  | nobufs
  /-- Still waiting for a free slot. -/
  | waits
  /-- The length, with the new memory. -/
  | sent (m : Buf)

def xstackSendto (m : Buf) (buffer : List UInt8) (destAddr : SockAddr) : Sendto :=
  if buffer.length > xstackDatagramSizeMax then .nobufs
  else
    let cb := QueueCb.load m egressQaddr
    match queueAlloc cb with
    | none => .waits
    | some index =>
      let m := exec m (sendtoStores (egressDaddr + index) buffer destAddr)
      .sent (QueueCb.store m egressQaddr (queueCommit (QueueCb.load m egressQaddr)))

/-- One pass of `xstack_egress_thread` over the socket: what it gives to `proto_send`, if the queue
is not empty, and the new memory. -/
def egressStep (m : Buf) : Option XstackDgram × Buf :=
  let cb := QueueCb.load m egressQaddr
  if queueIsempty cb then (none, m)
  else
    match queuePeek cb with
    | none => (none, m)
    | some index =>
      (some (XstackDgram.load m (egressDaddr + index)),
        QueueCb.store m egressQaddr (queueDiscard cb 1).1)

/-- The bytes of a datagram as `xstack_sock_dgram_input` stores them, field after field. -/
def dgramBytes (srcaddr dstaddr : SockAddr) (buf : List UInt8) : List UInt8 :=
  srcaddr.bytes ++ dstaddr.bytes ++ le64 (UInt64.ofNat buf.length) ++ buf

/-- `xstack_sock_dgram_input` on a socket with the address `sockAddr`. -/
def xstackSockDgramInput (m : Buf) (sockAddr srcaddr : SockAddr) (buf : List UInt8) :
    Option Buf := do
  let index ← queueAlloc (QueueCb.load m ingressQaddr)
  let m := exec m (storesAt (ingressDaddr + index) (dgramBytes srcaddr sockAddr buf))
  return QueueCb.store m ingressQaddr (queueCommit (QueueCb.load m ingressQaddr))

/-- The arguments of `xstack_recvfrom`: `length`, `flags & XSTACK_MSG_PEEK`, and whether `address`
is given. -/
structure Recvfrom where
  length : ℕ
  peek : Bool
  address : Bool
  deriving DecidableEq

/-- What `xstack_recvfrom` gives back: the source address, if it was asked for, and the bytes. -/
structure Received where
  address : Option SockAddr
  buffer : List UInt8
  deriving DecidableEq

/-- `smin`: a minimum of two sizes, returned as an `unsigned int`. -/
def smin (a b : ℕ) : ℕ := min a b % 2 ^ 32

def xstackRecvfrom (m : Buf) (r : Recvfrom) : Option (Received × Buf) := do
  let cb := QueueCb.load m ingressQaddr
  let index ← queuePeek cb
  let dgram := XstackDgram.load m (ingressDaddr + index)
  let address := if r.address then some dgram.srcaddr else none
  let received : Received := ⟨address, slice dgram.buf (smin r.length dgram.bufSize)⟩
  if r.peek then return (received, m)
  else return (received, QueueCb.store m ingressQaddr (queueDiscard cb 1).1)

/-! ### Round trips -/

@[simp] theorem length_sockAddr (a : SockAddr) : a.bytes.length = 8 := rfl

theorem length_dgramBytes (srcaddr dstaddr : SockAddr) (buf : List UInt8) :
    (dgramBytes srcaddr dstaddr buf).length = dgramHdrSize + buf.length := by
  simp only [dgramBytes, dgramHdrSize, List.length_append, length_sockAddr, length_le64]

theorem sockAddr_load_put {b : Buf} {o : ℕ} {a : SockAddr} {pre post : List UInt8} :
    SockAddr.load (put b o (pre ++ a.bytes ++ post)) (o + pre.length) = a := by
  have h0 : rd32 (put b o (pre ++ a.bytes ++ post)) (o + pre.length) = a.inet4Addr := by
    rw [SockAddr.bytes, ← List.append_assoc, List.append_assoc (pre ++ _)]
    exact rd32_put _ _
  have h1 : rd32 (put b o (pre ++ a.bytes ++ post)) (o + pre.length + 4) = a.port := by
    rw [SockAddr.bytes, ← List.append_assoc]
    have hl : o + pre.length + 4 = o + (pre ++ le32 a.inet4Addr).length := by simp [Nat.add_assoc]
    rw [hl]
    exact rd32_put _ _
  unfold SockAddr.load
  rw [h0, h1]

/-- The address whose bytes stand at `o`. -/
theorem sockAddr_load_bytes {m : Buf} {o : ℕ} {a : SockAddr}
    (h : ∀ j < 8, m (o + j) = a.bytes.getD j 0) : SockAddr.load m o = a := by
  have hb : SockAddr.load (put (fun _ => 0) 0 ([] ++ a.bytes ++ [])) (0 + 0) = a :=
    sockAddr_load_put
  have hk : ∀ k ≤ 4, rd32 m (o + k) = rd32 (ofBytes a.bytes) k := by
    intro k hk
    rw [← rd32_shift, ← rd32_shift (ofBytes a.bytes)]
    refine rd32_congr fun i hi => ?_
    show m (o + k + (0 + i)) = ofBytes a.bytes (k + (0 + i))
    rw [Nat.add_assoc, h _ (by omega), ofBytes_of_lt (by rw [length_sockAddr]; omega)]
  have h0 : rd32 m o = rd32 (ofBytes a.bytes) 0 := hk 0 (by omega)
  unfold SockAddr.load at hb ⊢
  rw [h0, hk 4 le_rfl]
  simpa [ofBytes] using hb

theorem sockAddr_bytes_injective : Function.Injective SockAddr.bytes := by
  intro a b hab
  have hload : ∀ c : SockAddr, SockAddr.load (ofBytes c.bytes) 0 = c := fun c =>
    sockAddr_load_bytes fun j hj => by rw [Nat.zero_add, ofBytes_of_lt (by rwa [length_sockAddr])]
  rw [← hload a, ← hload b, hab]

theorem queueCb_load_congr {m m' : Buf} {o : ℕ} (h : ∀ i < 32, m (o + i) = m' (o + i)) :
    QueueCb.load m o = QueueCb.load m' o := by
  have hk : ∀ k ≤ 24, rd64 m (o + k) = rd64 m' (o + k) := by
    intro k hk
    refine rd64_congr fun i hi => ?_
    rw [Nat.add_assoc]
    exact h (k + i) (by omega)
  have h0 : rd64 m o = rd64 m' o := hk 0 (by omega)
  unfold QueueCb.load
  rw [h0, hk 8 (by omega), hk 16 (by omega), hk 24 (by omega)]

/-- A control block whose fields fit a word is read back. -/
theorem queueCb_load_store {m : Buf} {o : ℕ} {cb : QueueCb} (h1 : cb.bSize < 2 ^ 64)
    (h2 : cb.aLen < 2 ^ 64) (h3 : cb.mWrite < 2 ^ 64) (h4 : cb.mRead < 2 ^ 64) :
    QueueCb.load (QueueCb.store m o cb) o = cb := by
  have hword : ∀ (n : ℕ) (pre post : List UInt8), n < 2 ^ 64 →
      cb.bytes = pre ++ le64 (UInt64.ofNat n) ++ post →
      (rd64 (QueueCb.store m o cb) (o + pre.length)).toNat = n := by
    intro n pre post hn hb
    rw [QueueCb.store, hb, rd64_put, UInt64.toNat_ofNat', Nat.mod_eq_of_lt hn]
  have e1 := hword cb.bSize [] _ h1 (by simp only [QueueCb.bytes, List.append_assoc]; rfl)
  have e2 := hword cb.aLen (le64 (UInt64.ofNat cb.bSize))
    (le64 (UInt64.ofNat cb.mWrite) ++ le64 (UInt64.ofNat cb.mRead)) h2
    (by simp only [QueueCb.bytes, List.append_assoc])
  have e3 := hword cb.mWrite (le64 (UInt64.ofNat cb.bSize) ++ le64 (UInt64.ofNat cb.aLen)) _ h3 rfl
  have e4 := hword cb.mRead (le64 (UInt64.ofNat cb.bSize) ++ le64 (UInt64.ofNat cb.aLen) ++
    le64 (UInt64.ofNat cb.mWrite)) [] h4 (List.append_nil _).symm
  simp only [List.length_append, List.length_nil, length_le64, Nat.add_zero] at e1 e2 e3 e4
  unfold QueueCb.load
  rw [e1, e2, e3, e4]

theorem queueCb_store_outside {m : Buf} {o a : ℕ} {cb : QueueCb} (ha : a < o ∨ o + 32 ≤ a) :
    QueueCb.store m o cb a = m a := put_outside ha

end Xstack.Sock.Queue
