import Xstack.Ip.Header
import Xstack.Sock.Queue
import Xstack.Tree.Find

/-! # TCP

`tcp.c`: the header, the state machine of a connection, and the tree of connections.

* `tcpFsm`: `tcp_fsm` on a control block and a segment in host order.
* `TcpMap.tcpInput`: `tcp_input` on the segment at offset `o` of a buffer, which it rewrites.

Of a control block the model has the fields that these functions read or write. Connections are
allocated one after the other and named by their number. -/

namespace Xstack.Tcp

open Xstack.Config Xstack.Lib.Bytes Xstack.Lib.Lex Xstack.Ip.Header Xstack.Sock.Queue
open Xstack.Tree.Macros

/-- `struct tcp_hdr`. -/
@[ext] structure TcpHdr where
  tcpSport : UInt16
  tcpDport : UInt16
  tcpSeqno : UInt32
  tcpAckNum : UInt32
  tcpFlags : UInt16
  tcpWinSize : UInt16
  tcpChecksum : UInt16
  tcpUrgPtr : UInt16
  deriving DecidableEq

/-- `sizeof(struct tcp_hdr)`. -/
def tcpHdrBytes : ℕ := 20

def tcpAck : UInt16 := 0x010
def tcpSyn : UInt16 := 0x002
def tcpFin : UInt16 := 0x001

namespace TcpHdr

def bytes (h : TcpHdr) : List UInt8 :=
  le16 h.tcpSport ++ le16 h.tcpDport ++ le32 h.tcpSeqno ++ le32 h.tcpAckNum ++ le16 h.tcpFlags ++
    le16 h.tcpWinSize ++ le16 h.tcpChecksum ++ le16 h.tcpUrgPtr

def load (b : Buf) : TcpHdr :=
  ⟨rd16 b 0, rd16 b 2, rd32 b 4, rd32 b 8, rd16 b 12, rd16 b 14, rd16 b 16, rd16 b 18⟩

@[simp] theorem length_bytes (h : TcpHdr) : h.bytes.length = 20 := rfl

theorem load_congr {n : ℕ} {b b' : Buf} (h : Agree n b b') (hn : 20 ≤ n) : load b = load b' := by
  unfold load
  rw [h.rd16 (o := 0) (by omega), h.rd16 (o := 2) (by omega), h.rd32 (o := 4) (by omega),
    h.rd32 (o := 8) (by omega), h.rd16 (o := 12) (by omega), h.rd16 (o := 14) (by omega),
    h.rd16 (o := 16) (by omega), h.rd16 (o := 18) (by omega)]

/-- The fields before the urgent pointer are read from 18 bytes. -/
theorem load_urgPtr {b b' : Buf} (h : Agree 18 b b') :
    load b' = { load b with tcpUrgPtr := rd16 b' 18 } := by
  unfold load
  rw [h.rd16 (o := 0) (by omega), h.rd16 (o := 2) (by omega), h.rd32 (o := 4) (by omega),
    h.rd32 (o := 8) (by omega), h.rd16 (o := 12) (by omega), h.rd16 (o := 14) (by omega),
    h.rd16 (o := 16) (by omega)]

theorem load_put (b : Buf) (h : TcpHdr) : load (put b 0 h.bytes) = h := by
  have h0 : rd16 (put b 0 h.bytes) 0 = h.tcpSport := rd16_put (o := 0) [] (h.bytes.drop 2)
  have h2 : rd16 (put b 0 h.bytes) 2 = h.tcpDport :=
    rd16_put (o := 0) (h.bytes.take 2) (h.bytes.drop 4)
  have h4 : rd32 (put b 0 h.bytes) 4 = h.tcpSeqno :=
    rd32_put (o := 0) (h.bytes.take 4) (h.bytes.drop 8)
  have h8 : rd32 (put b 0 h.bytes) 8 = h.tcpAckNum :=
    rd32_put (o := 0) (h.bytes.take 8) (h.bytes.drop 12)
  have h12 : rd16 (put b 0 h.bytes) 12 = h.tcpFlags :=
    rd16_put (o := 0) (h.bytes.take 12) (h.bytes.drop 14)
  have h14 : rd16 (put b 0 h.bytes) 14 = h.tcpWinSize :=
    rd16_put (o := 0) (h.bytes.take 14) (h.bytes.drop 16)
  have h16 : rd16 (put b 0 h.bytes) 16 = h.tcpChecksum :=
    rd16_put (o := 0) (h.bytes.take 16) (h.bytes.drop 18)
  have h18 : rd16 (put b 0 h.bytes) 18 = h.tcpUrgPtr := rd16_put (o := 0) (h.bytes.take 18) []
  unfold load
  rw [h0, h2, h4, h8, h12, h14, h16, h18]

/-- All flags of the mask are set (the masks used have one bit). -/
def has (h : TcpHdr) (flag : UInt16) : Bool := (h.tcpFlags &&& flag) != 0

end TcpHdr

/-- `TCP_DOFF`: the data offset in words. -/
def tcpDoff (h : TcpHdr) : ℕ := ((h.tcpFlags &&& 0xF000) >>> 12).toNat

theorem tcpDoff_le (h : TcpHdr) : tcpDoff h ≤ 15 := by
  have hmask : (0xF000 : UInt16).toNat = 61440 := rfl
  have hand : (h.tcpFlags &&& 0xF000).toNat ≤ 61440 := by
    rw [UInt16.toNat_and, hmask]
    exact Nat.and_le_right
  unfold tcpDoff
  rw [UInt16.toNat_shiftRight, Nat.shiftRight_eq_div_pow]
  have h12 : (12 : UInt16).toNat % 16 = 12 := rfl
  rw [h12]
  omega

/-- `tcp_hdr_size`. -/
def tcpHdrSize (h : TcpHdr) : ℤ := if tcpDoff h < 5 ∨ tcpDoff h > 15 then -EINVAL else tcpDoff h * 4

/-- `tcp_ntoh`; the checksum is left as it is. -/
def tcpNtoh (h : TcpHdr) : TcpHdr :=
  { h with
    tcpSport := swap16 h.tcpSport
    tcpDport := swap16 h.tcpDport
    tcpSeqno := swap32 h.tcpSeqno
    tcpAckNum := swap32 h.tcpAckNum
    tcpFlags := swap16 h.tcpFlags
    tcpWinSize := swap16 h.tcpWinSize
    tcpUrgPtr := swap16 h.tcpUrgPtr }

/-- `pseudo_header` of `tcp_checksum`. -/
def pseudoHeader (src dst : SockAddr) (bsize : ℕ) : Buf :=
  ofBytes (le32 (swap32 src.inet4Addr) ++ le32 (swap32 dst.inet4Addr) ++ [0, ipProtoTcp] ++
    le16 (swap16 (UInt16.ofNat bsize)))

/-- `tcp_checksum`. -/
def tcpChecksum (src dst : SockAddr) (data : Buf) (bsize : ℕ) : UInt16 :=
  (~~~ csumBytes (csumWords 0xffff (pseudoHeader src dst bsize) 6) data bsize).toUInt16

/-- `tcp_hton` to the header at `o`, with the checksum over `bsize` bytes. -/
def tcpHton (b : Buf) (o : ℕ) (src dst : SockAddr) (host : TcpHdr) (bsize : ℕ) : Buf :=
  let b := put b o { tcpNtoh host with tcpChecksum := 0 }.bytes
  put b (o + 16) (le16 (tcpChecksum src dst (shift b o) bsize))

@[simp] theorem tcpNtoh_tcpNtoh (h : TcpHdr) : tcpNtoh (tcpNtoh h) = h := by simp [tcpNtoh]

/-- The header before the checksum. -/
def hdrPre (h : TcpHdr) : List UInt8 :=
  le16 h.tcpSport ++ le16 h.tcpDport ++ le32 h.tcpSeqno ++ le32 h.tcpAckNum ++ le16 h.tcpFlags ++
    le16 h.tcpWinSize

theorem bytes_tcpChecksum (h : TcpHdr) (csum : UInt16) : { h with tcpChecksum := csum }.bytes =
    hdrPre h ++ le16 csum ++ le16 h.tcpUrgPtr := by
  unfold TcpHdr.bytes hdrPre
  simp only [List.append_assoc]

/-- The header written by `tcp_hton`. -/
theorem load_tcpHton (b : Buf) (o : ℕ) (src dst : SockAddr) (host : TcpHdr) (bsize : ℕ) :
    ∃ csum, tcpNtoh (TcpHdr.load (shift (tcpHton b o src dst host bsize) o)) =
      { host with tcpChecksum := csum } := by
  obtain ⟨csum, hc⟩ : ∃ csum, tcpHton b o src dst host bsize =
      put (put b o { tcpNtoh host with tcpChecksum := 0 }.bytes) (o + 16) (le16 csum) := ⟨_, rfl⟩
  refine ⟨csum, ?_⟩
  rw [hc, bytes_tcpChecksum, show o + 16 = o + (hdrPre (tcpNtoh host)).length from rfl,
    put_put _ _ _ _ (by rfl), ← bytes_tcpChecksum, shift_put, TcpHdr.load_put]
  show { tcpNtoh (tcpNtoh host) with tcpChecksum := csum } = _
  rw [tcpNtoh_tcpNtoh]

/-! ### Connections -/

/-- `enum tcp_state`. -/
inductive TcpState
  | closed
  | listen
  | synRcvd
  | synSent
  | established
  | finWait1
  | finWait2
  | closeWait
  | closing
  | lastAck
  | timeWait
  deriving DecidableEq

/-- `struct tcp_conn_tcb`. -/
structure TcpConn where
  localAddr : SockAddr
  remoteAddr : SockAddr
  state : TcpState
  recvNext : UInt32
  sendNext : UInt32
  deriving DecidableEq

/-- `tcp_fsm`: the result, the control block and the segment. -/
def tcpFsm (conn : TcpConn) (rs : TcpHdr) : ℤ × TcpConn × TcpHdr :=
  match conn.state with
  | .closed => (0, conn, rs)
  | .listen =>
    if rs.has tcpSyn then
      let rs := { rs with
        tcpFlags := rs.tcpFlags ||| tcpAck, tcpAckNum := rs.tcpSeqno + 1, tcpSeqno := 0 }
      let conn := { conn with
        state := .synRcvd, recvNext := rs.tcpAckNum, sendNext := rs.tcpSeqno + 1 }
      (tcpHdrSize rs, conn, rs)
    else (0, conn, rs)
  | .synRcvd =>
    if rs.has tcpAck ∧ rs.tcpSeqno = conn.recvNext ∧ rs.tcpAckNum = conn.sendNext then
      (0, { conn with state := .established }, rs)
    else
      let rs := { rs with
        tcpFlags := rs.tcpFlags &&& ~~~ tcpAck, tcpAckNum := rs.tcpSeqno
        tcpSeqno := conn.sendNext }
      let conn := { conn with recvNext := rs.tcpAckNum, sendNext := rs.tcpSeqno + 1 }
      (tcpHdrSize rs, conn, rs)
  | .established =>
    if rs.has tcpFin then
      let rs := { rs with
        tcpFlags := rs.tcpFlags ||| tcpAck, tcpAckNum := rs.tcpSeqno + 1
        tcpSeqno := conn.sendNext }
      let conn := { conn with
        state := .lastAck, recvNext := rs.tcpAckNum, sendNext := rs.tcpSeqno + 1 }
      (tcpHdrSize rs, conn, rs)
    else (0, conn, rs)
  | .finWait1 | .finWait2 | .closeWait | .closing => (0, conn, rs)
  | .lastAck => if rs.has tcpAck then (0, { conn with state := .closed }, rs) else (-EINVAL, conn, rs)
  | .timeWait | .synSent => (-EINVAL, conn, rs)

theorem flags_or_ack (f : UInt16) : (f ||| tcpAck) &&& 0xF000 = f &&& 0xF000 := by
  have h : (tcpAck).toNat &&& (0xF000 : UInt16).toNat = 0 := rfl
  apply UInt16.toNat_inj.mp
  rw [UInt16.toNat_and, UInt16.toNat_or, UInt16.toNat_and, Nat.and_or_distrib_right, h, Nat.or_zero]

theorem flags_and_ack (f : UInt16) : (f &&& ~~~ tcpAck) &&& 0xF000 = f &&& 0xF000 := by
  have h : ~~~ tcpAck &&& 0xF000 = 0xF000 := rfl
  rw [UInt16.and_assoc, h]

/-- The size of a header is in the upper bits of `tcp_flags`. -/
theorem tcpHdrSize_congr {rs rs' : TcpHdr} (h : rs'.tcpFlags &&& 0xF000 = rs.tcpFlags &&& 0xF000) :
    tcpHdrSize rs' = tcpHdrSize rs := by
  unfold tcpHdrSize tcpDoff
  rw [h]

/-- **What the state machine can do:** nothing is sent and at most the state changes, or the segment is
refused, or an answer is made of its header. -/
theorem tcpFsm_cases (conn : TcpConn) (rs : TcpHdr) :
    (∃ state, tcpFsm conn rs = (0, { conn with state := state }, rs)) ∨
    tcpFsm conn rs = (-EINVAL, conn, rs) ∨
    ∃ state flags ack seq next, tcpFsm conn rs = (tcpHdrSize rs,
      { conn with state := state, recvNext := ack, sendNext := next },
      { rs with tcpFlags := flags, tcpAckNum := ack, tcpSeqno := seq }) := by
  have hor : ∀ ack seq, tcpHdrSize { rs with
      tcpFlags := rs.tcpFlags ||| tcpAck, tcpAckNum := ack, tcpSeqno := seq } = tcpHdrSize rs :=
    fun _ _ => tcpHdrSize_congr (flags_or_ack rs.tcpFlags)
  have hand : ∀ ack seq, tcpHdrSize { rs with
      tcpFlags := rs.tcpFlags &&& ~~~ tcpAck, tcpAckNum := ack, tcpSeqno := seq } = tcpHdrSize rs :=
    fun _ _ => tcpHdrSize_congr (flags_and_ack rs.tcpFlags)
  have hsame : (∃ state, ((0 : ℤ), conn, rs) = (0, { conn with state := state }, rs)) :=
    ⟨conn.state, rfl⟩
  unfold tcpFsm
  cases conn.state with
  | closed | finWait1 | finWait2 | closeWait | closing => exact Or.inl hsame
  | synSent | timeWait => exact Or.inr (Or.inl rfl)
  | listen =>
    dsimp only
    split_ifs
    · refine Or.inr (Or.inr ⟨.synRcvd, rs.tcpFlags ||| tcpAck, rs.tcpSeqno + 1, 0, 0 + 1, ?_⟩)
      rw [hor]
    · exact Or.inl hsame
  | synRcvd =>
    dsimp only
    split_ifs
    · exact Or.inl ⟨.established, rfl⟩
    · refine Or.inr (Or.inr ⟨.synRcvd, rs.tcpFlags &&& ~~~ tcpAck, rs.tcpSeqno, conn.sendNext,
        conn.sendNext + 1, ?_⟩)
      rw [hand]
  | established =>
    dsimp only
    split_ifs
    · refine Or.inr (Or.inr ⟨.lastAck, rs.tcpFlags ||| tcpAck, rs.tcpSeqno + 1, conn.sendNext,
        conn.sendNext + 1, ?_⟩)
      rw [hor]
    · exact Or.inl hsame
  | lastAck =>
    dsimp only
    split_ifs
    · exact Or.inl ⟨.closed, rfl⟩
    · exact Or.inr (Or.inl rfl)

theorem tcpFsm_ge (conn : TcpConn) (rs : TcpHdr) : -EINVAL ≤ (tcpFsm conn rs).1 := by
  rcases tcpFsm_cases conn rs with ⟨_, h⟩ | h | ⟨_, _, _, _, _, h⟩ <;> rw [h]
  · show -EINVAL ≤ 0
    decide
  · unfold tcpHdrSize EINVAL
    dsimp only
    split_ifs
    · exact le_rfl
    · omega

/-- An answer is as long as the header of the segment. -/
theorem tcpFsm_pos {conn : TcpConn} {rs : TcpHdr} (hpos : 0 < (tcpFsm conn rs).1) :
    (tcpFsm conn rs).1 = tcpHdrSize rs := by
  rcases tcpFsm_cases conn rs with ⟨_, h⟩ | h | ⟨_, _, _, _, _, h⟩ <;> rw [h] at hpos ⊢
  · exact absurd hpos (lt_irrefl 0)
  · have hneg : ¬ (0 : ℤ) < -EINVAL := by decide
    exact absurd hpos hneg

/-- An answer is as long as the data offset of the segment says. -/
theorem tcpFsm_size {conn : TcpConn} {rs : TcpHdr} (h : 0 < (tcpFsm conn rs).1) :
    (tcpFsm conn rs).1 = 4 * tcpDoff rs ∧ 5 ≤ tcpDoff rs := by
  have hpos := tcpFsm_pos h
  rw [hpos] at h ⊢
  unfold tcpHdrSize EINVAL at h ⊢
  split_ifs at h ⊢
  · omega
  · omega

/-- The urgent pointer is neither read nor written. -/
theorem tcpFsm_urgPtr (conn : TcpConn) (rs : TcpHdr) (u : UInt16) :
    tcpFsm conn { rs with tcpUrgPtr := u } = ((tcpFsm conn rs).1, (tcpFsm conn rs).2.1,
      { (tcpFsm conn rs).2.2 with tcpUrgPtr := u }) := by
  have hhas : ∀ flag, TcpHdr.has { rs with tcpUrgPtr := u } flag = rs.has flag := fun _ => rfl
  unfold tcpFsm
  simp only [hhas]
  split <;> (try split_ifs) <;> rfl

/-- `tcp_conn_map` and the allocated control blocks. -/
structure TcpMap where
  conn : ℕ → TcpConn
  count : ℕ
  head : Rb ℕ

namespace TcpMap

def init : TcpMap := ⟨fun _ => ⟨⟨0, 0⟩, ⟨0, 0⟩, .closed, 0, 0⟩, 0, Rb.init⟩

/-- More steps than a walk down the tree can take. -/
def fuel (m : TcpMap) : ℕ := m.count + 2

/-- `tcp_conn_cmp`: the sum of two results of `memcmp`, as an `int`. -/
def tcpConnCmp (mc : Memcmp) (m : TcpMap) (loc rem : SockAddr) (i : ℕ) : ℤ :=
  wrapInt (mc.fn loc.bytes (m.conn i).localAddr.bytes + mc.fn rem.bytes (m.conn i).remoteAddr.bytes)

/-- `tcp_find_connection`. -/
def tcpFindConnection (mc : Memcmp) (m : TcpMap) (loc rem : SockAddr) : Option (Option ℕ) :=
  m.head.rbFind m.fuel (m.tcpConnCmp mc loc rem)

def set (m : TcpMap) (i : ℕ) (c : TcpConn) : TcpMap := { m with conn := Function.update m.conn i c }

/-- `tcp_new_connection`, in the state that `tcp_input` gives it. -/
def tcpNewConnection (mc : Memcmp) (m : TcpMap) (loc rem : SockAddr) : Option (ℕ × TcpMap) := do
  let i := m.count
  let m := m.set i ⟨loc, rem, .listen, 0, 0⟩
  let (head, _) ← m.head.rbInsert m.fuel (m.tcpConnCmp mc loc rem) i
  return (i, { m with head := head, count := m.count + 1 })

/-- The connection that a segment is for, or `none` if `tcp_input` refuses it. -/
def lookup (mc : Memcmp) (m : TcpMap) (loc rem : SockAddr) (tcp : TcpHdr) :
    Option (Option (ℕ × TcpMap)) := do
  match ← m.tcpFindConnection mc loc rem with
  | none =>
    if tcp.has tcpSyn then return some (← m.tcpNewConnection mc loc rem)
    else return none
  | some i => if tcp.has tcpSyn ∨ tcpHdrSize tcp < 0 then return none else return some (i, m)

theorem lookup_urgPtr (mc : Memcmp) (m : TcpMap) (loc rem : SockAddr) (tcp : TcpHdr) (u : UInt16) :
    m.lookup mc loc rem { tcp with tcpUrgPtr := u } = m.lookup mc loc rem tcp := rfl

/-- The addresses of a segment: `attr.local` and `attr.remote` of `tcp_input`. -/
def attrs (ipHdr : IpHdr) (tcp : TcpHdr) : SockAddr × SockAddr :=
  (⟨ipHdr.ipDst, tcp.tcpDport.toUInt32⟩, ⟨ipHdr.ipSrc, tcp.tcpSport.toUInt32⟩)

/-- `tcp_input` on the segment at offset `o`. -/
def tcpInput (mc : Memcmp) (m : TcpMap) (ipHdr : IpHdr) (b : Buf) (o bsize : ℕ) :
    Option (ℤ × TcpMap × Buf) := do
  if bsize < tcpHdrBytes then return (-EBADMSG, m, b)
  let tcp := tcpNtoh (TcpHdr.load (shift b o))
  let b := put b o tcp.bytes
  let (loc, rem) := attrs ipHdr tcp
  match ← m.lookup mc loc rem tcp with
  | none => return (-EINVAL, m, b)
  | some (i, m) =>
    let (retval, conn, tcp) := tcpFsm (m.conn i) tcp
    let m := m.set i conn
    let b := put b o tcp.bytes
    if retval > 0 then
      let tcp := { tcp with tcpSport := loc.port.toUInt16, tcpDport := rem.port.toUInt16 }
      return (retval, m, tcpHton b o loc rem tcp retval.toNat)
    else return (retval, m, b)

end TcpMap

end Xstack.Tcp
