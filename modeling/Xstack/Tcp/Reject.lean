import Xstack.Tcp.Conn

/-! # Segments that are refused

`tcp_input` returns a negative value for a segment it refuses. Then the connections are as before,
with one exception: for a `SYN` from nowhere the connection is created, and stepped, before
`tcp_fsm` finds that the data offset is too small. `untraced_iff`: this is the only one. -/

namespace Xstack.Tcp.Reject

open Xstack.Config Xstack.Lib.Bytes Xstack.Lib.Lex Xstack.Ip.Header Xstack.Sock.Queue
open Xstack.Tcp.Conn

variable {mc : Memcmp} {m : TcpMap} {x : Seg} {conn : TcpConn} {rs : TcpHdr}

/-- **A refused segment leaves no trace:** the connections and their control blocks are as before. -/
def Untraced (mc : Memcmp) (m : TcpMap) (x : Seg) : Prop :=
  ∀ retval m' b', input mc m x = some (retval, m', b') → retval < 0 → m' = m

/-- The segment opens a connection, and its data offset is less than the size of the header. -/
structure BadSyn (mc : Memcmp) (m : TcpMap) (x : Seg) : Prop where
  size : tcpHdrBytes ≤ x.bsize
  unknown : m.tcpFindConnection mc x.loc x.rem = some none
  syn : x.hdr.has tcpSyn = true
  doff : tcpDoff x.hdr < 5
  /-- `RB_INSERT` of the new connection. -/
  inserted : (m.tcpNewConnection mc x.loc x.rem).isSome

/-! ### The state machine -/

theorem tcpHdrSize_neg_iff : tcpHdrSize rs < 0 ↔ tcpDoff rs < 5 := by
  have hle := tcpDoff_le rs
  unfold tcpHdrSize EINVAL
  split_ifs with h <;> omega

/-- With a header size that is right, an error leaves the control block alone. -/
theorem tcpFsm_neg (hsize : 0 ≤ tcpHdrSize rs) (hneg : (tcpFsm conn rs).1 < 0) :
    (tcpFsm conn rs).2.1 = conn := by
  rcases tcpFsm_cases conn rs with ⟨_, h⟩ | h | ⟨_, _, _, _, _, h⟩ <;> rw [h] at hneg ⊢
  · exact absurd hneg (lt_irrefl 0)
  · exact absurd hneg (not_lt.mpr hsize)

/-- The answer to the first segment of a connection has the size that the segment claims. -/
theorem tcpFsm_listen (hst : conn.state = .listen) (hsyn : rs.has tcpSyn = true) :
    (tcpFsm conn rs).1 = tcpHdrSize rs := by
  simp only [tcpFsm, hst, hsyn, if_true]
  exact tcpHdrSize_congr (flags_or_ack rs.tcpFlags)

/-! ### `tcp_input` -/

/-- The segment of a known connection. -/
theorem untraced_found {i : ℕ} (hsize : 0 ≤ tcpHdrSize x.hdr) (h : (answer m x i).1 < 0) :
    (answer m x i).2.1 = m := by
  rw [(answer_fst m x i).1] at h
  rw [(answer_fst m x i).2, tcpFsm_neg hsize h]
  unfold TcpMap.set
  rw [Function.update_eq_self]

/-- The control block of a new connection. -/
theorem created_conn (m : TcpMap) (x : Seg) (head : Tree.Macros.Rb ℕ) :
    (created m x head).conn m.count = ⟨x.loc, x.rem, .listen, 0, 0⟩ :=
  Function.update_self _ _ _

/-- **A refused segment leaves no trace iff it is not a `SYN` for a new connection** whose data
offset is too small. -/
theorem untraced_iff (mc : Memcmp) (m : TcpMap) (x : Seg) : Untraced mc m x ↔ ¬ BadSyn mc m x := by
  constructor
  · intro h hbad
    obtain ⟨⟨i, m₁⟩, hnew⟩ := Option.isSome_iff_exists.mp hbad.inserted
    have hlookup : m.lookup mc x.loc x.rem x.hdr = some (some (i, m₁)) := by
      simp [TcpMap.lookup, hbad.unknown, hbad.syn, hnew]
    obtain ⟨h1, -⟩ | ⟨-, -, rfl, -, head, rfl⟩ := lookup_cases hlookup
    · rw [hbad.unknown] at h1
      cases h1
    have hinput : input mc m x = some (answer (created m x head) x m.count) := by
      have hle := hbad.size
      rw [input_eq, if_neg (by omega), hlookup]
      rfl
    have hneg : (answer (created m x head) x m.count).1 < 0 := by
      have hconn : ((created m x head).conn m.count).state = .listen := by rw [created_conn]
      rw [(answer_fst _ x m.count).1, tcpFsm_listen hconn hbad.syn]
      exact tcpHdrSize_neg_iff.mpr hbad.doff
    have heq : (answer (created m x head) x m.count).2.1 = m := h _ _ _ hinput hneg
    rw [(answer_fst _ x m.count).2] at heq
    have hcount : m.count + 1 = m.count := congrArg TcpMap.count heq
    omega
  · intro hbad retval m' b' hinput hneg
    by_cases hsmall : x.bsize < tcpHdrBytes
    · rw [input_eq, if_pos hsmall] at hinput
      cases hinput
      rfl
    obtain ⟨-, rfl⟩ | ⟨i, m₁, hlookup, hans⟩ := input_cases hinput
    · rfl
    have hret : (answer m₁ x i).1 = retval := by rw [hans]
    have hmap : (answer m₁ x i).2.1 = m' := by rw [hans]
    obtain ⟨-, rfl, -, hsize⟩ | ⟨hfind, hsyn, rfl, hnew, head, rfl⟩ := lookup_cases hlookup
    · rw [← hmap]
      exact untraced_found hsize (by omega)
    · -- the connection is new, so the segment is the one that is excluded
      have hconn : ((created m x head).conn m.count).state = .listen := by rw [created_conn]
      rw [(answer_fst _ x m.count).1, tcpFsm_listen hconn hsyn] at hret
      refine absurd ⟨by omega, hfind, hsyn, tcpHdrSize_neg_iff.mp (by omega), ?_⟩ hbad
      rw [hnew]
      rfl

/-- A `SYN` with a data offset of zero, for an empty table. -/
theorem connection_left : ¬ Untraced .ofSign TcpMap.init
    ⟨.zero, ofBytes (tcpNtoh ⟨9, 80, 7, 0, tcpSyn, 0, 0, 0⟩).bytes, 0, 20⟩ := by
  intro h
  have hret : (input .ofSign TcpMap.init
      ⟨.zero, ofBytes (tcpNtoh ⟨9, 80, 7, 0, tcpSyn, 0, 0, 0⟩).bytes, 0, 20⟩).map
        (fun r => (r.1, r.2.1.count)) = some (-22, 1) := by decide +kernel
  obtain ⟨⟨retval, m', b'⟩, hinput, heq⟩ := Option.map_eq_some_iff.mp hret
  obtain ⟨rfl, hcount⟩ := Prod.mk.inj heq
  rw [h _ _ _ hinput (by decide)] at hcount
  cases hcount

end Xstack.Tcp.Reject
