import Xstack.Tcp

/-! # The life of a TCP connection

What `tcp_input` does to the control blocks: it steps one of them with `tcp_fsm`, perhaps after
creating it, and leaves the others alone (`tcpInput_cases`, `lookup_cases`).

From that: a connection passes through `SYN_RCVD`, `ESTABLISHED`, `LAST_ACK` and `CLOSED` in this
order, and its replies are numbered one after the other (`forward`). -/

namespace Xstack.Tcp.Conn

open Xstack.Config Xstack.Lib.Bytes Xstack.Lib.Lex Xstack.Ip.Header Xstack.Sock.Queue
open Xstack.Tree.Macros Xstack.Tree.Find

/-- The arguments of `tcp_input`; the segment is at offset `o` of the buffer. -/
structure Seg where
  ipHdr : IpHdr
  b : Buf
  o : ℕ
  bsize : ℕ

/-- The received header in host order. -/
def Seg.hdr (x : Seg) : TcpHdr := tcpNtoh (TcpHdr.load (shift x.b x.o))

/-- `tcp_input`. -/
def input (mc : Memcmp) (m : TcpMap) (x : Seg) : Option (ℤ × TcpMap × Buf) :=
  m.tcpInput mc x.ipHdr x.b x.o x.bsize

def run (mc : Memcmp) (m : TcpMap) (xs : List Seg) : Option TcpMap :=
  xs.foldlM (fun m x => (input mc m x).map fun r => r.2.1) m

/-- The addresses of the segment. -/
def Seg.loc (x : Seg) : SockAddr := (TcpMap.attrs x.ipHdr x.hdr).1
def Seg.rem (x : Seg) : SockAddr := (TcpMap.attrs x.ipHdr x.hdr).2

variable {mc : Memcmp} {m m' m₁ : TcpMap} {x : Seg} {i j : ℕ} {retval : ℤ} {b' : Buf}

/-! ### One call -/

/-- `tcp_input` once the block is known: the state machine, and the reply. -/
def answer (m : TcpMap) (x : Seg) (i : ℕ) : ℤ × TcpMap × Buf :=
  let (retval, conn, tcp) := tcpFsm (m.conn i) x.hdr
  let b := put (put x.b x.o x.hdr.bytes) x.o tcp.bytes
  if retval > 0 then
    (retval, m.set i conn, tcpHton b x.o x.loc x.rem { tcp with
      tcpSport := x.loc.port.toUInt16, tcpDport := x.rem.port.toUInt16 } retval.toNat)
  else (retval, m.set i conn, b)

theorem input_eq (mc : Memcmp) (m : TcpMap) (x : Seg) : input mc m x =
    if x.bsize < tcpHdrBytes then some (-EBADMSG, m, x.b)
    else (m.lookup mc x.loc x.rem x.hdr).map fun r =>
      match r with
      | none => (-EINVAL, m, put x.b x.o x.hdr.bytes)
      | some (i, m₁) => answer m₁ x i := by
  unfold input TcpMap.tcpInput
  split_ifs with hb
  · rfl
  · show ((m.lookup mc x.loc x.rem x.hdr).bind _) = _
    rcases m.lookup mc x.loc x.rem x.hdr with _ | _ | ⟨i, m₁⟩
    · rfl
    · rfl
    · show _ = some (answer m₁ x i)
      unfold answer
      dsimp only
      split_ifs with hr
      · exact if_pos hr
      · exact if_neg hr

/-- **What `tcp_input` can do:** refuse the segment, or give it to the state machine of a block. -/
theorem input_cases (h : input mc m x = some (retval, m', b')) :
    (retval < 0 ∧ m' = m) ∨ ∃ i m₁, m.lookup mc x.loc x.rem x.hdr = some (some (i, m₁)) ∧
      answer m₁ x i = (retval, m', b') := by
  rw [input_eq] at h
  split_ifs at h with hb
  · obtain ⟨rfl, rfl, -⟩ : -EBADMSG = retval ∧ m = m' ∧ x.b = b' := by simpa using h
    exact Or.inl ⟨by decide, rfl⟩
  · obtain ⟨r, hl, hr⟩ := Option.map_eq_some_iff.mp h
    obtain _ | ⟨i, m₁⟩ := r
    · obtain ⟨rfl, rfl, -⟩ : -EINVAL = retval ∧ m = m' ∧ _ = b' := by simpa using hr
      exact Or.inl ⟨by decide, rfl⟩
    · exact Or.inr ⟨i, m₁, hl, hr⟩

/-- The map with a new connection that listens. -/
def created (m : TcpMap) (x : Seg) (head : Rb ℕ) : TcpMap :=
  { m.set m.count ⟨x.loc, x.rem, .listen, 0, 0⟩ with head := head, count := m.count + 1 }

/-- The block is one that was found, or it is created for a `SYN`. -/
theorem lookup_cases (h : m.lookup mc x.loc x.rem x.hdr = some (some (i, m₁))) :
    (m.tcpFindConnection mc x.loc x.rem = some (some i) ∧ m₁ = m ∧ x.hdr.has tcpSyn = false ∧
      0 ≤ tcpHdrSize x.hdr) ∨
    (m.tcpFindConnection mc x.loc x.rem = some none ∧ x.hdr.has tcpSyn = true ∧ i = m.count ∧
      m.tcpNewConnection mc x.loc x.rem = some (i, m₁) ∧ ∃ head, m₁ = created m x head) := by
  unfold TcpMap.lookup at h
  rcases hf : m.tcpFindConnection mc x.loc x.rem with _ | _ | k
  · simp [hf] at h
  · refine Or.inr ⟨rfl, ?_⟩
    rw [hf] at h
    by_cases hs : x.hdr.has tcpSyn = true
    · simp only [Option.bind_eq_bind, Option.bind_some, hs, if_true] at h
      obtain ⟨⟨k, m₂⟩, hn, hk⟩ := Option.bind_eq_some_iff.mp h
      obtain ⟨rfl, rfl⟩ : k = i ∧ m₂ = m₁ := by simpa using hk
      have hn' := hn
      unfold TcpMap.tcpNewConnection at hn'
      obtain ⟨⟨head, r⟩, -, hn'⟩ := Option.bind_eq_some_iff.mp hn'
      obtain ⟨rfl, rfl⟩ := Prod.ext_iff.mp (Option.some.inj hn')
      exact ⟨hs, rfl, hn, head, rfl⟩
    · simp [hs] at h
  · refine Or.inl ?_
    rw [hf] at h
    simp only [Option.bind_eq_bind, Option.bind_some] at h
    split_ifs at h with hs
    · simp at h
    · obtain ⟨rfl, rfl⟩ : k = i ∧ m = m₁ := by simpa using h
      push Not at hs
      exact ⟨rfl, rfl, by simpa using hs.1, hs.2⟩

/-! ### The state machine -/

/-- The states between calls, in their order. -/
def stage : TcpState → Option ℕ
  | .synRcvd => some 0
  | .established => some 1
  | .lastAck => some 2
  | .closed => some 3
  | _ => none

variable {conn : TcpConn} {rs : TcpHdr}

theorem tcpFsm_closed (h : conn.state = .closed) : tcpFsm conn rs = (0, conn, rs) := by
  unfold tcpFsm
  rw [h]

/-- A `SYN` brings a new connection to `SYN_RCVD`. -/
theorem tcpFsm_listen (h : conn.state = .listen) (hs : rs.has tcpSyn = true) :
    (tcpFsm conn rs).2.1.state = .synRcvd := by
  unfold tcpFsm
  rw [h]
  simp [hs]

/-- The state machine moves forward. -/
theorem tcpFsm_stage {n : ℕ} (rs : TcpHdr) (h : stage conn.state = some n) :
    ∃ n', stage (tcpFsm conn rs).2.1.state = some n' ∧ n ≤ n' := by
  unfold tcpFsm
  cases hc : conn.state <;> simp only [hc, stage, Option.some.injEq, reduceCtorEq] at h <;>
    subst h <;> dsimp only
  · exact ⟨3, by rw [hc]; rfl, by omega⟩
  · split_ifs
    · exact ⟨1, rfl, by omega⟩
    · exact ⟨0, rfl, by omega⟩
  · split_ifs
    · exact ⟨2, rfl, by omega⟩
    · exact ⟨1, by rw [hc]; rfl, by omega⟩
  · split_ifs
    · exact ⟨3, rfl, by omega⟩
    · exact ⟨2, by rw [hc]; rfl, by omega⟩

/-- The numbers of a reply. -/
theorem tcpFsm_reply (h : 0 < (tcpFsm conn rs).1) (hl : conn.state = .listen → conn.sendNext = 0) :
    (tcpFsm conn rs).2.2.tcpSeqno = conn.sendNext ∧
      (tcpFsm conn rs).2.1.sendNext = (tcpFsm conn rs).2.2.tcpSeqno + 1 ∧
      (tcpFsm conn rs).2.1.recvNext = (tcpFsm conn rs).2.2.tcpAckNum := by
  unfold tcpFsm at h ⊢
  cases hc : conn.state <;> simp only [hc] at h ⊢
  · simp at h
  · split_ifs at h ⊢
    · exact ⟨(hl hc).symm, rfl, rfl⟩
    · simp at h
  · split_ifs at h ⊢
    · simp at h
    · exact ⟨rfl, rfl, rfl⟩
  · simp [EINVAL] at h
  · split_ifs at h ⊢
    · exact ⟨rfl, rfl, rfl⟩
    · simp at h
  · simp at h
  · simp at h
  · simp at h
  · simp at h
  · split_ifs at h
    · simp at h
    · simp [EINVAL] at h
  · simp [EINVAL] at h

/-! ### Runs -/

/-- **Between calls** every connection is in one of the four states; the other blocks are zero. -/
structure Inv (m : TcpMap) : Prop where
  staged : ∀ i < m.count, ∃ n, stage (m.conn i).state = some n
  unused : ∀ i, m.count ≤ i → (m.conn i).state = .closed

/-- A block moves forward, and a closed one not at all. -/
def Forward (c c' : TcpConn) : Prop :=
  (∃ n n', stage c.state = some n ∧ stage c'.state = some n' ∧ n ≤ n') ∧
    (c.state = .closed → c' = c)

/-- **The reply is one of block `i`,** which is not closed: its number is the next one, the control
block has the numbers of the reply, and the ports are swapped. -/
structure Replies (m m' : TcpMap) (x : Seg) (out : TcpHdr) (i : ℕ) : Prop where
  others : ∀ j, j ≠ i → m'.conn j = m.conn j
  live : i < m.count → (m.conn i).state ≠ .closed
  seqno : out.tcpSeqno = if i < m.count then (m.conn i).sendNext else 0
  sendNext : (m'.conn i).sendNext = out.tcpSeqno + 1
  recvNext : (m'.conn i).recvNext = out.tcpAckNum
  sport : out.tcpSport = x.hdr.tcpDport
  dport : out.tcpDport = x.hdr.tcpSport

theorem set_self (m : TcpMap) (i : ℕ) (c : TcpConn) : (m.set i c).conn i = c :=
  Function.update_self _ _ _

theorem set_of_ne {m : TcpMap} {i j : ℕ} (c : TcpConn) (h : j ≠ i) :
    (m.set i c).conn j = m.conn j := Function.update_of_ne h _ _

theorem Forward.refl (hI : Inv m) (hi : i < m.count) : Forward (m.conn i) (m.conn i) := by
  obtain ⟨n, hn⟩ := hI.staged i hi
  exact ⟨⟨n, n, hn, hn, le_rfl⟩, fun _ => rfl⟩

theorem answer_fst (m : TcpMap) (x : Seg) (i : ℕ) :
    (answer m x i).1 = (tcpFsm (m.conn i) x.hdr).1 ∧
      (answer m x i).2.1 = m.set i (tcpFsm (m.conn i) x.hdr).2.1 := by
  unfold answer
  dsimp only
  split_ifs
  · exact ⟨rfl, rfl⟩
  · exact ⟨rfl, rfl⟩

/-- The header in the reply. -/
theorem answer_out (h : 0 < (tcpFsm (m.conn i) x.hdr).1) :
    ∃ csum, tcpNtoh (TcpHdr.load (shift (answer m x i).2.2 x.o)) =
      { (tcpFsm (m.conn i) x.hdr).2.2 with
        tcpSport := x.hdr.tcpDport, tcpDport := x.hdr.tcpSport, tcpChecksum := csum } := by
  have hl : x.loc.port.toUInt16 = x.hdr.tcpDport := UInt16.toUInt16_toUInt32 _
  have hr : x.rem.port.toUInt16 = x.hdr.tcpSport := UInt16.toUInt16_toUInt32 _
  unfold answer
  dsimp only
  rw [if_pos h, hl, hr]
  exact load_tcpHton _ _ _ _ _ _

/-- A found block steps. -/
theorem found_spec (hI : Inv m) (h : answer m x i = (retval, m', b')) :
    Inv m' ∧ m'.count = m.count ∧ (∀ j < m.count, Forward (m.conn j) (m'.conn j)) ∧
      (0 < retval → i < m'.count ∧ Replies m m' x (tcpNtoh (TcpHdr.load (shift b' x.o))) i) := by
  obtain ⟨h1, h2⟩ := answer_fst m x i
  have hb := fun hpos => answer_out (m := m) (x := x) (i := i) hpos
  rw [h] at h1 h2 hb
  dsimp only at h1 h2 hb
  subst h1 h2
  have hfwd : ∀ j < m.count, Forward (m.conn j)
      ((m.set i (tcpFsm (m.conn i) x.hdr).2.1).conn j) := by
    intro j hj
    by_cases hji : j = i
    · subst hji
      rw [set_self]
      obtain ⟨n, hn⟩ := hI.staged j hj
      obtain ⟨n', hn', hle⟩ := tcpFsm_stage x.hdr hn
      exact ⟨⟨n, n', hn, hn', hle⟩, fun hc => by rw [tcpFsm_closed hc]⟩
    · rw [set_of_ne _ hji]
      exact Forward.refl hI hj
  refine ⟨⟨fun j hj => ?_, fun j hj => ?_⟩, rfl, hfwd, fun hpos => ?_⟩
  · obtain ⟨⟨n, n', -, hn', -⟩, -⟩ := hfwd j hj
    exact ⟨n', hn'⟩
  · by_cases hji : j = i
    · subst hji
      rw [set_self, tcpFsm_closed (hI.unused j hj)]
      exact hI.unused j hj
    · rw [set_of_ne _ hji]
      exact hI.unused j hj
  · have hnc : (m.conn i).state ≠ .closed := by
      intro hc
      rw [tcpFsm_closed hc] at hpos
      exact absurd hpos (lt_irrefl 0)
    have hi : i < m.count := by
      by_contra hn
      exact hnc (hI.unused i (by omega))
    have hl : (m.conn i).state = .listen → (m.conn i).sendNext = 0 := by
      intro hc
      obtain ⟨n, hn⟩ := hI.staged i hi
      rw [hc] at hn
      cases hn
    obtain ⟨h3, h4, h5⟩ := tcpFsm_reply hpos hl
    obtain ⟨csum, hout⟩ := hb hpos
    refine ⟨hi, ⟨fun j hj => set_of_ne _ hj, fun _ => hnc, ?_, ?_, ?_, ?_, ?_⟩⟩
    · rw [hout, if_pos hi]
      exact h3
    · rw [set_self, hout]
      exact h4
    · rw [set_self, hout]
      exact h5
    · rw [hout]
    · rw [hout]

/-- A new block goes to `SYN_RCVD`. -/
theorem created_spec {head : Rb ℕ} (hI : Inv m) (hs : x.hdr.has tcpSyn = true)
    (h : answer (created m x head) x m.count = (retval, m', b')) :
    Inv m' ∧ m'.count = m.count + 1 ∧ (∀ j < m.count, Forward (m.conn j) (m'.conn j)) ∧
      (0 < retval → m.count < m'.count ∧
        Replies m m' x (tcpNtoh (TcpHdr.load (shift b' x.o))) m.count) := by
  obtain ⟨h1, h2⟩ := answer_fst (created m x head) x m.count
  have hb := fun hpos => answer_out (m := created m x head) (x := x) (i := m.count) hpos
  have hnew : (created m x head).conn m.count = ⟨x.loc, x.rem, .listen, 0, 0⟩ :=
    Function.update_self _ _ _
  rw [h, hnew] at h1 h2
  rw [h, hnew] at hb
  dsimp only at h1 h2 hb
  subst h1 h2
  have hold : ∀ j, j ≠ m.count → ((created m x head).set m.count
      (tcpFsm ⟨x.loc, x.rem, .listen, 0, 0⟩ x.hdr).2.1).conn j = m.conn j := by
    intro j hj
    rw [set_of_ne _ hj]
    exact set_of_ne _ hj
  refine ⟨⟨fun j hj => ?_, fun j hj => ?_⟩, rfl, fun j hj => ?_, fun hpos => ?_⟩
  · by_cases hjc : j = m.count
    · subst hjc
      rw [set_self, tcpFsm_listen rfl hs]
      exact ⟨0, rfl⟩
    · rw [hold j hjc]
      have hj : j < m.count + 1 := hj
      exact hI.staged j (by omega)
  · have hj : m.count + 1 ≤ j := hj
    rw [hold j (by omega)]
    exact hI.unused j (by omega)
  · rw [hold j (by omega)]
    exact Forward.refl hI hj
  · obtain ⟨h3, h4, h5⟩ := tcpFsm_reply hpos fun _ => rfl
    obtain ⟨csum, hout⟩ := hb hpos
    refine ⟨Nat.lt_succ_self _, ⟨hold, fun hlt => absurd hlt (lt_irrefl _), ?_, ?_, ?_, ?_, ?_⟩⟩
    · rw [hout, if_neg (lt_irrefl _)]
      exact h3
    · rw [set_self, hout]
      exact h4
    · rw [set_self, hout]
      exact h5
    · rw [hout]
    · rw [hout]

theorem input_spec (hI : Inv m) (h : input mc m x = some (retval, m', b')) :
    Inv m' ∧ m.count ≤ m'.count ∧ (∀ i < m.count, Forward (m.conn i) (m'.conn i)) ∧
      (0 < retval → ∃ i < m'.count, Replies m m' x (tcpNtoh (TcpHdr.load (shift b' x.o))) i) := by
  rcases input_cases h with ⟨hneg, rfl⟩ | ⟨i, m₁, hl, ha⟩
  · exact ⟨hI, le_rfl, fun i hi => Forward.refl hI hi, fun hpos => by omega⟩
  · rcases lookup_cases hl with ⟨-, rfl, -, -⟩ | ⟨-, hs, rfl, -, head, rfl⟩
    · obtain ⟨h1, h2, h3, h4⟩ := found_spec hI ha
      exact ⟨h1, h2.ge, h3, fun hpos => ⟨i, h4 hpos⟩⟩
    · obtain ⟨h1, h2, h3, h4⟩ := created_spec hI hs ha
      exact ⟨h1, by omega, h3, fun hpos => ⟨_, h4 hpos⟩⟩

/-! ### Every run returns -/

/-- The tree links connections that there are. -/
def Linked (m : TcpMap) : Prop := ∃ l, Valid m.head l ∧ ∀ i ∈ l, i < m.count

theorem linked_init : Linked TcpMap.init := ⟨[], valid_init, by simp⟩

theorem length_lt_fuel {l : List ℕ} (hv : Valid m.head l) (hl : ∀ i ∈ l, i < m.count) :
    l.length < m.fuel := by
  have hle : l.length ≤ (List.range m.count).length :=
    (hv.nodup.subperm fun i hi => List.mem_range.mpr (hl i hi)).length_le
  rw [List.length_range] at hle
  unfold TcpMap.fuel
  omega

theorem Linked.find (hL : Linked m) (mc : Memcmp) (loc rem : SockAddr) :
    ∃ r, m.tcpFindConnection mc loc rem = some r := by
  obtain ⟨l, hv, hl⟩ := hL
  obtain ⟨r, hr, -⟩ := valid_find (m.tcpConnCmp mc loc rem) hv (length_lt_fuel hv hl)
  exact ⟨r, hr⟩

theorem Linked.created (hL : Linked m) (mc : Memcmp) (x : Seg) :
    ∃ head, m.tcpNewConnection mc x.loc x.rem = some (m.count, created m x head) ∧
      Linked (created m x head) := by
  obtain ⟨l, hv, hl⟩ := hL
  have hnew : m.count ∉ l := fun h => lt_irrefl _ (hl _ h)
  obtain ⟨head, y, hins, hhead⟩ := valid_insert_any
    ((m.set m.count ⟨x.loc, x.rem, .listen, 0, 0⟩).tcpConnCmp mc x.loc x.rem) hv
    (length_lt_fuel hv hl) hnew
  refine ⟨head, ?_, ?_⟩
  · show ((m.head.rbInsert m.fuel ((m.set m.count ⟨x.loc, x.rem, .listen, 0, 0⟩).tcpConnCmp mc
      x.loc x.rem) m.count).bind _) = _
    rw [hins]
    rfl
  · have hlt : ∀ i ∈ l, i < m.count + 1 := fun i hi => Nat.lt_succ_of_lt (hl i hi)
    rcases hhead with rfl | ⟨l', hv', hp⟩
    · exact ⟨l, hv, hlt⟩
    · refine ⟨l', hv', fun i hi => ?_⟩
      rcases List.mem_cons.mp (hp.mem_iff.mp hi) with rfl | hi
      · exact Nat.lt_succ_self _
      · exact hlt i hi

theorem Linked.answer (hL : Linked m) (x : Seg) (i : ℕ) : Linked (answer m x i).2.1 := by
  rw [(answer_fst m x i).2]
  exact hL

/-- **`tcp_input` returns,** whatever `memcmp` does. -/
theorem input_returns (hL : Linked m) (mc : Memcmp) (x : Seg) :
    ∃ retval m' b', input mc m x = some (retval, m', b') ∧ Linked m' := by
  rw [input_eq]
  split_ifs with hb
  · exact ⟨_, _, _, rfl, hL⟩
  obtain ⟨r, hr⟩ := hL.find mc x.loc x.rem
  unfold TcpMap.lookup
  rw [hr]
  cases r with
  | none =>
    by_cases hs : x.hdr.has tcpSyn = true
    · obtain ⟨head, hn, hL'⟩ := hL.created mc x
      simp only [Option.bind_eq_bind, Option.bind_some, hs, if_true, hn]
      exact ⟨_, _, _, rfl, hL'.answer x m.count⟩
    · simp only [Option.bind_eq_bind, Option.bind_some, if_neg hs]
      exact ⟨_, _, _, rfl, hL⟩
  | some i =>
    by_cases hs : x.hdr.has tcpSyn = true ∨ tcpHdrSize x.hdr < 0
    · simp only [Option.bind_eq_bind, Option.bind_some, if_pos hs]
      exact ⟨_, _, _, rfl, hL⟩
    · simp only [Option.bind_eq_bind, Option.bind_some, if_neg hs]
      exact ⟨_, _, _, rfl, hL.answer x i⟩

theorem run_cons (mc : Memcmp) (m : TcpMap) (x : Seg) (xs : List Seg) : run mc m (x :: xs) =
    (input mc m x).bind fun r => run mc r.2.1 xs := by
  unfold run
  rw [List.foldlM_cons]
  cases input mc m x <;> rfl

theorem run_returns (hL : Linked m) (mc : Memcmp) (xs : List Seg) :
    ∃ m', run mc m xs = some m' ∧ Linked m' := by
  induction xs generalizing m with
  | nil => exact ⟨m, rfl, hL⟩
  | cons x xs ih =>
    obtain ⟨retval, m₁, b', hin, hL₁⟩ := input_returns hL mc x
    obtain ⟨m', hrun, hL'⟩ := ih hL₁
    refine ⟨m', ?_, hL'⟩
    rw [run_cons, hin]
    exact hrun

/-! ### What holds in every run -/

theorem inv_init : Inv TcpMap.init :=
  ⟨fun i hi => absurd hi (Nat.not_lt_zero i), fun _ _ => rfl⟩

theorem run_inv {xs : List Seg} (hI : Inv m) (h : run mc m xs = some m') : Inv m' := by
  induction xs generalizing m with
  | nil =>
    obtain rfl : m = m' := by simpa [run] using h
    exact hI
  | cons x xs ih =>
    rw [run_cons] at h
    obtain ⟨⟨retval, m₁, b⟩, h1, h2⟩ := Option.bind_eq_some_iff.mp h
    exact ih (input_spec hI h1).1 h2

/-- **TCP connections only move forward, and number their replies one after the other:** after any
sequence of segments every connection is in one of the four states, and whatever segment comes next,
all connections move forward, and a reply is one of a connection that is not closed. -/
theorem forward (mc : Memcmp) (xs : List Seg) (m : TcpMap) (h : run mc TcpMap.init xs = some m) :
    (∀ i < m.count, ∃ n, stage (m.conn i).state = some n) ∧
    ∀ x retval m' b', input mc m x = some (retval, m', b') →
      m.count ≤ m'.count ∧ (∀ i < m.count, Forward (m.conn i) (m'.conn i)) ∧
      (0 < retval → ∃ i < m'.count, Replies m m' x (tcpNtoh (TcpHdr.load (shift b' x.o))) i) := by
  have hI := run_inv inv_init h
  exact ⟨hI.staged, fun x retval m' b' hin => (input_spec hI hin).2⟩

/-- A `SYN` with sequence number 7, and the segment that completes the handshake. -/
def synAck : List Seg :=
  [⟨.zero, ofBytes (tcpNtoh ⟨1, 2, 7, 0, 0x5000 ||| tcpSyn, 0, 0, 0⟩).bytes, 0, 20⟩,
    ⟨.zero, ofBytes (tcpNtoh ⟨1, 2, 8, 1, 0x5000 ||| tcpAck, 0, 0, 0⟩).bytes, 0, 20⟩]

/-- A `FIN` with sequence number 8. -/
def finSeg : Seg :=
  ⟨.zero, ofBytes (tcpNtoh ⟨1, 2, 8, 1, 0x5000 ||| tcpFin, 0, 0, 0⟩).bytes, 0, 20⟩

/-- After the handshake there is one connection, and the `FIN` is answered by it. -/
theorem forward_fin : ∃ m retval m' b', run .ofSign TcpMap.init synAck = some m ∧ m.count = 1 ∧
    (∃ n, stage (m.conn 0).state = some n) ∧ input .ofSign m finSeg = some (retval, m', b') ∧
      0 < retval ∧ ∃ i < m'.count, Replies m m' finSeg (tcpNtoh (TcpHdr.load (shift b' 0))) i := by
  have hsome : ((run .ofSign TcpMap.init synAck).bind fun m => (input .ofSign m finSeg).map fun r =>
      (m.count, r.1)) = some (1, 20) := by decide +kernel
  obtain ⟨m, hm, hin⟩ := Option.bind_eq_some_iff.mp hsome
  obtain ⟨⟨retval, m', b'⟩, hin, heq⟩ := Option.map_eq_some_iff.mp hin
  obtain ⟨hcount, rfl⟩ := Prod.mk.inj heq
  have hpos : (0 : ℤ) < 20 := by decide
  obtain ⟨h1, h2⟩ := forward .ofSign synAck m hm
  exact ⟨m, 20, m', b', hm, hcount, h1 0 (by rw [hcount]; exact Nat.zero_lt_one), hin, hpos,
    (h2 finSeg 20 m' b' hin).2.2 hpos⟩

end Xstack.Tcp.Conn
