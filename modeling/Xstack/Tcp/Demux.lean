import Xstack.Tcp.Conn
import Xstack.Tree.Map

/-! # Which connection a segment reaches

`tcp_conn_cmp` adds two results of `memcmp`. On pairs of addresses that are ordered the same way in
both components a sum that fits in an `int` has the right sign, so as long as no two segments cross,
a segment reaches its own connection (`demux`). -/

namespace Xstack.Tcp.Demux

open Xstack.Config Xstack.Lib.Bytes Xstack.Lib.Lex Xstack.Ip.Header Xstack.Sock.Queue
open Xstack.Tree.Macros Xstack.Tree.Map Xstack.Tcp.Conn

/-- The place of an address in the order of `memcmp`. -/
def num (a : SockAddr) : ℕ := beNum a.bytes

theorem num_inj {a b : SockAddr} : num a = num b ↔ a = b :=
  ⟨fun h => sockAddr_bytes_injective (beNum_inj rfl h), fun h => h ▸ rfl⟩

/-- The local and the remote address. -/
abbrev Pair := SockAddr × SockAddr

def Seg.pair (x : Seg) : Pair := (x.loc, x.rem)

/-- The pairs are ordered one way by the local and the other way by the remote address. -/
def Crossing (p q : Pair) : Prop := num p.1 < num q.1 ∧ num q.2 < num p.2

/-- The sum of the two results of `memcmp`, as a number. -/
def cmpSum (mc : Memcmp) (p q : Pair) : ℤ := mc.fn p.1.bytes q.1.bytes + mc.fn p.2.bytes q.2.bytes

/-- The sum is in the range of `int`. -/
def SumFits (mc : Memcmp) (p q : Pair) : Prop := -intMax - 1 ≤ cmpSum mc p q ∧ cmpSum mc p q ≤ intMax

/-- `tcp_conn_cmp`. -/
def pairCmp (mc : Memcmp) (p q : Pair) : ℤ := wrapInt (cmpSum mc p q)

theorem pairCmp_eq {mc : Memcmp} {p q : Pair} (h : SumFits mc p q) : pairCmp mc p q = cmpSum mc p q :=
  wrapInt_of_range h.1 h.2

/-- The pairs of some segments. -/
def pairs (xs : List Seg) : Set Pair := { p | ∃ x ∈ xs, Seg.pair x = p }

/-- **Without crossing pairs the sum is the comparison of a linear order.** -/
theorem compares_pair (mc : Memcmp) {S : Set Pair} (hS : ∀ p ∈ S, ∀ q ∈ S, ¬ Crossing p q)
    (hfits : ∀ p ∈ S, ∀ q ∈ S, SumFits mc p q) : Compares (pairCmp mc) S := by
  have sign : ∀ a b : SockAddr, (mc.fn a.bytes b.bytes < 0 ↔ num a < num b) ∧
      (mc.fn a.bytes b.bytes = 0 ↔ num a = num b) := fun a b => ⟨mc.lt_iff rfl, mc.eq_iff rfl⟩
  -- of two pairs that do not cross, both parts compare the same way or one is equal
  have hsum : ∀ p ∈ S, ∀ q ∈ S, (pairCmp mc p q < 0 ↔ num p.1 < num q.1 ∨ num p.2 < num q.2) ∧
      (0 < pairCmp mc p q ↔ num q.1 < num p.1 ∨ num q.2 < num p.2) := by
    intro p hp q hq
    have h1 := hS p hp q hq
    have h2 := hS q hq p hp
    have s1 := sign p.1 q.1
    have s2 := sign p.2 q.2
    rw [pairCmp_eq (hfits p hp q hq)]
    unfold Crossing at h1 h2
    unfold cmpSum
    omega
  refine ⟨fun p hp q hq => ?_, fun p hp q hq => ?_, fun p hp q hq r hr => ?_⟩
  · obtain ⟨h1, h2⟩ := hsum p hp q hq
    rw [Prod.ext_iff, ← num_inj, ← num_inj]
    omega
  · rw [(hsum p hp q hq).1, (hsum q hq p hp).2]
  · rw [(hsum p hp q hq).1, (hsum q hq r hr).1, (hsum p hp r hr).1]
    have h1 := hS p hp q hq
    have h2 := hS q hq r hr
    have h3 := hS q hq p hp
    have h4 := hS r hr q hq
    unfold Crossing at h1 h2 h3 h4
    omega

/-! ### Runs -/

/-- The addresses of a control block. -/
def key (m : TcpMap) (i : ℕ) : Pair := ((m.conn i).localAddr, (m.conn i).remoteAddr)

/-- **The tree is a map** of all connections. -/
def Inv (mc : Memcmp) (S : Set Pair) (m : TcpMap) : Prop :=
  ∃ l, Holds (pairCmp mc) S (key m) m.head l ∧ l.Perm (List.range m.count)

variable {mc : Memcmp} {S : Set Pair} {m m' : TcpMap} {x : Seg} {i : ℕ}

/-- **`tcp_find_connection` finds exactly the connection with the addresses.** -/
theorem Inv.find (hc : Compares (pairCmp mc) S) (hI : Inv mc S m) (hx : Seg.pair x ∈ S) :
    ∃ r, m.tcpFindConnection mc x.loc x.rem = some r ∧
      ∀ i, r = some i ↔ i < m.count ∧ key m i = Seg.pair x := by
  obtain ⟨l, hl, hp⟩ := hI
  have hf : l.length < m.fuel := by
    rw [hp.length_eq, List.length_range]
    unfold TcpMap.fuel
    omega
  obtain ⟨r, h1, h2⟩ := hl.find hc hf hx
  refine ⟨r, h1, fun i => ?_⟩
  rw [h2, hp.mem_iff, List.mem_range]

theorem tcpFsm_addr (conn : TcpConn) (rs : TcpHdr) :
    (tcpFsm conn rs).2.1.localAddr = conn.localAddr ∧
      (tcpFsm conn rs).2.1.remoteAddr = conn.remoteAddr := by
  rcases tcpFsm_cases conn rs with ⟨_, h⟩ | h | ⟨_, _, _, _, _, h⟩ <;> rw [h]
  · exact ⟨rfl, rfl⟩
  · exact ⟨rfl, rfl⟩
  · exact ⟨rfl, rfl⟩

theorem key_set (m : TcpMap) (i : ℕ) (rs : TcpHdr) (j : ℕ) :
    key (m.set i (tcpFsm (m.conn i) rs).2.1) j = key m j := by
  obtain ⟨h1, h2⟩ := tcpFsm_addr (m.conn i) rs
  unfold key
  by_cases hj : j = i
  · subst hj
    rw [set_self, h1, h2]
  · rw [set_of_ne _ hj]

/-- The state machine does not touch the addresses. -/
theorem Inv.answer (hI : Inv mc S m) : Inv mc S (answer m x i).2.1 := by
  obtain ⟨l, hl, hp⟩ := hI
  rw [(answer_fst m x i).2]
  exact ⟨l, hl.congr fun j _ => key_set m i x.hdr j, hp⟩

/-- A new connection. -/
theorem Inv.created (hc : Compares (pairCmp mc) S) (hI : Inv mc S m) (hx : Seg.pair x ∈ S)
    (hf : m.tcpFindConnection mc x.loc x.rem = some none) {j : ℕ}
    (hn : m.tcpNewConnection mc x.loc x.rem = some (j, m')) : Inv mc S m' := by
  obtain ⟨r, h1, h2⟩ := hI.find hc hx
  obtain rfl : none = r := Option.some.inj (hf.symm.trans h1)
  obtain ⟨l, hl, hp⟩ := hI
  have hlt : ∀ i ∈ l, i < m.count := fun i hi => List.mem_range.mp (hp.mem_iff.mp hi)
  have hnew : m.count ∉ l := fun h => absurd (hlt _ h) (lt_irrefl _)
  set m₁ := m.set m.count ⟨x.loc, x.rem, .listen, 0, 0⟩ with hm₁
  have hself : key m₁ m.count = Seg.pair x := by
    rw [hm₁]
    unfold key
    rw [set_self]
    rfl
  have hold : ∀ i ∈ l, key m₁ i = key m i := by
    intro i hi
    rw [hm₁]
    unfold key
    rw [set_of_ne _ (hlt i hi).ne]
  have hne : ∀ i ∈ l, key m₁ i ≠ key m₁ m.count := by
    intro i hi h
    rw [hold i hi, hself] at h
    exact absurd ((h2 i).mpr ⟨hlt i hi, h⟩) (by simp)
  have hf : l.length < m₁.fuel := by
    rw [hp.length_eq, List.length_range]
    exact Nat.lt_succ_of_lt (Nat.lt_succ_self _)
  obtain ⟨head, l', h3, h4, h5⟩ := (hl.congr hold).insert hc hf hnew (by rw [hself]; exact hx) hne
  rw [hself] at h3
  have h3 : m₁.head.rbInsert m₁.fuel (m₁.tcpConnCmp mc x.loc x.rem) m.count = some (head, none) := h3
  have hn : some (m.count, { m₁ with head := head, count := m.count + 1 }) = some (j, m') := by
    rw [← hn]
    unfold TcpMap.tcpNewConnection
    dsimp only
    rw [← hm₁, h3]
    rfl
  obtain ⟨-, rfl⟩ := Prod.ext_iff.mp (Option.some.inj hn)
  refine ⟨l', h4, h5.trans ((hp.cons _).trans ?_)⟩
  show (m.count :: List.range m.count).Perm (List.range (m.count + 1))
  rw [List.range_succ]
  exact (List.perm_append_singleton _ _).symm

theorem input_inv (hc : Compares (pairCmp mc) S) (hI : Inv mc S m) (hx : Seg.pair x ∈ S)
    {retval : ℤ} {b' : Buf} (h : input mc m x = some (retval, m', b')) : Inv mc S m' := by
  rcases input_cases h with ⟨-, rfl⟩ | ⟨i, m₁, hl, ha⟩
  · exact hI
  · have hm' : (Conn.answer m₁ x i).2.1 = m' := by rw [ha]
    rw [← hm']
    rcases lookup_cases hl with ⟨-, rfl, -, -⟩ | ⟨hf, -, -, hn, -⟩
    · exact hI.answer
    · exact (hI.created hc hx hf hn).answer

theorem run_inv {xs : List Seg} (hc : Compares (pairCmp mc) S) (hI : Inv mc S m)
    (hxs : ∀ x ∈ xs, Seg.pair x ∈ S) (h : run mc m xs = some m') : Inv mc S m' := by
  induction xs generalizing m with
  | nil =>
    obtain rfl : m = m' := by simpa [run] using h
    exact hI
  | cons x xs ih =>
    rw [run_cons] at h
    obtain ⟨⟨retval, m₁, b⟩, h1, h2⟩ := Option.bind_eq_some_iff.mp h
    exact ih (input_inv hc hI (hxs x List.mem_cons_self) h1)
      (fun y hy => hxs y (List.mem_cons_of_mem x hy)) h2

/-- **As long as no two segments cross, a segment finds its own connection and no other,** after
every sequence of segments, which `tcp_input` takes in to the end. -/
theorem demux (mc : Memcmp) (xs : List Seg) (x : Seg)
    (hx : ∀ y ∈ x :: xs, ∀ z ∈ x :: xs, ¬ Crossing (Seg.pair y) (Seg.pair z))
    (hfits : ∀ y ∈ x :: xs, ∀ z ∈ x :: xs, SumFits mc (Seg.pair y) (Seg.pair z)) :
    ∃ m, run mc TcpMap.init xs = some m ∧ ∃ r, m.tcpFindConnection mc x.loc x.rem = some r ∧
      ∀ i, r = some i ↔
        i < m.count ∧ (m.conn i).localAddr = x.loc ∧ (m.conn i).remoteAddr = x.rem := by
  have hc : Compares (pairCmp mc) (pairs (x :: xs)) := by
    refine compares_pair mc ?_ ?_
    · rintro p ⟨y, hy, rfl⟩ q ⟨z, hz, rfl⟩
      exact hx y hy z hz
    · rintro p ⟨y, hy, rfl⟩ q ⟨z, hz, rfl⟩
      exact hfits y hy z hz
  obtain ⟨m, h, -⟩ := run_returns linked_init mc xs
  have hI : Inv mc (pairs (x :: xs)) m :=
    run_inv hc ⟨[], holds_init, .nil⟩ (fun y hy => ⟨y, List.mem_cons_of_mem x hy, rfl⟩) h
  obtain ⟨r, h1, h2⟩ := hI.find hc ⟨x, List.mem_cons_self, rfl⟩
  refine ⟨m, h, r, h1, fun i => ?_⟩
  rw [h2]
  exact and_congr_right fun _ => Prod.ext_iff

/-- A segment from port `rem` to port `loc` of the address 2. -/
def synSeg (rem loc : UInt16) : Seg :=
  ⟨{ IpHdr.zero with ipSrc := 1, ipDst := 2 },
    ofBytes (tcpNtoh ⟨rem, loc, 0, 0, 0x5000 ||| tcpSyn, 0, 0, 0⟩).bytes, 0, 20⟩

/-- Of two connections, from port 9 to 80 and from port 10 to 81, a segment finds the second one. -/
theorem demux_two_ports : ∃ m, run .ofSign TcpMap.init [synSeg 9 80, synSeg 10 81] = some m ∧
    m.count = 2 ∧ m.tcpFindConnection .ofSign (synSeg 10 81).loc (synSeg 10 81).rem = some (some 1) := by
  have hsome : (run .ofSign TcpMap.init [synSeg 9 80, synSeg 10 81]).map (fun m =>
      (m.count, (m.conn 1).localAddr, (m.conn 1).remoteAddr)) =
        some (2, (synSeg 10 81).loc, (synSeg 10 81).rem) := by decide +kernel
  obtain ⟨m, hm, heq⟩ := Option.map_eq_some_iff.mp hsome
  obtain ⟨hcount, haddr⟩ := Prod.mk.inj heq
  have hx : ∀ y ∈ [synSeg 10 81, synSeg 9 80, synSeg 10 81],
      ∀ z ∈ [synSeg 10 81, synSeg 9 80, synSeg 10 81], ¬ Crossing (Seg.pair y) (Seg.pair z) := by
    unfold Crossing
    decide +kernel
  have hfits : ∀ y ∈ [synSeg 10 81, synSeg 9 80, synSeg 10 81],
      ∀ z ∈ [synSeg 10 81, synSeg 9 80, synSeg 10 81], SumFits .ofSign (Seg.pair y) (Seg.pair z) := by
    unfold SumFits
    decide +kernel
  obtain ⟨m', hm', r, h1, h2⟩ := demux .ofSign [synSeg 9 80, synSeg 10 81] (synSeg 10 81) hx hfits
  obtain rfl : m = m' := Option.some.inj (hm.symm.trans hm')
  have hr : r = some 1 := (h2 1).mpr ⟨by rw [hcount]; exact Nat.one_lt_two, Prod.mk.inj haddr⟩
  exact ⟨m, hm, hcount, h1.trans (congrArg some hr)⟩

/-- A segment from port 8 to port 81 reaches the connection from port 9 to port 80. -/
theorem crossing_mixed : (run .ofSign TcpMap.init [synSeg 9 80]).map (fun m =>
    (m.tcpFindConnection .ofSign (synSeg 8 81).loc (synSeg 8 81).rem,
      decide ((m.conn 0).localAddr = (synSeg 8 81).loc))) = some (some (some 0), false) := by
  decide +kernel

end Xstack.Tcp.Demux
