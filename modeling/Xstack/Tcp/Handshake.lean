import Xstack.Tcp.Conn

/-! # The three-way handshake

A connection in `SYN_RCVD` takes the numbers it expects from the last segment it refused. So the
segment that establishes it is the genuine one iff none was refused before (`genuine_iff`; the count
of refused segments is taken modulo `2 ^ 32`).

`tcp_input` hands over only some of the segments: `taken` are those that `tcp_fsm` is called with for
one block, and `run_conn` says that they alone decide about it. -/

namespace Xstack.Tcp.Handshake

open Xstack.Config Xstack.Lib.Bytes Xstack.Lib.Lex Xstack.Ip.Header Xstack.Sock.Queue
open Xstack.Tree.Macros Xstack.Tcp.Conn

/-- The control block that a `SYN` has created. -/
def afterSyn (loc rem : SockAddr) (syn : TcpHdr) : TcpConn := (tcpFsm ⟨loc, rem, .listen, 0, 0⟩ syn).2.1

/-- The control block after some segments that `tcp_fsm` gets. -/
def deliver (conn : TcpConn) (segs : List TcpHdr) : TcpConn :=
  segs.foldl (fun conn rs => (tcpFsm conn rs).2.1) conn

/-- **`tcp_input` hands the segment to `tcp_fsm` for block `i`,** which there is already. -/
def HandedOn (mc : Memcmp) (m : TcpMap) (i : ℕ) (x : Seg) : Prop :=
  tcpHdrBytes ≤ x.bsize ∧ m.tcpFindConnection mc x.loc x.rem = some (some i) ∧
    x.hdr.has tcpSyn = false ∧ 0 ≤ tcpHdrSize x.hdr

instance (mc : Memcmp) (m : TcpMap) (i : ℕ) (x : Seg) : Decidable (HandedOn mc m i x) :=
  inferInstanceAs (Decidable (_ ∧ _ ∧ _ ∧ _))

/-- The headers that `tcp_fsm` gets for block `i` in a run. -/
def taken (mc : Memcmp) (i : ℕ) : TcpMap → List Seg → List TcpHdr
  | _, [] => []
  | m, x :: xs => (if HandedOn mc m i x then [x.hdr] else []) ++
      ((input mc m x).map fun r => taken mc i r.2.1 xs).getD []

/-- **The segment that establishes connection `i` is the genuine one,** in a run from `m` on. -/
def Genuine (mc : Memcmp) (m : TcpMap) (i : ℕ) (s : UInt32) (xs : List Seg) : Prop :=
  ∀ pre x post m₁ m₂, xs = pre ++ x :: post → run mc m pre = some m₁ →
    run mc m (pre ++ [x]) = some m₂ → (m₁.conn i).state = .synRcvd →
    (m₂.conn i).state = .established →
      x.hdr.has tcpAck = true ∧ x.hdr.tcpSeqno = s + 1 ∧ x.hdr.tcpAckNum = 1

/-- The sequence number expected after the refused segments `pre`: that of the last of them. -/
def expected (s : UInt32) (pre : List TcpHdr) : UInt32 :=
  (pre.getLast?.map TcpHdr.tcpSeqno).getD (s + 1)

/-- The segment completes the handshake after the refused segments `pre`. -/
def Completes (s : UInt32) (pre : List TcpHdr) (rs : TcpHdr) : Prop :=
  rs.has tcpAck = true ∧ rs.tcpSeqno = expected s pre ∧ rs.tcpAckNum = 1 + UInt32.ofNat pre.length

/-- None of the segments completes the handshake. -/
def Refused (s : UInt32) (segs : List TcpHdr) : Prop :=
  ∀ pre rs post, segs = pre ++ rs :: post → ¬ Completes s pre rs

/-- **The condition on the segments that are taken:** whenever one completes the handshake after
refused ones, there are none of these, or a multiple of `2 ^ 32` of which the last has the number of
the genuine segment. -/
def Undisturbed (s : UInt32) (segs : List TcpHdr) : Prop :=
  ∀ pre rs post, segs = pre ++ rs :: post → Refused s pre → Completes s pre rs →
    2 ^ 32 ∣ pre.length ∧ expected s pre = s + 1

variable {conn : TcpConn} {s : UInt32} {rs syn : TcpHdr} {segs pre : List TcpHdr} {loc rem : SockAddr}

theorem deliver_snoc (conn : TcpConn) (segs : List TcpHdr) (rs : TcpHdr) :
    deliver conn (segs ++ [rs]) = (tcpFsm (deliver conn segs) rs).2.1 := by
  unfold deliver
  rw [List.foldl_append]
  rfl

theorem expected_snoc : expected s (pre ++ [rs]) = rs.tcpSeqno := by
  simp [expected]

theorem Refused.snoc (h : Refused s pre) (hrs : ¬ Completes s pre rs) : Refused s (pre ++ [rs]) := by
  intro p q post heq
  rcases List.eq_nil_or_concat' post with rfl | ⟨post, z, rfl⟩
  · obtain ⟨rfl, hq⟩ := List.append_inj' heq rfl
    obtain rfl : rs = q := by simpa using hq
    exact hrs
  · have heq : pre ++ [rs] = (p ++ q :: post) ++ [z] := by simpa using heq
    exact h p q post (List.append_inj' heq rfl).1

theorem refused_of_snoc (h : Refused s (pre ++ [rs])) : Refused s pre ∧ ¬ Completes s pre rs :=
  ⟨fun p q post heq => h p q (post ++ [rs]) (by simp [heq]), h pre rs [] rfl⟩

/-- The step in `SYN_RCVD`. -/
theorem tcpFsm_synRcvd (h : conn.state = .synRcvd) : (tcpFsm conn rs).2.1 =
    if rs.has tcpAck = true ∧ rs.tcpSeqno = conn.recvNext ∧ rs.tcpAckNum = conn.sendNext then
      { conn with state := .established }
    else { conn with recvNext := rs.tcpSeqno, sendNext := conn.sendNext + 1 } := by
  unfold tcpFsm
  rw [h]
  dsimp only
  split_ifs
  · rfl
  · rw [← h]

theorem state_of_stage_zero {st : TcpState} (h : stage st = some 0) : st = .synRcvd := by
  cases st <;> simp [stage] at h ⊢

/-- **The connection after some segments:** in `SYN_RCVD` iff it has refused them all, and then it
expects the number of the last one. -/
theorem deliver_spec (loc rem : SockAddr) (hsyn : syn.has tcpSyn = true) (pre : List TcpHdr) :
    (∃ n, stage (deliver (afterSyn loc rem syn) pre).state = some n) ∧
    ((deliver (afterSyn loc rem syn) pre).state = .synRcvd ↔ Refused syn.tcpSeqno pre) ∧
    (Refused syn.tcpSeqno pre →
      (deliver (afterSyn loc rem syn) pre).recvNext = expected syn.tcpSeqno pre ∧
      (deliver (afterSyn loc rem syn) pre).sendNext = 1 + UInt32.ofNat pre.length) := by
  induction pre using List.reverseRecOn with
  | nil =>
    have h0 : afterSyn loc rem syn = ⟨loc, rem, .synRcvd, syn.tcpSeqno + 1, 0 + 1⟩ := by
      simp [afterSyn, tcpFsm, hsyn]
    have href : Refused syn.tcpSeqno [] := fun p q post heq => by simp at heq
    show (∃ n, stage (afterSyn loc rem syn).state = some n) ∧
      ((afterSyn loc rem syn).state = .synRcvd ↔ _) ∧ _
    rw [h0]
    exact ⟨⟨0, rfl⟩, ⟨fun _ => href, fun _ => rfl⟩, fun _ => ⟨rfl, rfl⟩⟩
  | append_singleton pre rs ih =>
    obtain ⟨⟨n, hn⟩, hiff, hnum⟩ := ih
    rw [deliver_snoc]
    generalize hc : deliver (afterSyn loc rem syn) pre = conn at *
    obtain ⟨n', hn', hle⟩ := tcpFsm_stage rs hn
    refine ⟨⟨n', hn'⟩, ?_⟩
    by_cases hst : conn.state = .synRcvd
    · have href := hiff.mp hst
      obtain ⟨h1, h2⟩ := hnum href
      rw [tcpFsm_synRcvd hst, h1, h2]
      split_ifs with hcomp
      · have hno : ¬ Refused syn.tcpSeqno (pre ++ [rs]) := fun h => (refused_of_snoc h).2 hcomp
        exact ⟨⟨fun h => (by cases h), fun h => absurd h hno⟩, fun h => absurd h hno⟩
      · refine ⟨⟨fun _ => href.snoc hcomp, fun _ => hst⟩, fun _ => ⟨expected_snoc.symm, ?_⟩⟩
        simp only [List.length_append, List.length_singleton, UInt32.ofNat_add, UInt32.add_assoc]
        rfl
    · have hno : ¬ Refused syn.tcpSeqno (pre ++ [rs]) := fun h => hst (hiff.mpr (refused_of_snoc h).1)
      refine ⟨⟨fun h => ?_, fun h => absurd h hno⟩, fun h => absurd h hno⟩
      rw [h] at hn'
      obtain rfl : 0 = n' := by simpa [stage] using hn'
      obtain rfl : n = 0 := by omega
      exact absurd (state_of_stage_zero hn) hst

/-- The connection is established by the segment that completes the handshake. -/
theorem established_iff (hsyn : syn.has tcpSyn = true) (pre : List TcpHdr) (rs : TcpHdr) :
    (deliver (afterSyn loc rem syn) pre).state = .synRcvd ∧
      (deliver (afterSyn loc rem syn) (pre ++ [rs])).state = .established ↔
    Refused syn.tcpSeqno pre ∧ Completes syn.tcpSeqno pre rs := by
  obtain ⟨-, hiff, hnum⟩ := deliver_spec loc rem hsyn pre
  rw [hiff]
  refine and_congr_right fun href => ?_
  obtain ⟨h1, h2⟩ := hnum href
  rw [deliver_snoc, tcpFsm_synRcvd (hiff.mpr href), h1, h2]
  unfold Completes
  split_ifs with hc
  · exact ⟨fun _ => hc, fun _ => rfl⟩
  · refine ⟨fun h => ?_, fun h => absurd h hc⟩
    have : (deliver (afterSyn loc rem syn) pre).state = .established := h
    rw [hiff.mpr href] at this
    cases this

theorem one_add_ofNat (n : ℕ) : 1 + UInt32.ofNat n = 1 ↔ 2 ^ 32 ∣ n := by
  have h := UInt32.toNat_inj (a := 1 + UInt32.ofNat n) (b := 1)
  rw [← h, UInt32.toNat_add, UInt32.toNat_ofNat']
  show (1 + n % 2 ^ 32) % 2 ^ 32 = 1 ↔ _
  omega

/-! ### Runs of `tcp_input` -/

variable {mc : Memcmp} {m m' m₁ : TcpMap} {x : Seg} {xs ys : List Seg} {i : ℕ}

theorem input_handed (h : HandedOn mc m i x) : input mc m x = some (answer m x i) := by
  obtain ⟨hsize, hfind, hsyn, hdoff⟩ := h
  have hok : ¬ (x.hdr.has tcpSyn = true ∨ tcpHdrSize x.hdr < 0) := by
    rintro (h | h)
    · rw [hsyn] at h
      cases h
    · omega
  have hlookup : m.lookup mc x.loc x.rem x.hdr = some (some (i, m)) := by
    unfold TcpMap.lookup
    rw [hfind]
    exact if_neg hok
  rw [input_eq, if_neg (by omega), hlookup]
  rfl

/-- **One block in a call of `tcp_input`:** it steps if the segment is handed on for it. -/
theorem input_conn (hi : i < m.count) {r : ℤ × TcpMap × Buf} (h : input mc m x = some r) :
    m.count ≤ r.2.1.count ∧ r.2.1.conn i =
      if HandedOn mc m i x then (tcpFsm (m.conn i) x.hdr).2.1 else m.conn i := by
  by_cases hon : HandedOn mc m i x
  · obtain rfl : answer m x i = r := Option.some.inj ((input_handed hon).symm.trans h)
    rw [if_pos hon, (answer_fst m x i).2, set_self]
    exact ⟨le_rfl, rfl⟩
  rw [if_neg hon]
  obtain ⟨retval, m', b'⟩ := r
  by_cases hsmall : x.bsize < tcpHdrBytes
  · rw [input_eq, if_pos hsmall] at h
    cases h
    exact ⟨le_rfl, rfl⟩
  obtain ⟨-, rfl⟩ | ⟨j, m₁, hlookup, hans⟩ := input_cases h
  · exact ⟨le_rfl, rfl⟩
  have hm' : (answer m₁ x j).2.1 = m' := by rw [hans]
  rw [(answer_fst m₁ x j).2] at hm'
  subst hm'
  obtain ⟨hfind, rfl, hsyn, hdoff⟩ | ⟨-, -, rfl, -, head, rfl⟩ := lookup_cases hlookup
  · -- the segment is handed on for another block
    have hij : i ≠ j := by
      rintro rfl
      exact hon ⟨by omega, hfind, hsyn, hdoff⟩
    exact ⟨le_rfl, set_of_ne _ hij⟩
  · exact ⟨Nat.le_succ _, (set_of_ne _ hi.ne).trans (set_of_ne _ hi.ne)⟩

theorem taken_cons {r : ℤ × TcpMap × Buf} (h : input mc m x = some r) (xs : List Seg) :
    taken mc i m (x :: xs) = (if HandedOn mc m i x then [x.hdr] else []) ++ taken mc i r.2.1 xs := by
  rw [taken, h]
  rfl

theorem taken_append (h : run mc m xs = some m₁) (ys : List Seg) :
    taken mc i m (xs ++ ys) = taken mc i m xs ++ taken mc i m₁ ys := by
  induction xs generalizing m with
  | nil =>
    obtain rfl : m = m₁ := by simpa [run] using h
    rfl
  | cons x xs ih =>
    rw [run_cons] at h
    obtain ⟨r, h1, h2⟩ := Option.bind_eq_some_iff.mp h
    rw [List.cons_append, taken_cons h1, taken_cons h1, ih h2, List.append_assoc]

/-- **The segments that are taken decide about a block.** -/
theorem run_conn (hi : i < m.count) (h : run mc m xs = some m') :
    i < m'.count ∧ m'.conn i = deliver (m.conn i) (taken mc i m xs) := by
  induction xs generalizing m with
  | nil =>
    obtain rfl : m = m' := by simpa [run] using h
    exact ⟨hi, rfl⟩
  | cons x xs ih =>
    rw [run_cons] at h
    obtain ⟨r, h1, h2⟩ := Option.bind_eq_some_iff.mp h
    obtain ⟨hle, hconn⟩ := input_conn hi h1
    obtain ⟨hi', hrun⟩ := ih (hi.trans_le hle) h2
    refine ⟨hi', ?_⟩
    rw [hrun, taken_cons h1, hconn]
    split_ifs with hon
    · rfl
    · rfl

/-- Each segment that is taken is one of the run. -/
theorem taken_split {pre post : List TcpHdr} (hL : Linked m) (h : taken mc i m xs = pre ++ rs :: post) :
    ∃ xpre x xpost m₁, xs = xpre ++ x :: xpost ∧ run mc m xpre = some m₁ ∧
      taken mc i m xpre = pre ∧ HandedOn mc m₁ i x ∧ x.hdr = rs := by
  induction xs generalizing m pre with
  | nil => simp [taken] at h
  | cons x xs ih =>
    obtain ⟨retval, m₂, b', h1, hL₂⟩ := input_returns hL mc x
    rw [taken_cons h1] at h
    by_cases hon : HandedOn mc m i x
    · rw [if_pos hon, List.singleton_append] at h
      cases pre with
      | nil => exact ⟨[], x, xs, m, rfl, rfl, rfl, hon, (List.cons.inj h).1⟩
      | cons p pre =>
        obtain ⟨hp, htail⟩ := List.cons.inj h
        obtain ⟨xpre, y, xpost, m₁, rfl, h2, rfl, h4, h5⟩ := ih hL₂ htail
        refine ⟨x :: xpre, y, xpost, m₁, rfl, ?_, ?_, h4, h5⟩
        · rw [run_cons, h1]
          exact h2
        · rw [taken_cons h1, if_pos hon, hp]
          rfl
    · rw [if_neg hon, List.nil_append] at h
      obtain ⟨xpre, y, xpost, m₁, rfl, h2, rfl, h4, h5⟩ := ih hL₂ h
      refine ⟨x :: xpre, y, xpost, m₁, rfl, ?_, ?_, h4, h5⟩
      · rw [run_cons, h1]
        exact h2
      · rw [taken_cons h1, if_neg hon]
        rfl

theorem taken_snoc (h : run mc m xs = some m₁) (x : Seg) : taken mc i m (xs ++ [x]) =
    taken mc i m xs ++ if HandedOn mc m₁ i x then [x.hdr] else [] := by
  rw [taken_append h, taken]
  cases input mc m₁ x <;> simp [taken]

/-- The block that a `SYN` creates. -/
theorem input_opens (hL : Linked m) (hsize : tcpHdrBytes ≤ x.bsize)
    (hfind : m.tcpFindConnection mc x.loc x.rem = some none) (hsyn : x.hdr.has tcpSyn = true) :
    ∃ m', run mc m [x] = some m' ∧ Linked m' ∧ m.count < m'.count ∧
      m'.conn m.count = afterSyn x.loc x.rem x.hdr := by
  obtain ⟨head, hnew, hL'⟩ := hL.created mc x
  have hlookup : m.lookup mc x.loc x.rem x.hdr = some (some (m.count, created m x head)) := by
    simp [TcpMap.lookup, hfind, hsyn, hnew]
  have hin : input mc m x = some (answer (created m x head) x m.count) := by
    rw [input_eq, if_neg (by omega), hlookup]
    rfl
  have hblock : (created m x head).conn m.count = ⟨x.loc, x.rem, .listen, 0, 0⟩ :=
    Function.update_self _ _ _
  refine ⟨_, ?_, hL'.answer x m.count, ?_, ?_⟩
  · rw [run_cons, hin]
    rfl
  · rw [(answer_fst _ x m.count).2]
    exact Nat.lt_succ_self _
  · rw [(answer_fst _ x m.count).2, set_self, hblock]
    rfl

/-- **Only the genuine segment establishes the connection iff nothing disturbs the handshake:** after
any sequence of segments, for any connection that a `SYN` then creates and any segments that follow. -/
theorem genuine_iff (mc : Memcmp) (ys : List Seg) : ∃ m, run mc TcpMap.init ys = some m ∧
    ∀ syn : Seg, tcpHdrBytes ≤ syn.bsize → m.tcpFindConnection mc syn.loc syn.rem = some none →
      syn.hdr.has tcpSyn = true → ∃ m', run mc m [syn] = some m' ∧ ∀ xs,
        (run mc m' xs).isSome ∧ (Genuine mc m' m.count syn.hdr.tcpSeqno xs ↔
          Undisturbed syn.hdr.tcpSeqno (taken mc m.count m' xs)) := by
  obtain ⟨m, hrun, hL⟩ := run_returns linked_init mc ys
  refine ⟨m, hrun, fun syn hsize hfind hsyn => ?_⟩
  obtain ⟨m', hopen, hL', hi, hblock⟩ := input_opens hL hsize hfind hsyn
  refine ⟨m', hopen, fun xs => ⟨?_, ?_, ?_⟩⟩
  · obtain ⟨m'', h, -⟩ := run_returns hL' mc xs
    rw [h]
    rfl
  · intro h pre rs post heq href hcomp
    obtain ⟨xpre, x, xpost, m₁, rfl, h1, rfl, hon, rfl⟩ := taken_split hL' heq
    obtain ⟨m₂, h2, -⟩ := run_returns hL' mc (xpre ++ [x])
    have hconn₁ := (run_conn hi h1).2
    have hconn₂ := (run_conn hi h2).2
    rw [taken_snoc h1, if_pos hon] at hconn₂
    rw [hblock] at hconn₁ hconn₂
    obtain ⟨hst₁, hst₂⟩ := (established_iff hsyn _ x.hdr).mpr ⟨href, hcomp⟩
    obtain ⟨-, h3, h4⟩ := h xpre x xpost m₁ m₂ rfl h1 h2 (by rw [hconn₁]; exact hst₁)
      (by rw [hconn₂]; exact hst₂)
    obtain ⟨-, h5, h6⟩ := hcomp
    exact ⟨(one_add_ofNat _).mp (h6.symm.trans h4), h5.symm.trans h3⟩
  · rintro h xpre x xpost m₁ m₂ rfl h1 h2 hst₁ hst₂
    have hconn₁ := (run_conn hi h1).2
    have hconn₂ := (run_conn hi h2).2
    rw [taken_snoc h1] at hconn₂
    by_cases hon : HandedOn mc m₁ m.count x
    · have heq : taken mc m.count m' (xpre ++ x :: xpost) =
          taken mc m.count m' xpre ++ x.hdr :: taken mc m.count m₂ xpost := by
        rw [show xpre ++ x :: xpost = (xpre ++ [x]) ++ xpost by simp, taken_append h2,
          taken_snoc h1, if_pos hon]
        simp
      rw [if_pos hon, hblock] at hconn₂
      rw [hblock] at hconn₁
      rw [hconn₁] at hst₁
      rw [hconn₂] at hst₂
      obtain ⟨href, hcomp⟩ := (established_iff hsyn _ x.hdr).mp ⟨hst₁, hst₂⟩
      obtain ⟨h3, h4⟩ := h _ x.hdr _ heq href hcomp
      obtain ⟨h5, h6, h7⟩ := hcomp
      exact ⟨h5, h6.trans h4, h7.trans ((one_add_ofNat _).mpr h3)⟩
    · -- the segment is not for this connection, which stays as it is
      rw [if_neg hon, List.append_nil, ← hconn₁] at hconn₂
      rw [hconn₂, hst₁] at hst₂
      cases hst₂

/-- A segment from port 9 of address 1 to port 80 of address 2. -/
def seg (seqno ackNum : UInt32) (flags : UInt16) : Seg :=
  ⟨{ IpHdr.zero with ipSrc := 1, ipDst := 2 },
    ofBytes (tcpNtoh ⟨9, 80, seqno, ackNum, 0x5000 ||| flags, 0, 0, 0⟩).bytes, 0, 20⟩

/-- A second `SYN` is refused by `tcp_input`, and the genuine segment establishes the connection. -/
theorem genuine_iff_second_syn : ∃ m, run .ofSign TcpMap.init [seg 7 0 tcpSyn] = some m ∧
    Genuine .ofSign m 0 7 [seg 5 0 tcpSyn, seg 8 1 tcpAck] ∧
    (run .ofSign m [seg 5 0 tcpSyn, seg 8 1 tcpAck]).map (fun m' => (m'.conn 0).state) =
      some .established := by
  obtain ⟨m₀, h₀, hopen⟩ := genuine_iff .ofSign []
  obtain rfl : TcpMap.init = m₀ := Option.some.inj h₀
  obtain ⟨m, hm, hiff⟩ := hopen (seg 7 0 tcpSyn) le_rfl (by decide +kernel) (by decide +kernel)
  have hsome : (run .ofSign TcpMap.init [seg 7 0 tcpSyn]).map (fun m =>
      (taken .ofSign 0 m [seg 5 0 tcpSyn, seg 8 1 tcpAck],
        (run .ofSign m [seg 5 0 tcpSyn, seg 8 1 tcpAck]).map fun m' => (m'.conn 0).state)) =
      some ([(seg 8 1 tcpAck).hdr], some .established) := by decide +kernel
  rw [hm] at hsome
  obtain ⟨htaken, hstate⟩ := Prod.mk.inj (Option.some.inj hsome)
  refine ⟨m, hm, ((hiff _).2).mpr ?_, hstate⟩
  intro pre rs post heq _ _
  obtain rfl : pre = [] := by
    have hlen := congrArg List.length (htaken.symm.trans heq)
    simp only [List.length_append, List.length_cons, List.length_nil] at hlen
    exact List.length_eq_zero_iff.mp (by omega)
  exact ⟨dvd_zero _, rfl⟩

/-- A segment with sequence number 7 is refused, and then one with 7 is taken. -/
theorem forged_established : ∃ m, run .ofSign TcpMap.init [seg 100 0 tcpSyn] = some m ∧
    ¬ Genuine .ofSign m 0 100 [seg 7 0 0, seg 7 2 tcpAck] := by
  have hsome : ((run .ofSign TcpMap.init [seg 100 0 tcpSyn]).bind fun m =>
      (run .ofSign m [seg 7 0 0]).bind fun m₁ => (run .ofSign m [seg 7 0 0, seg 7 2 tcpAck]).map
        fun m₂ => ((m₁.conn 0).state, (m₂.conn 0).state)) = some (.synRcvd, .established) := by
    decide +kernel
  obtain ⟨m, hm, h⟩ := Option.bind_eq_some_iff.mp hsome
  obtain ⟨m₁, h1, h⟩ := Option.bind_eq_some_iff.mp h
  obtain ⟨m₂, h2, heq⟩ := Option.map_eq_some_iff.mp h
  obtain ⟨hst₁, hst₂⟩ := Prod.mk.inj heq
  refine ⟨m, hm, fun hgen => ?_⟩
  obtain ⟨-, hseq, -⟩ := hgen [seg 7 0 0] (seg 7 2 tcpAck) [] m₁ m₂ rfl h1 h2 hst₁ hst₂
  have hne : (seg 7 2 tcpAck).hdr.tcpSeqno ≠ 100 + 1 := by decide +kernel
  exact hne hseq

end Xstack.Tcp.Handshake
