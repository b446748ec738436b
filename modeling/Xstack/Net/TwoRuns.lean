import Xstack.Net.Validate
import Xstack.Udp.Bind

/-! # Two runs on buffers that agree

What the handlers of the input chain make of two receive buffers with the same first `m` bytes
(`Same`): as long as they look at nothing behind these bytes they do the same to the state, but for
the memory that the history of calls shows (`Alike`), and leave buffers that agree again. For every
function the hypotheses say up to where it looks. -/

namespace Xstack.Net.TwoRuns

open Xstack.Config Xstack.Lib.Bytes Xstack.Lib.Lex Xstack.Lib.Program Xstack.Ether Xstack.Ip.Header
open Xstack.Ip.Fragment Xstack.Sock.Queue Xstack.Tcp Xstack.Udp Xstack.Net.State Xstack.Net.Send
open Xstack.Net.Input Xstack.Net.Validate

/-- The states differ in `calls` only. -/
def Alike (s t : Stack) : Prop := t = { s with calls := t.calls }

theorem Alike.refl (s : Stack) : Alike s s := rfl

/-- The results of a handler: the same value, at most `k`, and buffers that agree. -/
structure Same (k m : ℕ) (p q : ℤ × Buf) : Prop where
  eq : p.1 = q.1
  le : p.1 ≤ k
  agree : Agree m p.2 q.2

variable {m o : ℕ} {b b' : Buf}

/-- A reply of no bytes, or an error. -/
theorem Same.silent {r : ℤ} (hr : r ≤ 0) (k : ℕ) (h : Agree m b b') : Same k m (r, b) (r, b') :=
  ⟨rfl, hr.trans (Int.natCast_nonneg k), h⟩

/-! ### Headers and ICMP -/

theorem ipHton_agree (h : Agree m b b') {host : IpHdr} (hm : o + ipHdrHlen host ≤ m) :
    Agree m (ipHton b o host) (ipHton b' o host) := by
  have hput := h.put o { ipNtoh host with ipCsum := 0 }.bytes
  have hsum := ipChecksum_congr ((hput.shift o).mono (show ipHdrHlen host ≤ m - o by omega))
  unfold ipHton
  dsimp only
  rw [hsum]
  exact hput.put _ _

/-- `ip_reply_header` looks at the header. -/
theorem ipReplyHeader_agree (h : Agree m b b') (h20 : 20 ≤ m) (hm : ipHdrHlen (IpHdr.load b) ≤ m)
    (bsize : ℕ) : (ipReplyHeader b bsize).1 = (ipReplyHeader b' bsize).1 ∧
      Agree m (ipReplyHeader b bsize).2 (ipReplyHeader b' bsize).2 := by
  have hload := IpHdr.load_congr h h20
  unfold ipReplyHeader
  dsimp only
  rw [← hload]
  refine ⟨rfl, ipHton_agree h ?_⟩
  show 0 + ipHdrHlen (IpHdr.load b) ≤ m
  omega

/-- `icmp_input` looks at the message. -/
theorem icmpInput_agree (h : Agree m b b') {bsize : ℕ} (hm : o + bsize ≤ m) :
    Option.Rel (Same bsize m) (icmpInput b o bsize) (icmpInput b' o bsize) := by
  unfold icmpInput
  by_cases hsmall : bsize < icmpSize
  · rw [if_pos hsmall, if_pos hsmall]
    exact .some (.silent (by decide) bsize h)
  · have hsize : icmpSize = 8 := rfl
    rw [if_neg hsmall, if_neg hsmall, h o (by omega)]
    split_ifs with htype hbig
    · exact .none
    · have hput := (h.put o [icmpTypeEchoReply]).put (o + 2) (le16 0)
      have hsum := ipChecksum_congr ((hput.shift o).mono (show bsize ≤ m - o by omega))
      dsimp only
      rw [hsum]
      exact .some ⟨rfl, le_rfl, hput.put _ _⟩
    · exact .some (.silent (by decide) bsize h)

/-- The message of an ICMP error before the header of the packet is put into it. -/
def errorMsg (b : Buf) (code : UInt8) (o q : ℕ) : Buf :=
  let b := put (copy b (o + 28) (shift b o) q) o [icmpTypeDestunreac, code, 0, 0, 0, 0, 0, 0]
  put b (o + 2) (le16 (ipChecksum (shift b o) (icmpDestunreacSize + q)))

theorem errorMsg_agree (h : Agree m b b') (code : UInt8) {q : ℕ} (hm : o + 36 + q ≤ m) :
    Agree m (errorMsg b code o q) (errorMsg b' code o q) := by
  have hcopy : Agree m (copy b (o + 28) (shift b o) q) (copy b' (o + 28) (shift b' o) q) :=
    h.copy ((h.shift o).mono (by omega))
  have hput := hcopy.put o [icmpTypeDestunreac, code, 0, 0, 0, 0, 0, 0]
  have hsize : icmpDestunreacSize = 36 := rfl
  have hsum := ipChecksum_congr ((hput.shift o).mono (show icmpDestunreacSize + q ≤ m - o by omega))
  unfold errorMsg
  dsimp only
  rw [hsum]
  exact hput.put _ _

/-- The message does not reach into the header of the packet. -/
theorem load_errorMsg (b : Buf) (code : UInt8) {o : ℕ} (ho : 20 ≤ o) (q : ℕ) :
    IpHdr.load (errorMsg b code o q) = IpHdr.load b := by
  refine IpHdr.load_congr (n := 20) (fun i hi => ?_) le_rfl
  unfold errorMsg
  rw [put_outside (by omega), put_outside (by omega), copy_outside (by omega)]

/-- The packet with an ICMP error, before its own header is finished. -/
def errorPacket (b : Buf) (code : UInt8) (o q : ℕ) : Buf :=
  let b := errorMsg b code o q
  let hdr := IpHdr.load b
  put (ipHton b (o + 8) hdr) 0 { hdr with
    ipVhl := ipVhlDefault, ipTos := ipTosDefault, ipProto := ipProtoIcmp }.bytes

theorem load_errorPacket (b : Buf) (code : UInt8) (o q : ℕ) :
    ipHdrHlen (IpHdr.load (errorPacket b code o q)) = 20 := by
  unfold errorPacket
  rw [IpHdr.load_put]
  show (ipVhlDefault &&& 0x0f).toNat * 4 = 20
  decide

theorem icmpGenerateDestUnreachable_eq (b : Buf) (code : UInt8) (o bsize : ℕ) :
    icmpGenerateDestUnreachable b code o bsize = (((92 + 2 * quoted bsize : ℕ) : ℤ),
      (ipReplyHeader (errorPacket b code o (quoted bsize)) (36 + quoted bsize)).2) := by
  have hsize : (ipReplyHeader (errorPacket b code o (quoted bsize)) (36 + quoted bsize)).1 =
      36 + quoted bsize + 20 := by
    show 36 + quoted bsize + ipHdrHlen (IpHdr.load (errorPacket b code o (quoted bsize))) = _
    rw [load_errorPacket]
  refine Prod.ext ?_ rfl
  show ((36 + quoted bsize : ℕ) : ℤ) +
    ((ipReplyHeader (errorPacket b code o (quoted bsize)) (36 + quoted bsize)).1 : ℤ) = _
  rw [hsize]
  push_cast
  omega

theorem quoted_le (bsize : ℕ) : quoted bsize ≤ 8 := Nat.min_le_left _ _

/-- How much of a packet with a header of `hlen` bytes an ICMP error needs: its message is counted
twice in the size of the packet, and the checksum of the old header reads on behind it. -/
def errorNeeds (hlen : ℕ) : ℕ := max 108 (2 * hlen + 8)

theorem unreachable_agree (h : Agree m b b') (hlen : ipHdrHlen (IpHdr.load b) = o) (ho : 20 ≤ o)
    (hm : errorNeeds o ≤ m) (code : UInt8) (bsize : ℕ) :
    Same m m (icmpGenerateDestUnreachable b code o bsize)
      (icmpGenerateDestUnreachable b' code o bsize) := by
  have hq := quoted_le bsize
  have hle := ipHdrHlen_le (IpHdr.load b)
  unfold errorNeeds at hm
  have hmsg : Agree m (errorMsg b code o (quoted bsize)) (errorMsg b' code o (quoted bsize)) :=
    errorMsg_agree h code (by omega)
  have hpacket : Agree m (errorPacket b code o (quoted bsize))
      (errorPacket b' code o (quoted bsize)) := by
    unfold errorPacket
    dsimp only
    rw [IpHdr.load_congr hmsg (by omega)]
    refine (ipHton_agree hmsg ?_).put _ _
    rw [← IpHdr.load_congr hmsg (by omega), load_errorMsg b code ho, hlen]
    omega
  rw [icmpGenerateDestUnreachable_eq, icmpGenerateDestUnreachable_eq]
  refine ⟨rfl, Int.ofNat_le.mpr (by omega), (ipReplyHeader_agree hpacket (by omega) ?_ _).2⟩
  rw [load_errorPacket]
  omega

/-! ### UDP and TCP -/

/-- `udp_input` looks at the datagram. -/
theorem udpInput_agree (mc : Memcmp) (t : UdpTable) (ip : IpHdr) (h : Agree m b b') {bsize : ℕ}
    (hm : o + bsize ≤ m) : Option.Rel (fun p q => p.2.1 = q.2.1 ∧ Same 0 m (p.1, p.2.2) (q.1, q.2.2))
      (t.udpInput mc ip b o bsize) (t.udpInput mc ip b' o bsize) := by
  have hsize : udpHdrSize = 8 := rfl
  unfold UdpTable.udpInput
  by_cases hsmall : bsize < udpHdrSize
  · rw [if_pos hsmall, if_pos hsmall]
    exact .some ⟨rfl, .silent (show -EBADMSG ≤ 0 by decide) 0 h⟩
  · rw [if_neg hsmall, if_neg hsmall, UdpHdr.load_congr (h.shift o) (by omega)]
    have hput := h.put o (udpNtoh (UdpHdr.load (shift b' o))).bytes
    dsimp only
    cases t.findUdpSocket mc ⟨ip.ipDst, (udpNtoh (UdpHdr.load (shift b' o))).udpDport.toUInt32⟩ with
    | none => exact .none
    | some found =>
      cases found with
      | none => exact .some ⟨rfl, .silent (show -ENOTSOCK ≤ 0 by decide) 0 hput⟩
      | some i =>
        have hdata := ((hput.shift (o + udpHdrSize)).mono
          (show bsize - udpHdrSize ≤ m - (o + udpHdrSize) by omega)).slice
        simp only [Option.bind_eq_bind, Option.bind_some]
        rw [hdata]
        split_ifs
        · exact .none
        · exact optionRel_bind fun shmem => .some ⟨rfl, .silent le_rfl 0 hput⟩

theorem tcpHton_agree (h : Agree m b b') {src dst : SockAddr} {host : TcpHdr} {bsize : ℕ}
    (hm : o + bsize ≤ m) :
    Agree m (tcpHton b o src dst host bsize) (tcpHton b' o src dst host bsize) := by
  have hput := h.put o { tcpNtoh host with tcpChecksum := 0 }.bytes
  have hsum : tcpChecksum src dst (shift (put b o { tcpNtoh host with tcpChecksum := 0 }.bytes) o)
      bsize = tcpChecksum src dst
        (shift (put b' o { tcpNtoh host with tcpChecksum := 0 }.bytes) o) bsize := by
    unfold tcpChecksum
    rw [csumBytes_congr ((hput.shift o).mono (show bsize ≤ m - o by omega))]
  unfold tcpHton
  dsimp only
  rw [hsum]
  exact hput.put _ _

/-- The segment is answered, with as many bytes as its data offset says. -/
def Answered (mc : Memcmp) (t : TcpMap) (ip : IpHdr) (tcp : TcpHdr) : Prop :=
  ∃ i t', t.lookup mc (TcpMap.attrs ip tcp).1 (TcpMap.attrs ip tcp).2 tcp = some (some (i, t')) ∧
    0 < (tcpFsm (t'.conn i) tcp).1

/-- `tcp_input` looks at the segment, and at all of the header if it answers. -/
theorem tcpInput_agree (mc : Memcmp) (t : TcpMap) (ip : IpHdr) (h : Agree m b b') {bsize : ℕ}
    (hm : o + bsize ≤ m) (hreply : tcpHdrBytes ≤ bsize →
      Answered mc t ip (tcpNtoh (TcpHdr.load (shift b o))) →
      o + 4 * tcpDoff (tcpNtoh (TcpHdr.load (shift b o))) ≤ m) :
    Option.Rel (fun p q => p.2.1 = q.2.1 ∧ Same (m - o) m (p.1, p.2.2) (q.1, q.2.2))
      (t.tcpInput mc ip b o bsize) (t.tcpInput mc ip b' o bsize) := by
  have hsize : tcpHdrBytes = 20 := rfl
  unfold TcpMap.tcpInput
  by_cases hsmall : bsize < tcpHdrBytes
  · rw [if_pos hsmall, if_pos hsmall]
    exact .some ⟨rfl, .silent (show -EBADMSG ≤ 0 by decide) _ h⟩
  · have hreply := hreply (by omega)
    rw [if_neg hsmall, if_neg hsmall]
    rw [TcpHdr.load_congr (h.shift o) (by omega)] at hreply ⊢
    set tcp := tcpNtoh (TcpHdr.load (shift b' o))
    have hput := h.put o tcp.bytes
    dsimp only
    cases hl : t.lookup mc (TcpMap.attrs ip tcp).1 (TcpMap.attrs ip tcp).2 tcp with
    | none => exact .none
    | some found =>
      obtain _ | ⟨i, t'⟩ := found
      · exact .some ⟨rfl, .silent (show -EINVAL ≤ 0 by decide) _ hput⟩
      · simp only [Option.bind_eq_bind, Option.bind_some]
        have hput' := hput.put o (tcpFsm (t'.conn i) tcp).2.2.bytes
        split_ifs with hpos
        · have hlen := (tcpFsm_size hpos).1
          have hin := hreply ⟨i, t', hl, hpos⟩
          exact .some ⟨rfl, rfl, by omega, tcpHton_agree hput' (by omega)⟩
        · exact .some ⟨rfl, .silent (by omega) _ hput'⟩

/-! ### The handlers -/

variable (env : Env)

/-- The handler is `udp_input`, and the datagram of `bsize` bytes has no socket. -/
def NoSocket (s : Stack) (ip : IpHdr) (b : Buf) (o bsize : ℕ) (proto : Proto) : Prop :=
  proto = .udp ∧ udpHdrSize ≤ bsize ∧ s.udp.findUdpSocket env.mc
    ⟨ip.ipDst, (udpNtoh (UdpHdr.load (shift b o))).udpDport.toUInt32⟩ = some none

/-- The handler is `tcp_input`, and it answers the segment of `bsize` bytes. -/
def FastReply (s : Stack) (ip : IpHdr) (b : Buf) (o bsize : ℕ) (proto : Proto) : Prop :=
  proto = .tcp ∧ tcpHdrBytes ≤ bsize ∧
    Answered env.mc s.tcp ip (tcpNtoh (TcpHdr.load (shift b o)))

/-- **What is sent back is within the first `m` bytes,** when a handler gets `bsize` bytes from `o` on. -/
structure HandlerIn (s : Stack) (ip : IpHdr) (b : Buf) (o m bsize : ℕ) (proto : Proto) : Prop where
  unreachable : NoSocket env s ip b o bsize proto → errorNeeds o ≤ m
  fastReply : FastReply env s ip b o bsize proto →
    o + 4 * tcpDoff (tcpNtoh (TcpHdr.load (shift b o))) ≤ m

theorem icmpInput_spec {bsize : ℕ} {r : ℤ} {c : Buf} (h : icmpInput b o bsize = some (r, c)) :
    Agree o b c ∧ r ≠ -ENOTSOCK := by
  have hne : ENOTSOCK = 88 := rfl
  have hbad : EBADMSG = 74 := rfl
  have hmsg : ENOMSG = 42 := rfl
  unfold icmpInput at h
  split_ifs at h
  · cases h
    exact ⟨fun _ _ => rfl, by omega⟩
  · cases h
    refine ⟨fun i hi => ?_, by omega⟩
    rw [put_outside (by omega), put_outside (by omega), put_outside (by omega)]
  · cases h
    exact ⟨fun _ _ => rfl, by omega⟩

theorem udpInput_spec {t t' : UdpTable} {mc : Memcmp} {ip : IpHdr} {bsize : ℕ} {r : ℤ} {c : Buf}
    (h : t.udpInput mc ip b o bsize = some (r, t', c)) : Agree o b c ∧ (r = -ENOTSOCK →
      udpHdrSize ≤ bsize ∧ t.findUdpSocket mc
        ⟨ip.ipDst, (udpNtoh (UdpHdr.load (shift b o))).udpDport.toUInt32⟩ = some none) := by
  have hne : ENOTSOCK = 88 := rfl
  have hbad : EBADMSG = 74 := rfl
  have hput : Agree o b (put b o (udpNtoh (UdpHdr.load (shift b o))).bytes) := fun i hi =>
    (put_outside (Or.inl hi)).symm
  unfold UdpTable.udpInput at h
  by_cases hsmall : bsize < udpHdrSize
  · rw [if_pos hsmall] at h
    cases h
    exact ⟨fun _ _ => rfl, by omega⟩
  rw [if_neg hsmall] at h
  dsimp only at h
  cases hfind : t.findUdpSocket mc
      ⟨ip.ipDst, (udpNtoh (UdpHdr.load (shift b o))).udpDport.toUInt32⟩ with
  | none =>
    rw [hfind] at h
    cases h
  | some found =>
    rw [hfind] at h
    cases found with
    | none =>
      cases h
      exact ⟨hput, fun _ => ⟨by omega, rfl⟩⟩
    | some i =>
      simp only [Option.bind_eq_bind, Option.bind_some] at h
      split_ifs at h
      · cases h
      · obtain ⟨shmem, -, hret⟩ := Option.bind_eq_some_iff.mp h
        cases hret
        exact ⟨hput, by omega⟩

theorem tcpInput_spec {t t' : TcpMap} {mc : Memcmp} {ip : IpHdr} {bsize : ℕ} {r : ℤ} {c : Buf}
    (h : t.tcpInput mc ip b o bsize = some (r, t', c)) : Agree o b c ∧ r ≠ -ENOTSOCK := by
  have hne : ENOTSOCK = 88 := rfl
  have hbad : EBADMSG = 74 := rfl
  have hinval : EINVAL = 22 := rfl
  have hput : ∀ (c : Buf) (l : List UInt8), Agree o b c → Agree o b (put c o l) := by
    intro c l hc i hi
    rw [put_outside (Or.inl hi), hc i hi]
  unfold TcpMap.tcpInput at h
  by_cases hsmall : bsize < tcpHdrBytes
  · rw [if_pos hsmall] at h
    cases h
    exact ⟨fun _ _ => rfl, by omega⟩
  rw [if_neg hsmall] at h
  dsimp only at h
  set tcp := tcpNtoh (TcpHdr.load (shift b o))
  have hhdr := hput b tcp.bytes fun _ _ => rfl
  cases hl : t.lookup mc (TcpMap.attrs ip tcp).1 (TcpMap.attrs ip tcp).2 tcp with
  | none =>
    rw [hl] at h
    cases h
  | some found =>
    rw [hl] at h
    obtain _ | ⟨i, t''⟩ := found
    · cases h
      exact ⟨hhdr, by omega⟩
    · have hge := tcpFsm_ge (t''.conn i) tcp
      simp only [Option.bind_eq_bind, Option.bind_some] at h
      split_ifs at h
      · cases h
        refine ⟨fun k hk => ?_, by omega⟩
        unfold tcpHton
        rw [put_outside (by omega)]
        exact hput _ _ (hput _ _ hhdr) k hk
      · cases h
        exact ⟨hput _ _ hhdr, by omega⟩

theorem protoInput_two (proto : Proto) (ip : IpHdr) (h : Agree m b b') {s t : Stack}
    (hst : Alike s t) (ho : o ≤ m) (hin : HandlerIn env s ip b o m (m - o) proto) :
    Rel Alike (Same (m - o) m) (protoInput env proto ip b o (m - o))
      (protoInput env proto ip b' o (m - o)) s t := by
  have htcp : t.tcp = s.tcp := by rw [hst]
  have hudp : t.udp = s.udp := by rw [hst]
  unfold protoInput
  refine .get_bind ?_
  rw [htcp, hudp]
  cases proto with
  | icmp => exact .ofOption hst (icmpInput_agree h (by omega))
  | tcp =>
    refine .bind (.ofOption hst (tcpInput_agree env.mc s.tcp ip h (by omega) fun h1 h2 =>
      hin.fastReply ⟨rfl, h1, h2⟩)) ?_
    rintro ⟨r, tcp, c⟩ ⟨_, _, c'⟩ s' t' ⟨rfl, hc⟩ hst' -
    refine .bind (.modify ?_) fun _ _ u v _ huv _ => .pure huv hc
    rw [hst']
    rfl
  | udp =>
    refine .bind (.ofOption hst (udpInput_agree env.mc s.udp ip h (by omega))) ?_
    rintro ⟨r, udp, c⟩ ⟨_, _, c'⟩ s' t' ⟨rfl, hc⟩ hst' -
    have hle : r ≤ (m - o : ℕ) := hc.le.trans (Int.ofNat_le.mpr (Nat.zero_le _))
    refine .bind (.modify ?_) fun _ _ u v _ huv _ => .pure huv ⟨hc.eq, hle, hc.agree⟩
    rw [hst']
    rfl

/-- A handler leaves what is before its payload alone, and only `udp_input` asks for an error. -/
theorem protoInput_spec {proto : Proto} {ip : IpHdr} {bsize : ℕ} {s t : Stack} {r : ℤ} {c : Buf}
    (h : protoInput env proto ip b o bsize s = (some (r, c), t)) :
    Agree o b c ∧ (r = -ENOTSOCK → NoSocket env s ip b o bsize proto) := by
  unfold protoInput at h
  rw [get_bind] at h
  cases proto with
  | icmp =>
    cases hi : icmpInput b o bsize with
    | none =>
      simp [hi] at h
    | some p =>
      simp only [hi, ofOption_some, pure_apply, Prod.mk.injEq, Option.some.injEq] at h
      obtain ⟨rfl, -⟩ := h
      obtain ⟨h1, h2⟩ := icmpInput_spec hi
      exact ⟨h1, fun he => absurd he h2⟩
  | tcp =>
    cases hi : s.tcp.tcpInput env.mc ip b o bsize with
    | none =>
      simp only [hi, ofOption_none] at h
      cases h
    | some p =>
      simp only [hi, ofOption_some, bind_pure, modify_bind, pure_apply] at h
      obtain ⟨h1, h2⟩ := tcpInput_spec hi
      cases h
      exact ⟨h1, fun he => absurd he h2⟩
  | udp =>
    cases hi : s.udp.udpInput env.mc ip b o bsize with
    | none =>
      simp only [hi, ofOption_none] at h
      cases h
    | some p =>
      simp only [hi, ofOption_some, bind_pure, modify_bind, pure_apply] at h
      obtain ⟨h1, h2⟩ := udpInput_spec hi
      cases h
      exact ⟨h1, fun he => ⟨rfl, h2 he⟩⟩

/-- `udp_input` finds no socket, and leaves the header of the datagram in host order. -/
theorem protoInput_absent {ip : IpHdr} {bsize : ℕ} {s : Stack}
    (h : NoSocket env s ip b o bsize .udp) : protoInput env .udp ip b o bsize s =
      (some (-ENOTSOCK, Udp.Bind.swapped b o), s) := by
  obtain ⟨-, hsize, hfind⟩ := h
  have hudp : s.udp.udpInput env.mc ip b o bsize = _ := Udp.Bind.udpInput_absent hsize hfind
  unfold protoInput
  rw [get_bind]
  dsimp only
  rw [hudp]
  rfl

/-- The call of a handler, with the header of the packet at the start of the buffer. -/
theorem callHandler_two (proto : Proto) {ip : IpHdr} (h : Agree m b b') (hip : IpHdr.load b = ip)
    (h20 : 20 ≤ ipHdrHlen ip) (hm : ipHdrHlen ip ≤ m) (s : Stack)
    (hin : HandlerIn env s ip b (ipHdrHlen ip) m (m - ipHdrHlen ip) proto) :
    Rel Alike (Same m m) (callHandler env proto ip b (m - ipHdrHlen ip))
      (callHandler env proto ip b' (m - ipHdrHlen ip)) s s := by
  unfold callHandler
  refine .bind (Q := Alike) (.modify rfl) fun _ _ s' t' _ hst hs' => ?_
  have hin' : HandlerIn env s' ip b (ipHdrHlen ip) m (m - ipHdrHlen ip) proto := by
    rw [← (Prod.mk.inj hs').2]
    exact ⟨hin.unreachable, hin.fastReply⟩
  refine .bind (protoInput_two env proto ip h hst hm hin') ?_
  rintro ⟨r, c⟩ ⟨_, c'⟩ u v ⟨rfl, hle, hc⟩ huv hrun
  obtain ⟨hframe, hsock⟩ := protoInput_spec env hrun
  have hload : IpHdr.load c = ip := by
    rw [← hip]
    exact (IpHdr.load_congr hframe h20).symm
  dsimp only
  refine .ite (fun hpos => .pure huv ?_) fun hpos => .ite (fun hsk => .pure huv ?_) fun _ =>
    .pure huv (.silent (by omega) m hc)
  · obtain ⟨h1, h2⟩ := ipReplyHeader_agree hc (by omega) (by rw [hload]; exact hm) r.toNat
    have hsize : (ipReplyHeader c r.toNat).1 = r.toNat + ipHdrHlen ip := by
      rw [← hload]
      rfl
    dsimp only at hle
    exact ⟨congrArg Nat.cast h1, by rw [hsize]; push_cast; omega, h2⟩
  · exact unreachable_agree hc (by rw [hload]) h20 (hin'.unreachable (hsock hsk)) _ _

/-! ### `ip_input` -/

/-- `ip_fragment_input` looks at the bytes of the fragment. -/
theorem ipFragmentInput_congr {ip : IpHdr} {rx rx' : Buf} (h : Agree (fragSize ip) rx rx') :
    ipFragmentInput env ip rx = ipFragmentInput env ip rx' := by
  have hstore : ∀ p : PacketBuf, p.store ip rx = p.store ip rx' := by
    intro p
    have hcopy : copy p.payload (fragOff ip) rx (fragSize ip) =
        copy p.payload (fragOff ip) rx' (fragSize ip) := by
      funext i
      unfold copy
      split_ifs with hi
      · exact h _ (by omega)
      · rfl
    unfold PacketBuf.store PacketBuf.copyIn
    rw [hcopy]
  unfold ipFragmentInput ipFragmentStore
  simp only [hstore]

/-- **What `ip_input` calls sends back only received bytes.** -/
def DispatchIn (s : Stack) (ip : IpHdr) (b : Buf) (m : ℕ) : Dispatch → Prop
  | .unreachable _ _ => errorNeeds (ipHdrHlen ip) ≤ m
  | .fragment _ => True
  | .handler proto size => HandlerIn env s ip b (ipHdrHlen ip) m size proto

theorem shift_hdr (b : Buf) (ip : IpHdr) {o : ℕ} (ho : 20 ≤ o) :
    shift (put b 0 ip.bytes) o = shift b o := by
  funext i
  exact put_outside (Or.inr (by simp; omega))

section

variable {s t : Stack} {ip : IpHdr} {proto : Proto} {bsize : ℕ}

theorem noSocket_learned (h : Learned s t) (ho : 20 ≤ o) :
    NoSocket env t ip (put b 0 ip.bytes) o bsize proto ↔ NoSocket env s ip b o bsize proto := by
  obtain ⟨_, _, rfl⟩ := h
  unfold NoSocket
  rw [shift_hdr b ip ho]

theorem fastReply_learned (h : Learned s t) (ho : 20 ≤ o) :
    FastReply env t ip (put b 0 ip.bytes) o bsize proto ↔ FastReply env s ip b o bsize proto := by
  obtain ⟨_, _, rfl⟩ := h
  unfold FastReply
  rw [shift_hdr b ip ho]

theorem HandlerIn.of_learned (h : Learned s t) (ho : 20 ≤ o)
    (hin : HandlerIn env s ip b o m bsize proto) :
    HandlerIn env t ip (put b 0 ip.bytes) o m bsize proto := by
  refine ⟨fun hs => hin.unreachable ((noSocket_learned env h ho).mp hs), fun hr => ?_⟩
  rw [shift_hdr b ip ho]
  exact hin.fastReply ((fastReply_learned env h ho).mp hr)

end

/-- **`ip_input` on a packet whose header has been received.** -/
theorem ipInput_two {src : MacAddr} {ip : IpHdr} (h : Agree m b b') (h20 : 20 ≤ m)
    (hip : hdrOf (some src) b = ip) (hm : ipHdrHlen ip ≤ m) {s : Stack}
    (hin : ∀ call t, ipCheck (some src) ip m s = (some (some call), t) →
      DispatchIn env s ip b m call) :
    Rel Alike (Same m m) (ipInput env (some src) b m) (ipInput env (some src) b' m) s s := by
  have hip' : hdrOf (some src) b' = ip := by
    rw [← hip]
    exact congrArg ipNtoh (IpHdr.load_congr h h20).symm
  have hput := h.put 0 ip.bytes
  have hload : IpHdr.load (put b 0 ip.bytes) = ip := IpHdr.load_put b ip
  unfold ipInput ipInputWith
  rw [hip, hip']
  refine .bind_same Alike.refl fun call t hcheck => ?_
  have hlearned : Learned s t := by
    have := ipCheck_learned (some src) ip m s
    rwa [hcheck] at this
  obtain _ | call := call
  · exact .pure (.refl t) (.silent le_rfl m hput)
  obtain ⟨hacc, isLocal, hcall⟩ := ipCheck_accepts hcheck
  have hsize := size_ipDispatch hacc isLocal
  rw [← hcall] at hsize
  have hin := hin call t hcheck
  have hlen := ip.ipLen.toNat_lt
  rcases call with ⟨code, size⟩ | size | ⟨proto, size⟩
  · exact .pure (.refl t) (unreachable_agree hput (by rw [hload]) hacc.2.1 hin code size)
  · have hfrag : Agree (fragSize ip) (shift (put b 0 ip.bytes) (ipHdrHlen ip))
        (shift (put b' 0 ip.bytes) (ipHdrHlen ip)) :=
      (hput.shift _).mono (by rw [← hacc.2.2]; rfl)
    unfold ipCall
    rw [ipFragmentInput_congr env hfrag]
    exact .bind_same Alike.refl fun _ u _ => .pure (.refl u) (.silent le_rfl m hput)
  · rw [size_handler, sub64_of_le hm (by rw [← hacc.2.2]; omega)] at hsize
    subst hsize
    exact callHandler_two env proto hput hload hacc.2.1 hm t (hin.of_learned env hlearned hacc.2.1)

/-! ### `arp_input` -/

/-- The message is not for this stack. -/
def ArpRefused (b : Buf) : Prop :=
  (arpNtoh (ArpIp.load b)).arpHtype ≠ arpHtypeEther ∨ (arpNtoh (ArpIp.load b)).arpPtype ≠ etherProtoIpv4

theorem arpInput_refused (h : ArpRefused b) (bsize : ℕ) :
    arpInput env b bsize = pure (-EPROTOTYPE, b) := by
  unfold arpInput
  dsimp only
  rcases h with h | h
  · rw [if_pos h]
  · rw [if_pos h]
    split_ifs <;> rfl

theorem macLoad_congr (h : Agree m b b') (hm : o + 6 ≤ m) : macLoad b o = macLoad b' o := by
  funext i
  exact h _ (by omega)

/-- The fields before the target of a message are read from 18 bytes. -/
theorem arpLoad_sender (h : Agree m b b') (hm : 18 ≤ m) :
    (ArpIp.load b).arpHtype = (ArpIp.load b').arpHtype ∧
      (ArpIp.load b).arpPtype = (ArpIp.load b').arpPtype ∧
      (ArpIp.load b).arpOper = (ArpIp.load b').arpOper ∧
      (ArpIp.load b).arpSha = (ArpIp.load b').arpSha ∧
      (ArpIp.load b).arpSpa = (ArpIp.load b').arpSpa :=
  ⟨h.rd16 (by omega), h.rd16 (by omega), h.rd16 (by omega), macLoad_congr h (by omega),
    h.rd32 (by omega)⟩

theorem arpLoad_congr (h : Agree m b b') (hm : 28 ≤ m) : ArpIp.load b = ArpIp.load b' := by
  unfold ArpIp.load
  rw [h 4 (by omega), h 5 (by omega), h.rd16 (o := 0) (by omega), h.rd16 (o := 2) (by omega),
    h.rd16 (o := 6) (by omega), h.rd32 (o := 14) (by omega), h.rd32 (o := 24) (by omega),
    macLoad_congr (o := 8) h (by omega), macLoad_congr (o := 18) h (by omega)]

theorem arpReply_agree (h : Agree m b b') (hm : 18 ≤ m) (arp : ArpIp) (sha : Option MacAddr)
    (iface : InAddr) : Agree m (arpReply b arp sha iface) (arpReply b' arp sha iface) := by
  have hput := ((h.put 6 (le16 (swap16 arpOperReply))).put 8 (macBytes (sha.getD arp.arpSha))).put 18
    (macBytes arp.arpSha)
  unfold arpReply
  dsimp only
  rw [hput.rd32 (o := 14) (by omega)]
  exact (hput.put _ _).put _ _

/-- `arp_input` on a message that has been received as a whole. -/
theorem arpInput_two (h : Agree m b b') (hm : arpIpSize ≤ m) (s : Stack) :
    Rel Alike (Same m m) (arpInput env b m) (arpInput env b' m) s s := by
  have hsize : arpIpSize = 28 := rfl
  unfold arpInput
  rw [arpLoad_congr h (by omega)]
  refine .ite (fun _ => .pure (.refl s) (.silent (by decide) m h)) fun _ =>
    .ite (fun _ => .pure (.refl s) (.silent (by decide) m h)) fun _ => ?_
  refine .bind_same Alike.refl fun _ t _ => .bind_same Alike.refl fun _ u _ => ?_
  refine .ite (fun _ => ?_) fun _ => .pure (.refl u) (.silent le_rfl m h)
  refine .bind_same Alike.refl fun route v _ => ?_
  cases route with
  | none => exact .pure (.refl v) (.silent le_rfl m h)
  | some route =>
    exact .bind_same Alike.refl fun sha w _ =>
      .pure (.refl w) ⟨rfl, le_rfl, arpReply_agree h (by omega) _ _ _⟩

/-- `arp_input` on a message that is no request, when its sender has been received. -/
theorem arpInput_other (h : Agree m b b') (hm : 18 ≤ m)
    (hoper : (arpNtoh (ArpIp.load b)).arpOper ≠ arpOperRequest) (s : Stack) :
    Rel Alike (Same m m) (arpInput env b m) (arpInput env b' m) s s := by
  obtain ⟨h1, h2, h3, h4, h5⟩ := arpLoad_sender h hm
  have hhtype : (arpNtoh (ArpIp.load b')).arpHtype = (arpNtoh (ArpIp.load b)).arpHtype :=
    congrArg swap16 h1.symm
  have hptype : (arpNtoh (ArpIp.load b')).arpPtype = (arpNtoh (ArpIp.load b)).arpPtype :=
    congrArg swap16 h2.symm
  have hoper' : (arpNtoh (ArpIp.load b')).arpOper = (arpNtoh (ArpIp.load b)).arpOper :=
    congrArg swap16 h3.symm
  have hsha : (arpNtoh (ArpIp.load b')).arpSha = (arpNtoh (ArpIp.load b)).arpSha := h4.symm
  have hspa : (arpNtoh (ArpIp.load b')).arpSpa = (arpNtoh (ArpIp.load b)).arpSpa :=
    congrArg swap32 h5.symm
  unfold arpInput
  dsimp only
  rw [hhtype, hptype, hoper', hsha, hspa]
  refine .ite (fun _ => .pure (.refl s) (.silent (by decide) m h)) fun _ =>
    .ite (fun _ => .pure (.refl s) (.silent (by decide) m h)) fun _ => ?_
  refine .bind_same Alike.refl fun _ t _ => .bind_same Alike.refl fun _ u _ => ?_
  rw [if_neg hoper, if_neg hoper]
  exact .pure (.refl u) (.silent le_rfl m h)

end Xstack.Net.TwoRuns
