import Xstack.Net.Daemon
import Xstack.Net.Leak

/-! # Where a reply is written, and how long it is

The input functions work on `rx_buffer` in place. Whatever a frame claims in its headers, they write into
the first 128 bytes only (`Beyond`), and what they return is at most the size of the frame, or 120
(`ipInputWith_reply`, `arpInput_reply`). So no frame makes the daemon write behind `rx_buffer`, and no
reply is refused by `ether_send` for its size (`receive_safe`). -/

namespace Xstack.Net.Replies

open Xstack.Config Xstack.Lib.Bytes Xstack.Lib.Program Xstack.Ether Xstack.Arp.Cache
open Xstack.Ip.Header Xstack.Ip.Fragment Xstack.Ip.Route Xstack.Tcp Xstack.Udp
open Xstack.Net.State Xstack.Net.Send Xstack.Net.Input Xstack.Net.TwoRuns Xstack.Net.Leak
open Xstack.Net.Daemon

/-- The buffers are the same from byte `n` on. -/
def Beyond (n : ℕ) (b c : Buf) : Prop := ∀ i, n ≤ i → c i = b i

variable {n m o bsize : ℕ} {b c d : Buf} {l : List UInt8} {r : ℤ} {ip : IpHdr} {env : Env}

theorem Beyond.refl (n : ℕ) (b : Buf) : Beyond n b b := fun _ _ => rfl

theorem Beyond.trans (h : Beyond n b c) (h' : Beyond n c d) : Beyond n b d := fun i hi =>
  (h' i hi).trans (h i hi)

theorem Beyond.mono (h : Beyond n b c) (hm : n ≤ m) : Beyond m b c := fun i hi => h i (by omega)

theorem beyond_put (b : Buf) (h : o + l.length ≤ n) : Beyond n b (put b o l) := fun i hi =>
  put_outside (Or.inr (by omega))

theorem beyond_ipHton (b : Buf) (host : IpHdr) (h : o + 20 ≤ n) : Beyond n b (ipHton b o host) :=
  fun i hi => ipHton_outside (Or.inr (by omega))

/-! ### The handlers -/

/-- A result that is at most `n`, or minus an error number, with nothing written from byte 128 on. -/
structure Reply (n : ℕ) (b : Buf) (x : ℤ × Buf) : Prop where
  ge : -128 ≤ x.1
  le : x.1 ≤ n
  beyond : Beyond 128 b x.2

theorem Reply.of_nonpos (h : -128 ≤ r) (hr : r ≤ 0) (hc : Beyond 128 b c) : Reply n b (r, c) :=
  ⟨h, by show r ≤ _; omega, hc⟩

theorem Reply.mono {x : ℤ × Buf} (h : Reply m b x) (hm : m ≤ n) : Reply n b x :=
  ⟨h.ge, by have := h.le; omega, h.beyond⟩

theorem Reply.after {x : ℤ × Buf} (h : Reply n c x) (hc : Beyond 128 b c) : Reply n b x :=
  ⟨h.ge, h.le, hc.trans h.beyond⟩

/-- `icmp_input` has turned a request into the answer, which has its size. -/
structure EchoAnswer (o bsize : ℕ) (b : Buf) (r : ℤ) (c : Buf) : Prop where
  size : r = bsize
  le : bsize ≤ ipMaxBytes
  request : b o = icmpTypeEchoRequest
  reply : c o = icmpTypeEchoReply

theorem icmpInput_reply (ho : o ≤ 60) (h : icmpInput b o bsize = some (r, c)) :
    -128 ≤ r ∧ (r ≤ 0 ∨ EchoAnswer o bsize b r c) ∧ Beyond 128 b c := by
  have hbad : EBADMSG = 74 := rfl
  have hmsg : ENOMSG = 42 := rfl
  unfold icmpInput at h
  split_ifs at h with h1 h2 h3
  · obtain ⟨rfl, rfl⟩ := Prod.mk.inj (Option.some.inj h)
    exact ⟨by omega, Or.inl (by omega), .refl _ _⟩
  · obtain ⟨rfl, rfl⟩ := Prod.mk.inj (Option.some.inj h)
    have htype : put b o [icmpTypeEchoReply] o = icmpTypeEchoReply :=
      put_of_lt (b := b) (o := o) (l := [icmpTypeEchoReply]) (i := 0) Nat.one_pos
    refine ⟨by omega, Or.inr ⟨rfl, by omega, h2, ?_⟩, ?_⟩
    · rwa [put_outside (by omega), put_outside (by omega)]
    refine (beyond_put b ?_).trans ((beyond_put _ ?_).trans (beyond_put _ ?_))
    · simp only [List.length_singleton]
      omega
    · rw [length_le16]
      omega
    · rw [length_le16]
      omega
  · obtain ⟨rfl, rfl⟩ := Prod.mk.inj (Option.some.inj h)
    exact ⟨by omega, Or.inl (by omega), .refl _ _⟩

theorem tcpFsm_bounds (conn : TcpConn) (rs : TcpHdr) :
    -128 ≤ (tcpFsm conn rs).1 ∧ (tcpFsm conn rs).1 ≤ 60 := by
  have hinval : EINVAL = 22 := rfl
  have hsize : -128 ≤ tcpHdrSize rs ∧ tcpHdrSize rs ≤ 60 := by
    unfold tcpHdrSize
    split_ifs
    · omega
    · omega
  rcases tcpFsm_cases conn rs with ⟨_, h⟩ | h | ⟨_, _, _, _, _, h⟩
  · rw [h]
    show (-128 : ℤ) ≤ 0 ∧ (0 : ℤ) ≤ 60
    omega
  · rw [h]
    show -128 ≤ -EINVAL ∧ -EINVAL ≤ 60
    omega
  · rw [h]
    exact hsize

theorem tcpInput_reply {mc : Lib.Lex.Memcmp} {t t' : TcpMap} (ho : o ≤ 60)
    (h : t.tcpInput mc ip b o bsize = some (r, t', c)) : Reply 60 b (r, c) := by
  have hbad : EBADMSG = 74 := rfl
  have hinval : EINVAL = 22 := rfl
  have hhdr : ∀ (b : Buf) (tcp : TcpHdr), Beyond 128 b (put b o tcp.bytes) := fun b tcp =>
    beyond_put b (by rw [show tcp.bytes.length = 20 from rfl]; omega)
  let x : Tcp.Conn.Seg := ⟨ip, b, o, bsize⟩
  have hx : Tcp.Conn.input mc t x = some (r, t', c) := h
  rw [Tcp.Conn.input_eq] at hx
  split_ifs at hx
  · obtain ⟨rfl, -, rfl⟩ : -EBADMSG = r ∧ t = t' ∧ b = c := by simpa using hx
    exact .of_nonpos (by omega) (by omega) (.refl _ _)
  · obtain ⟨found, -, hfound⟩ := Option.map_eq_some_iff.mp hx
    cases found with
    | none =>
      obtain ⟨rfl, -, rfl⟩ : -EINVAL = r ∧ t = t' ∧ put b o x.hdr.bytes = c := by simpa using hfound
      exact .of_nonpos (by omega) (by omega) (hhdr _ _)
    | some found =>
      obtain ⟨i, m₁⟩ := found
      dsimp only at hfound
      have hfst := (Tcp.Conn.answer_fst m₁ x i).1
      rw [hfound] at hfst
      have hr : r = (tcpFsm (m₁.conn i) x.hdr).1 := hfst
      have hbounds := tcpFsm_bounds (m₁.conn i) x.hdr
      rw [← hr] at hbounds
      refine ⟨hbounds.1, hbounds.2, ?_⟩
      unfold Tcp.Conn.answer at hfound
      dsimp only at hfound
      split_ifs at hfound
      · obtain ⟨-, -, rfl⟩ : _ ∧ _ ∧ _ = c := by simpa using hfound
        refine ((hhdr b _).trans (hhdr _ _)).trans ((hhdr _ _).trans (beyond_put _ ?_))
        rw [length_le16]
        show o + 16 + 2 ≤ 128
        omega
      · obtain ⟨-, -, rfl⟩ : _ ∧ _ ∧ _ = c := by simpa using hfound
        exact (hhdr b _).trans (hhdr _ _)

theorem udpInput_reply {mc : Lib.Lex.Memcmp} {t t' : UdpTable} (ho : o ≤ 60)
    (h : t.udpInput mc ip b o bsize = some (r, t', c)) : Reply 0 b (r, c) := by
  have hbad : EBADMSG = 74 := rfl
  have hsock : ENOTSOCK = 88 := rfl
  have hhdr : ∀ udp : UdpHdr, Beyond 128 b (put b o udp.bytes) := fun udp =>
    beyond_put b (by rw [show udp.bytes.length = 8 from rfl]; omega)
  unfold UdpTable.udpInput at h
  by_cases hsize : bsize < udpHdrSize
  · rw [if_pos hsize] at h
    obtain ⟨rfl, -, rfl⟩ : -EBADMSG = r ∧ _ ∧ b = c := by simpa using h
    exact .of_nonpos (by omega) (by omega) (.refl _ _)
  · rw [if_neg hsize] at h
    obtain ⟨found, -, h⟩ := Option.bind_eq_some_iff.mp h
    cases found with
    | none =>
      obtain ⟨rfl, -, rfl⟩ : -ENOTSOCK = r ∧ _ ∧ _ = c := by simpa using h
      exact .of_nonpos (by omega) (by omega) (hhdr _)
    | some i =>
      dsimp only at h
      split_ifs at h
      · cases h
      obtain ⟨shmem, -, h⟩ := Option.bind_eq_some_iff.mp h
      obtain ⟨rfl, -, rfl⟩ : 0 = r ∧ _ ∧ _ = c := by simpa using h
      exact .of_nonpos (by omega) le_rfl (hhdr _)

/-- What `ip_input` gets from a handler. -/
theorem protoInput_reply {proto : Proto} {s t : Stack} (ho : o ≤ 60)
    (h : protoInput env proto ip b o bsize s = (some (r, c), t)) :
    -128 ≤ r ∧ (r ≤ 60 ∨ (proto = .icmp ∧ EchoAnswer o bsize b r c)) ∧ Beyond 128 b c := by
  unfold protoInput at h
  rw [get_bind] at h
  cases proto with
  | icmp =>
    rcases hrun : icmpInput b o bsize with _ | ⟨r', c'⟩
    · rw [hrun] at h
      cases h
    · rw [hrun] at h
      obtain ⟨rfl, rfl⟩ : r' = r ∧ c' = c := by simpa using (Prod.mk.inj h).1
      obtain ⟨hge, hr, hc⟩ := icmpInput_reply ho hrun
      exact ⟨hge, hr.imp (fun hr => by omega) fun he => ⟨rfl, he⟩, hc⟩
  | tcp =>
    rcases hrun : s.tcp.tcpInput env.mc ip b o bsize with _ | ⟨r', tcp, c'⟩
    · simp only [hrun] at h
      cases h
    · simp only [hrun] at h
      obtain ⟨rfl, rfl⟩ : r' = r ∧ c' = c := by simpa using (Prod.mk.inj h).1
      have hreply := tcpInput_reply ho hrun
      exact ⟨hreply.ge, Or.inl hreply.le, hreply.beyond⟩
  | udp =>
    rcases hrun : s.udp.udpInput env.mc ip b o bsize with _ | ⟨r', udp, c'⟩
    · simp only [hrun] at h
      cases h
    · simp only [hrun] at h
      obtain ⟨rfl, rfl⟩ : r' = r ∧ c' = c := by simpa using (Prod.mk.inj h).1
      have hreply := udpInput_reply ho hrun
      exact ⟨hreply.ge, Or.inl (hreply.le.trans (by decide)), hreply.beyond⟩

theorem unreachable_reply (code : UInt8) (h20 : 20 ≤ o) (ho : o ≤ 60) :
    Reply 120 b (icmpGenerateDestUnreachable b code o bsize) := by
  have hq := quoted_le bsize
  have hsize : (icmpGenerateDestUnreachable b code o bsize).1 = ((92 + 2 * quoted bsize : ℕ) : ℤ) := by
    rw [icmpGenerateDestUnreachable_eq]
  exact ⟨by rw [hsize]; omega, by rw [hsize]; omega, fun i hi => unreachable_raw b code h20 (by omega)⟩

/-- The payload of a packet of `n` bytes, in the arithmetic of `size_t`. -/
theorem sub64_cases {n o : ℕ} (ho : o ≤ 60) (hn : n ≤ ipMaxBytes) :
    (o ≤ n ∧ sub64 n o = n - o) ∨ ipMaxBytes < sub64 n o := by
  unfold ipMaxBytes at hn ⊢
  unfold sub64
  omega

/-- An answer to an echo request has the size of the packet. -/
theorem EchoAnswer.total {h : ℕ} (hle : h ≤ 60) (hn : n ≤ ipMaxBytes) (hr : EchoAnswer h (sub64 n h) b r c) :
    r + h = n := by
  have hsize := hr.size
  have hmax := hr.le
  have hcases := sub64_cases hle hn
  omega

/-- **What `ip_input` makes of the result of a handler,** for a packet with header `ip` in `b`. -/
inductive HandlerReply (ip : IpHdr) (proto : Proto) (size : ℕ) (b : Buf) : ℤ × Buf → Prop
  | answer {r : ℤ} {c : Buf} (hpos : 0 < r)
      (hr : r ≤ 60 ∨ (proto = .icmp ∧ EchoAnswer (ipHdrHlen ip) size b r c)) (hload : IpHdr.load c = ip)
      (hbc : Beyond 128 b c) : HandlerReply ip proto size b (r + ipHdrHlen ip, (ipReplyHeader c r.toNat).2)
  | error {c : Buf} (hload : IpHdr.load c = ip) (hbc : Beyond 128 b c) :
      HandlerReply ip proto size b (icmpGenerateDestUnreachable c icmpCodePortunreac (ipHdrHlen ip) size)
  | silent {r : ℤ} {c : Buf} (hge : -128 ≤ r) (hr : r ≤ 0) (hbc : Beyond 128 b c) :
      HandlerReply ip proto size b (r, c)

theorem callHandler_cases {proto : Proto} {size : ℕ} {s t : Stack} {x : ℤ × Buf} (hload : IpHdr.load b = ip)
    (h20 : 20 ≤ ipHdrHlen ip) (h : callHandler env proto ip b size s = (some x, t)) :
    HandlerReply ip proto size b x := by
  rcases hrun : protoInput env proto ip b (ipHdrHlen ip) size (withCall s ip b size) with ⟨_ | ⟨r, c⟩, u⟩
  · rw [callHandler_of_none env hrun] at h
    cases h
  · obtain ⟨hge, hr, hbc⟩ := protoInput_reply (ipHdrHlen_le ip) hrun
    have hhdr : IpHdr.load c = ip := by
      rw [← IpHdr.load_congr (protoInput_spec env hrun).1 h20, hload]
    rw [callHandler_of_some env hrun] at h
    have hx := Option.some.inj (Prod.mk.inj h).1
    split_ifs at hx with hpos habs
    · have hsize : (((ipReplyHeader c r.toNat).1 : ℕ) : ℤ) = r + ipHdrHlen ip := by
        show ((r.toNat + ipHdrHlen (IpHdr.load c) : ℕ) : ℤ) = _
        rw [hhdr]
        omega
      rw [← hx, hsize]
      exact .answer hpos hr hhdr hbc
    · rw [← hx]
      exact .error hhdr hbc
    · rw [← hx]
      exact .silent hge (by omega) hbc

/-- **A protocol handler and the header of its reply.** -/
theorem HandlerReply.reply {proto : Proto} {x : ℤ × Buf} (h20 : 20 ≤ ipHdrHlen ip) (hn : n ≤ ipMaxBytes)
    (h : HandlerReply ip proto (sub64 n (ipHdrHlen ip)) b x) : Reply (max 120 n) b x := by
  have hle := ipHdrHlen_le ip
  cases h with
  | answer hpos hr hload hbc =>
    refine ⟨by dsimp only; omega, ?_, hbc.trans (beyond_ipHton _ _ (by omega))⟩
    dsimp only
    rcases hr with hr | ⟨-, hr⟩
    · omega
    · rw [hr.total hle hn]
      omega
  | error hload hbc =>
    exact ((unreachable_reply icmpCodePortunreac h20 hle).mono (le_max_left _ _)).after hbc
  | silent hge hr hbc => exact .of_nonpos hge hr hbc

/-- **What `ip_input` returns** for a packet with header `ip`, with the routing table `rib`. -/
inductive IpReply (rib : Rib) (ip : IpHdr) (n : ℕ) (b : Buf) : ℤ × Buf → Prop
  | none : IpReply rib ip n b (0, put b 0 ip.bytes)
  | unreachable (code : UInt8) (hacc : ipAccepts ip n) : IpReply rib ip n b
      (icmpGenerateDestUnreachable (put b 0 ip.bytes) code (ipHdrHlen ip) (sub64 n (ipHdrHlen ip)))
  | handler {proto : Proto} {x : ℤ × Buf} (hacc : ipAccepts ip n) (hwhole : ipFragmentIsFrag ip = false)
      (hproto : findProto ip.ipProto = some proto)
      (hlocal : ∃ route, rib.ipRouteFindByIface ip.ipDst = some (some route))
      (hx : HandlerReply ip proto (sub64 n (ipHdrHlen ip)) (put b 0 ip.bytes) x) : IpReply rib ip n b x

/-- A call of a handler is for a whole packet with its protocol. -/
theorem handler_dispatch {proto : Proto} {size : ℕ} {isLocal : Bool}
    (h : Dispatch.handler proto size = ipDispatch ip n isLocal) :
    ipFragmentIsFrag ip = false ∧ findProto ip.ipProto = some proto := by
  unfold ipDispatch at h
  split_ifs at h with hlocal hfrag
  rcases hfind : findProto ip.ipProto with _ | proto'
  · rw [hfind] at h
    cases h
  · rw [hfind] at h
    refine ⟨Bool.eq_false_iff.mpr hfrag, ?_⟩
    rw [(Dispatch.handler.inj h).1]

/-- A search for a route that returns. -/
theorem ipRouteFindByIface_returned {addr : InAddr} {found : Option IpRoute} {s t : Stack}
    (h : State.ipRouteFindByIface addr s = (some found, t)) :
    s.rib.ipRouteFindByIface addr = some found ∧ t.rib = s.rib := by
  unfold State.ipRouteFindByIface at h
  rw [get_bind] at h
  obtain ⟨found', u, h1, h2⟩ := returned h
  obtain ⟨hfind, rfl⟩ := returned_ofOption h1
  rw [hfind]
  dsimp only at h2
  split_ifs at h2
  · obtain ⟨heq, rfl⟩ := Prod.mk.inj h2
    exact ⟨congrArg some (Option.some.inj heq), rfl⟩
  · obtain ⟨heq, rfl⟩ := Prod.mk.inj h2
    exact ⟨congrArg some (Option.some.inj heq), rfl⟩

/-- `ip_input` calls a handler for the address of an interface only. -/
theorem ipCheck_handler {src : Option MacAddr} {ip : IpHdr} {proto : Proto} {size : ℕ} {s t : Stack}
    (h : ipCheck src ip n s = (some (some (.handler proto size)), t)) :
    findProto ip.ipProto = some proto ∧ ∃ route, t.rib.ipRouteFindByIface ip.ipDst = some (some route) := by
  unfold ipCheck at h
  split_ifs at h
  · obtain ⟨_, u, h1, h2⟩ := returned h
    obtain ⟨route, v, h3, h4⟩ := returned h2
    obtain ⟨heq, rfl⟩ := Prod.mk.inj h4
    have hcall := Option.some.inj (Option.some.inj heq)
    rcases route with _ | route
    · unfold ipDispatch at hcall
      simp at hcall
    · obtain ⟨hfind, hrib⟩ := ipRouteFindByIface_returned h3
      refine ⟨(handler_dispatch hcall.symm).2, route, ?_⟩
      rw [hrib, hfind]
  · cases h

/-- A packet that is not dropped is answered by what `ip_input` calls. -/
theorem ipInputWith_cases {fragmentInput : IpHdr → Buf → Act ℤ} {src : Option MacAddr} {s t : Stack}
    {x : ℤ × Buf} (h : ipInputWith env fragmentInput src b n s = (some x, t)) :
    IpReply s.rib (hdrOf src b) n b x := by
  set ip := hdrOf src b
  unfold ipInputWith at h
  rcases hcheck : ipCheck src ip n s with ⟨_ | _ | call, u⟩
  · rw [bind_of_none hcheck] at h
    cases h
  · rw [bind_of_some hcheck] at h
    obtain rfl : (0, put b 0 ip.bytes) = x := Option.some.inj (Prod.mk.inj h).1
    exact .none
  · rw [bind_of_some hcheck] at h
    obtain ⟨hacc, isLocal, hcall⟩ := Validate.ipCheck_accepts hcheck
    have hsize := Validate.size_ipDispatch hacc isLocal
    rw [← hcall] at hsize
    rcases call with ⟨code, size⟩ | size | ⟨proto, size⟩
    · obtain rfl : size = sub64 n (ipHdrHlen ip) := hsize
      obtain rfl : icmpGenerateDestUnreachable (put b 0 ip.bytes) code (ipHdrHlen ip) _ = x :=
        Option.some.inj (Prod.mk.inj h).1
      exact .unreachable code hacc
    · rcases hfrag : fragmentInput ip (shift (put b 0 ip.bytes) (ipHdrHlen ip)) u with ⟨_ | _, v⟩
      · have hrun : (none, v) = (some x, t) := (bind_of_none hfrag).symm.trans h
        cases hrun
      · have hrun : (some (0, put b 0 ip.bytes), v) = (some x, t) := (bind_of_some hfrag).symm.trans h
        obtain rfl : (0, put b 0 ip.bytes) = x := Option.some.inj (Prod.mk.inj hrun).1
        exact .none
    · obtain rfl : size = sub64 n (ipHdrHlen ip) := hsize
      obtain ⟨hwhole, hproto⟩ := handler_dispatch hcall
      have hrib : u.rib = s.rib := by
        have hlearn := Validate.ipCheck_learned src ip n s
        rw [hcheck] at hlearn
        obtain ⟨_, _, rfl⟩ := hlearn
        rfl
      have hlocal := (ipCheck_handler hcheck).2
      rw [hrib] at hlocal
      exact .handler hacc hwhole hproto hlocal (callHandler_cases (IpHdr.load_put b ip) hacc.2.1 h)

/-- **`ip_input`.** -/
theorem ipInputWith_reply {fragmentInput : IpHdr → Buf → Act ℤ} {src : Option MacAddr} {s t : Stack}
    {x : ℤ × Buf} (h : ipInputWith env fragmentInput src b n s = (some x, t)) :
    Reply (max 120 n) b x := by
  have hcases := ipInputWith_cases h
  set ip := hdrOf src b
  have hput : Beyond 128 b (put b 0 ip.bytes) := beyond_put b (by simp)
  cases hcases with
  | none => exact .of_nonpos (by decide) le_rfl hput
  | unreachable code hacc =>
    exact ((unreachable_reply code hacc.2.1 (ipHdrHlen_le ip)).mono (le_max_left _ _)).after hput
  | handler hacc hwhole hproto hlocal hx =>
    refine (hx.reply hacc.2.1 ?_).after hput
    rw [← hacc.2.2]
    have := ip.ipLen.toNat_lt
    unfold ipMaxBytes
    omega

theorem arpReply_beyond (arp : ArpIp) (sha : Option MacAddr) (iface : InAddr) :
    Beyond 128 b (arpReply b arp sha iface) := by
  unfold arpReply
  refine (beyond_put b ?_).trans ((beyond_put _ ?_).trans ((beyond_put _ ?_).trans ((beyond_put _ ?_).trans
    (beyond_put _ ?_))))
  all_goals simp [macBytes]

/-- **`arp_input`.** -/
theorem arpInput_reply {s t : Stack} {x : ℤ × Buf} (h : arpInput env b n s = (some x, t)) :
    Reply n b x := by
  have hens : Ensures (fun _ => True) (arpInput env b n) (Reply n b) := by
    have hzero : Reply n b (0, b) := .of_nonpos (by decide) le_rfl (.refl _ _)
    have hproto : Reply n b (-EPROTOTYPE, b) := .of_nonpos (by decide) (by decide) (.refl _ _)
    unfold arpInput
    refine .ite (fun _ => .pure hproto) fun _ => .ite (fun _ => .pure hproto) fun _ => ?_
    refine .seq (.of_any _) fun _ => .seq (.of_any _) fun _ => .ite (fun _ => ?_) fun _ => .pure hzero
    refine .seq (.of_any _) fun route => ?_
    cases route with
    | none => exact .pure hzero
    | some route => exact .seq (.of_any _) fun sha => .pure ⟨by omega, le_rfl, arpReply_beyond _ _ _⟩
  have hx := (hens s trivial).2
  rw [h] at hx
  exact hx x rfl

/-! ### Frames -/

/-- **`ether_input`** on a frame whose data fits. -/
theorem etherInput_reply {hdr : EtherHdr} {s t : Stack} {x : ℤ × Buf} (hn : 120 ≤ n)
    (hm : m ≤ n) (h : etherInput env hdr b m s = (some x, t)) : Reply n b x := by
  have herr : ∀ c, Beyond 128 b c → Reply n b (-1, c) := fun c => .of_nonpos (by decide) (by decide)
  unfold etherInput at h
  rcases hfn : etherProtoInput env hdr b m with _ | fn
  · rw [hfn] at h
    obtain rfl : (-1, b) = x := Option.some.inj (Prod.mk.inj h).1
    exact herr b (.refl _ _)
  · rw [hfn] at h
    dsimp only at h
    rcases hrun : fn s with ⟨_ | y, u⟩
    · rw [bind_of_none hrun] at h
      cases h
    · have hy : Reply n b y := by
        unfold etherProtoInput at hfn
        split_ifs at hfn
        · obtain rfl := Option.some.inj hfn
          exact (arpInput_reply hrun).mono hm
        · obtain rfl := Option.some.inj hfn
          exact (ipInputWith_reply hrun).mono (by omega)
      rw [bind_of_some hrun] at h
      split_ifs at h
      · obtain rfl : (-1, y.2) = x := Option.some.inj (Prod.mk.inj h).1
        exact herr _ hy.beyond
      · obtain rfl : (y.1, y.2) = x := Option.some.inj (Prod.mk.inj h).1
        exact hy

/-- What `ether_receive` leaves in the buffer. -/
theorem etherReceive_beyond {mac : MacAddr} {rx : Buf} {hdr : EtherHdr} : ∀ {frames : List (List UInt8)},
    etherReceive mac rx etherMaxlen frames = some (some (hdr, b, n)) → Beyond etherDataLen rx b
  | [], h => by cases h
  | frame :: frames, h => by
    have hsize := etherReceive_size h
    unfold etherReceive at h
    dsimp only at h
    split_ifs at h
    · exact etherReceive_beyond h
    · obtain ⟨-, rfl, rfl⟩ : _ ∧ _ = b ∧ _ = n := by simpa using h
      refine beyond_put rx ?_
      rw [slice_length]
      omega

/-- **One frame:** the reply fits a frame and is sent, and nothing is written behind the data of a frame. -/
theorem receive_safe {s t : Stack} {frames : List (List UInt8)} {rx : Buf} {hdr : EtherHdr}
    (hrecv : etherReceive s.mac rx etherMaxlen frames = some (some (hdr, b, n)))
    (h : etherInput env hdr b n s = (some (r, c), t)) : Beyond etherDataLen rx c ∧
      (0 < r → r ≤ etherDataLen ∧ (etherOutputReply env hdr c r.toNat t).2.tx =
        t.tx ++ [etherFrame hdr.hSrc t.mac hdr.hProto (slice c r.toNat)]) := by
  have hn := etherReceive_size hrecv
  have hrx := etherReceive_beyond hrecv
  have hreply := etherInput_reply (n := etherDataLen) (by decide) hn h
  have hr : r ≤ (etherDataLen : ℤ) := hreply.le
  refine ⟨hrx.trans (hreply.beyond.mono (by decide)), fun hpos => ⟨hr, etherOutputReply_tx hdr ?_⟩⟩
  omega

theorem ingressTurn_beyond {s t : Stack} {frames : List (List UInt8)} {rx : Buf}
    (h : ingressTurn env frames rx s = (some c, t)) : Beyond etherDataLen rx c := by
  unfold ingressTurn at h
  rw [get_bind] at h
  rcases hrecv : etherReceive s.mac rx etherMaxlen frames with _ | _ | ⟨hdr, b, n⟩
  · rw [hrecv] at h
    cases h
  · rw [hrecv] at h
    obtain rfl : rx = c := Option.some.inj (Prod.mk.inj h).1
    exact .refl _ _
  · rw [hrecv] at h
    dsimp only at h
    split_ifs at h
    · rcases hrun : etherInput env hdr b n s with ⟨_ | ⟨r, d⟩, u⟩
      · rw [bind_of_none hrun] at h
        cases h
      · have hd := (receive_safe hrecv hrun).1
        rw [bind_of_some hrun] at h
        dsimp only at h
        split_ifs at h
        · rcases hout : etherOutputReply env hdr d r.toNat u with ⟨_ | _, v⟩
          · rw [bind_of_none hout] at h
            cases h
          · rw [bind_of_some hout] at h
            obtain rfl : d = c := Option.some.inj (Prod.mk.inj h).1
            exact hd
        · obtain rfl : d = c := Option.some.inj (Prod.mk.inj h).1
          exact hd
    · obtain rfl : b = c := Option.some.inj (Prod.mk.inj h).1
      exact etherReceive_beyond hrecv

theorem eq_of_bind_pure {α : Type} {x : Act α} {rx : Buf} {s : Stack}
    (h : ((x >>= fun _ => pure rx) s).1 = some c) : rx = c := by
  rcases hx : x s with ⟨_ | a, t⟩
  · rw [bind_of_none hx] at h
    cases h
  · rw [bind_of_some hx] at h
    exact Option.some.inj h

theorem step_beyond {setup : Setup} {p : Process} {turn : Turn} {rx : Buf} (h : p.rxBuffer = some rx)
    (h' : (p.step env setup turn).rxBuffer = some c) : Beyond etherDataLen rx c := by
  unfold Process.step Process.exec at h'
  rw [h] at h'
  have hsame : ∀ {x : Act Unit}, ((x >>= fun _ => pure rx) p.stack).1 = some c → Beyond etherDataLen rx c := by
    intro x hx
    obtain rfl := eq_of_bind_pure hx
    exact .refl _ _
  cases turn with
  | receive frames => exact ingressTurn_beyond (t := (ingressTurn env frames rx p.stack).2) (Prod.ext h' rfl)
  | tick deltaTime => exact hsame h'
  | egress i => exact hsame h'
  | sendto i buffer destAddr => exact hsame h'
  | recvfrom i r => exact hsame h'

theorem run_beyond {setup : Setup} (turns : List Turn) : ∀ {p : Process} {rx : Buf}, p.rxBuffer = some rx →
    (p.run env setup turns).rxBuffer = some c → Beyond etherDataLen rx c := by
  induction turns with
  | nil =>
    intro p rx h h'
    obtain rfl : rx = c := Option.some.inj (h.symm.trans h')
    exact .refl _ _
  | cons turn turns ih =>
    intro p rx h h'
    have hrun : ((p.step env setup turn).run env setup turns).rxBuffer = some c := h'
    rcases hstep : (p.step env setup turn).rxBuffer with _ | d
    · rw [Process.run_halted env setup turns hstep, hstep] at hrun
      cases hrun
    · exact (step_beyond h hstep).trans (ih hstep hrun)

/-- **In every run `rx_buffer` is written within the data of a frame only,** and every answer of the input
functions is sent: none is too long for `ether_send`. -/
theorem run_safe (env : Env) (setup : Setup) (turns : List Turn) (rx : Buf)
    (h : ((Process.boot env setup).run env setup turns).rxBuffer = some rx) :
    (∀ i, etherDataLen ≤ i → rx i = 0) ∧
    ∀ (s : Stack) (frames : List (List UInt8)) (hdr : EtherHdr) (b c : Buf) (n : ℕ) (r : ℤ) (t : Stack),
      etherReceive s.mac rx etherMaxlen frames = some (some (hdr, b, n)) →
      etherInput env hdr b n s = (some (r, c), t) → 0 < r → r ≤ etherDataLen ∧
        (etherOutputReply env hdr c r.toNat t).2.tx =
          t.tx ++ [etherFrame hdr.hSrc t.mac hdr.hProto (slice c r.toNat)] := by
  refine ⟨fun i hi => ?_, fun s frames hdr b c n r t hrecv hrun hpos => (receive_safe hrecv hrun).2 hpos⟩
  rcases hboot : (Process.boot env setup).rxBuffer with _ | zero
  · rw [Process.run_halted env setup turns hboot, hboot] at h
    cases h
  · have hzero : (fun _ => 0) = zero := eq_of_bind_pure hboot
    rw [run_beyond turns hboot h i hi, ← hzero]

/-- An ARP request of another host for the address of the interface. -/
def request : List UInt8 := etherFrame macBroadcastAddr (fun _ => 9) etherProtoArp
  (arpNtoh ⟨arpHtypeEther, etherProtoIpv4, 6, 4, arpOperRequest, fun _ => 9, 3, fun _ => 0, 167772162⟩).bytes

/-- The request comes twice, and is answered with the 60 bytes that `ether_receive` has returned for it. -/
theorem run_safe_request : ∃ p : Process, (Process.boot ⟨.ofSign, fun _ => 74⟩ (.xstack (fun _ => 1) 7)).run
      ⟨.ofSign, fun _ => 74⟩ (.xstack (fun _ => 1) 7) [.receive [request]] = p ∧
    ∃ rx, p.rxBuffer = some rx ∧ rx etherDataLen = 0 ∧
    ∃ hdr b n c t, etherReceive p.stack.mac rx etherMaxlen [request] = some (some (hdr, b, n)) ∧
      etherInput ⟨.ofSign, fun _ => 74⟩ hdr b n p.stack = (some (60, c), t) ∧
      (etherOutputReply ⟨.ofSign, fun _ => 74⟩ hdr c 60 t).2.tx =
        t.tx ++ [etherFrame hdr.hSrc t.mac hdr.hProto (slice c 60)] := by
  obtain ⟨p, hp⟩ : ∃ p, (Process.boot ⟨.ofSign, fun _ => 74⟩ (.xstack (fun _ => 1) 7)).run
    ⟨.ofSign, fun _ => 74⟩ (.xstack (fun _ => 1) 7) [.receive [request]] = p := ⟨_, rfl⟩
  have hreply : p.rxBuffer.bind (fun rx => ((etherReceive p.stack.mac rx etherMaxlen [request]).bind id).bind
      fun x => (etherInput ⟨.ofSign, fun _ => 74⟩ x.1 x.2.1 x.2.2 p.stack).1.map Prod.fst) = some 60 := by
    rw [← hp]
    decide +kernel
  obtain ⟨rx, hrx, hreply⟩ := Option.bind_eq_some_iff.mp hreply
  obtain ⟨⟨hdr, b, n⟩, hrecv, hinput⟩ := Option.bind_eq_some_iff.mp hreply
  obtain ⟨_, hrecv, rfl⟩ := Option.bind_eq_some_iff.mp hrecv
  obtain ⟨⟨r, c⟩, hfst, rfl⟩ := Option.map_eq_some_iff.mp hinput
  obtain ⟨t, hrun⟩ : ∃ t, etherInput ⟨.ofSign, fun _ => 74⟩ hdr b n p.stack = (some (60, c), t) :=
    ⟨_, Prod.ext hfst rfl⟩
  obtain ⟨hzero, hreplies⟩ := run_safe ⟨.ofSign, fun _ => 74⟩ (.xstack (fun _ => 1) 7)
    [.receive [request]] rx (by rw [hp]; exact hrx)
  exact ⟨p, hp, rx, hrx, hzero etherDataLen le_rfl, hdr, b, n, c, t, hrecv, hrun,
    (hreplies p.stack [request] hdr b c n 60 t hrecv hrun (by decide)).2⟩

end Xstack.Net.Replies
