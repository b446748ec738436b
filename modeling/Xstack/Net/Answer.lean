import Xstack.Net.Interop
import Xstack.Net.TwoRuns

/-! # The answer to a reassembled datagram

`ip_fragment_input` gives a complete datagram to `ip_input`, and what this returns to `ip_send`, as the
size of a payload. But for a reply `ip_input` returns the size of a packet, with its header, and else an
error or nothing, and `ip_send` is called in any case.

* `beforeSend`, `afterSend`: the completion branch is these two and one call of `ip_send` in between.
* `AsHandlerSays`: a reply is sent as it is, and nothing else. `Unanswered`: the condition.
* `answered_iff`: a handler's result is never answered as it should be. -/

namespace Xstack.Net.Answer

open Xstack.Config Xstack.Lib.Bytes Xstack.Lib.Program Xstack.Ip.Header Xstack.Ip.Fragment
open Xstack.Net.State Xstack.Net.Send Xstack.Net.Input Xstack.Net.Validate Xstack.Net.TwoRuns

/-- The arguments of a call of `ip_send`. -/
structure SendArgs where
  dst : InAddr
  proto : UInt8
  buf : Buf
  bsize : ℕ

variable (env : Env)

/-- The completion branch of `ip_fragment_input` up to its call of `ip_send`. -/
def beforeSend (i : Fin 4) : Act SendArgs := do
  let s ← get
  let p := s.pool.buf i
  let (retval, mem) ← ipInputWith env (fun _ _ => stuck) none (packetMem p) p.ipHdr.ipLen.toNat
  let hdr := ipNtoh (IpHdr.load mem)
  let payload := shift mem ipHdrSize
  modify fun s => { s with
    pool := s.pool.set i { s.pool.buf i with ipHdr := hdr, payload := payload } }
  return ⟨hdr.ipDst, hdr.ipProto, payload, toSize retval⟩

/-- The completion branch after the call. -/
def afterSend (i : Fin 4) : Act ℤ := do
  let s ← get
  let pool ← ofOption (s.pool.releasePacketBuffer i)
  modify fun s => { s with pool := pool }
  return 0

/-- **The completion branch calls `ip_send` once.** -/
theorem completeFragments_eq (i : Fin 4) : completeFragments env i = (do
    let a ← beforeSend env i
    let _ ← ipSend env a.dst a.proto a.buf a.bsize
    afterSend i) := by
  unfold beforeSend
  rw [bind_assoc]
  refine congrArg (get >>= ·) (funext fun s => ?_)
  rw [bind_assoc]
  rfl

/-- The calls of `ip_send` for the datagram in buffer `i`. -/
def sends (s : Stack) (i : Fin 4) : List SendArgs := (beforeSend env i s).1.toList

/-! ### The property and the condition -/

/-- The header of the datagram in buffer `i`. -/
def hdrIn (s : Stack) (i : Fin 4) : IpHdr := hdrOf none (packetMem (s.pool.buf i))

/-- The memory from this header on, as a handler gets it. -/
def memIn (s : Stack) (i : Fin 4) : Buf := put (packetMem (s.pool.buf i)) 0 (hdrIn s i).bytes

/-- The datagram in buffer `i` goes to a handler, which returns `r` and leaves `c` in the buffer. -/
def HandlerReturns (s : Stack) (i : Fin 4) (proto : Proto) (size : ℕ) (r : ℤ) (c : Buf) : Prop :=
  ∃ t u, ipCheck none (hdrIn s i) (s.pool.buf i).ipHdr.ipLen.toNat s =
      (some (some (.handler proto size)), t) ∧
    protoInput env proto (hdrIn s i) (memIn s i) (ipHdrHlen (hdrIn s i)) size
      (withCall t (hdrIn s i) (memIn s i) size) = (some (r, c), u)

/-- **The datagram is answered as the handler says.** -/
structure AsHandlerSays (s : Stack) (i : Fin 4) : Prop where
  /-- A reply goes to the sender, with the bytes that the handler has left. -/
  reply : ∀ proto size r c, HandlerReturns env s i proto size r c → 0 < r →
    ∃ a, sends env s i = [a] ∧ a.dst = (hdrIn s i).ipSrc ∧ a.proto = (hdrIn s i).ipProto ∧
      a.bsize = r.toNat ∧ Agree r.toNat a.buf (shift c (ipHdrHlen (hdrIn s i)))
  /-- Nothing, and an error without an ICMP message, is not sent. -/
  silent : ∀ proto size r c, HandlerReturns env s i proto size r c → r ≤ 0 → r ≠ -ENOTSOCK →
    sends env s i = []
  /-- A negative result is no size. -/
  sized : ∀ r c t, ipInputWith env (fun _ _ => stuck) none (packetMem (s.pool.buf i))
    (s.pool.buf i).ipHdr.ipLen.toNat s = (some (r, c), t) → r < 0 → sends env s i = []

/-- **The condition:** a handler that gets the datagram and returns is `udp_input`, without a socket. -/
def Unanswered (s : Stack) (i : Fin 4) : Prop :=
  ∀ proto size r c, HandlerReturns env s i proto size r c →
    NoSocket env s (hdrIn s i) (memIn s i) (ipHdrHlen (hdrIn s i)) size proto

variable {env} {s t : Stack} {i : Fin 4} {proto : Proto} {size : ℕ} {r : ℤ} {c : Buf}

/-! ### What is sent -/

/-- `ip_send` gets what `ip_input` returns. -/
theorem sends_of_ipInput (h : ipInputWith env (fun _ _ => stuck) none (packetMem (s.pool.buf i))
    (s.pool.buf i).ipHdr.ipLen.toNat s = (some (r, c), t)) : sends env s i =
      [⟨(ipNtoh (IpHdr.load c)).ipDst, (ipNtoh (IpHdr.load c)).ipProto, shift c ipHdrSize, toSize r⟩] := by
  have hrun : beforeSend env i s = (some _, _) := bind_of_some h
  unfold sends
  rw [hrun]
  rfl

/-- `ip_input` adds the size of the header to that of a reply. -/
theorem ipInputWith_handler (h : HandlerReturns env s i proto size r c) (hr : r ≠ -ENOTSOCK) :
    ∃ ret d t, ipInputWith env (fun _ _ => stuck) none (packetMem (s.pool.buf i))
        (s.pool.buf i).ipHdr.ipLen.toNat s = (some (ret, d), t) ∧ (0 < r → r < ret) ∧
      (r ≤ 0 → ret = r) := by
  obtain ⟨t, u, hcheck, hret⟩ := h
  obtain ⟨hacc, -⟩ := ipCheck_accepts hcheck
  have h20 := hacc.2.1
  have hload : IpHdr.load c = hdrIn s i := by
    rw [← IpHdr.load_congr (protoInput_spec env hret).1 h20]
    exact IpHdr.load_put _ _
  have hrun : ipInputWith env (fun _ _ => stuck) none (packetMem (s.pool.buf i))
      (s.pool.buf i).ipHdr.ipLen.toNat s = _ := (bind_of_some hcheck).trans (callHandler_of_some env hret)
  by_cases hpos : r > 0
  · rw [if_pos hpos] at hrun
    refine ⟨_, _, _, hrun, fun _ => ?_, fun hle => absurd hpos hle.not_gt⟩
    have hsize : (ipReplyHeader c r.toNat).1 = r.toNat + ipHdrHlen (hdrIn s i) := by
      rw [← hload]
      rfl
    rw [hsize]
    omega
  · rw [if_neg hpos, if_neg hr] at hrun
    exact ⟨r, c, u, hrun, fun h => absurd h hpos, fun _ => rfl⟩

/-- **A result of a handler is not answered as it should be,** unless it is an ICMP message. -/
theorem not_asHandlerSays (h : HandlerReturns env s i proto size r c) (hr : r ≠ -ENOTSOCK) :
    ¬ AsHandlerSays env s i := by
  intro hsays
  obtain ⟨ret, d, t, hrun, hpos, hneg⟩ := ipInputWith_handler h hr
  have hsends := sends_of_ipInput hrun
  by_cases h0 : 0 < r
  · obtain ⟨a, ha, -, -, hsize, -⟩ := hsays.reply proto size r c h h0
    have hlt := hpos h0
    obtain rfl := List.singleton_inj.mp (ha.symm.trans hsends)
    unfold toSize at hsize
    dsimp only at hsize
    rw [if_pos (by omega)] at hsize
    omega
  · have hnil := hsays.silent proto size r c h (by omega) hr
    rw [hsends] at hnil
    exact List.cons_ne_nil _ _ hnil

/-- `ip_check` without a sender leaves the sockets alone. -/
theorem noSocket_ipCheck {call : Option Dispatch} (h : ipCheck none (hdrIn s i)
    (s.pool.buf i).ipHdr.ipLen.toNat s = (some call, t)) (b : Buf) (o : ℕ) :
    NoSocket env (withCall t (hdrIn s i) (memIn s i) size) (hdrIn s i) b o size proto ↔
      NoSocket env s (hdrIn s i) b o size proto := by
  have hlearned := ipCheck_learned none (hdrIn s i) (s.pool.buf i).ipHdr.ipLen.toNat s
  rw [h] at hlearned
  obtain ⟨_, _, rfl⟩ := hlearned
  exact Iff.rfl

theorem returns_of_noSocket (h : HandlerReturns env s i proto size r c)
    (hno : NoSocket env s (hdrIn s i) (memIn s i) (ipHdrHlen (hdrIn s i)) size proto) :
    r = -ENOTSOCK := by
  obtain ⟨t, u, hcheck, hret⟩ := h
  obtain rfl := hno.1
  rw [protoInput_absent env ((noSocket_ipCheck hcheck _ _).mpr hno)] at hret
  cases hret
  rfl

theorem unreachable_nonneg {b : Buf} {code : UInt8} {o : ℕ}
    (h : icmpGenerateDestUnreachable b code o size = (r, c)) : 0 ≤ r := by
  rw [icmpGenerateDestUnreachable_eq] at h
  cases h
  exact Int.natCast_nonneg _

/-- Without a handler that returns `ip_input` has no negative result. -/
theorem ipInputWith_nonneg (h : Unanswered env s i) (hrun : ipInputWith env (fun _ _ => stuck) none
    (packetMem (s.pool.buf i)) (s.pool.buf i).ipHdr.ipLen.toNat s = (some (r, c), t)) : 0 ≤ r := by
  rcases hcheck : ipCheck none (hdrIn s i) (s.pool.buf i).ipHdr.ipLen.toNat s with ⟨_ | call, u⟩
  · have hnone : ipInputWith env (fun _ _ => stuck) none (packetMem (s.pool.buf i))
      (s.pool.buf i).ipHdr.ipLen.toNat s = (none, u) := bind_of_none hcheck
    rw [hnone] at hrun
    cases hrun
  · have hcall : ipInputWith env (fun _ _ => stuck) none (packetMem (s.pool.buf i))
      (s.pool.buf i).ipHdr.ipLen.toNat s = ipCall env (fun _ _ => stuck) (hdrIn s i) (memIn s i) call u :=
        bind_of_some hcheck
    rw [hcall] at hrun
    rcases call with _ | ⟨code, size⟩ | size | ⟨proto, size⟩
    · cases hrun
      exact le_rfl
    · exact unreachable_nonneg (Option.some.inj (Prod.mk.inj hrun).1)
    · cases hrun
    · rcases hret : protoInput env proto (hdrIn s i) (memIn s i) (ipHdrHlen (hdrIn s i)) size
        (withCall u (hdrIn s i) (memIn s i) size) with ⟨_ | ⟨r', c'⟩, v⟩
      · have hnone := callHandler_of_none env hret
        exact absurd (hnone.symm.trans hrun) (by simp)
      · have hhandler : HandlerReturns env s i proto size r' c' := ⟨u, v, hcheck, hret⟩
        obtain rfl := returns_of_noSocket hhandler (h _ _ _ _ hhandler)
        have hsome := (callHandler_of_some env hret).symm.trans hrun
        exact unreachable_nonneg (Option.some.inj (Prod.mk.inj hsome).1)

/-- **A completed datagram is answered as its handler says** iff no handler has said anything: the
completion branch calls `ip_send` once, with what `ip_input` has returned. -/
theorem answered_iff (env : Env) (s : Stack) (ipHdr : IpHdr) (rxPacket : Buf) (i : Fin 4) (pool : Pool)
    (h : ipFragmentStore env.mc s.pool ipHdr rxPacket = some (.complete i, pool)) :
    ipFragmentInput env ipHdr rxPacket s = (do
      let a ← beforeSend env i
      let _ ← ipSend env a.dst a.proto a.buf a.bsize
      afterSend i : Act ℤ) { s with pool := pool } ∧
    (AsHandlerSays env { s with pool := pool } i ↔ Unanswered env { s with pool := pool } i) := by
  refine ⟨?_, fun hsays => ?_, fun hun => ⟨?_, ?_, ?_⟩⟩
  · rw [← completeFragments_eq]
    unfold ipFragmentInput
    rw [get_bind, h]
    rfl
  · intro proto size r c hret
    by_cases hr : r = -ENOTSOCK
    · obtain ⟨t, u, hcheck, hrun⟩ := hret
      exact (noSocket_ipCheck hcheck _ _).mp ((protoInput_spec env hrun).2 hr)
    · exact absurd hsays (not_asHandlerSays hret hr)
  · intro proto size r c hret hpos
    have hr := returns_of_noSocket hret (hun _ _ _ _ hret)
    have hneg : ENOTSOCK = 88 := rfl
    omega
  · intro proto size r c hret _ hr
    exact absurd (returns_of_noSocket hret (hun _ _ _ _ hret)) hr
  · intro r c t hrun hneg
    exact absurd (ipInputWith_nonneg hun hrun) hneg.not_ge

/-! ### Two fragments -/

/-- A fragment from 0.0.0.3 to 0.0.0.2 with 24 bytes of payload. -/
def halfHdr (proto : UInt8) (foff : UInt16) : IpHdr := ⟨0x45, 0, 44, 7, foff, 64, proto, 0, 3, 2⟩

/-- The pools after the first and after the second fragment. -/
def pool1 (proto : UInt8) : Pool :=
  ((ipFragmentStore .ofSign Pool.init (halfHdr proto ipFlagsMf) fun _ => 0).map Prod.snd).getD Pool.init

def pool2 (proto : UInt8) : Pool :=
  ((ipFragmentStore .ofSign (pool1 proto) (halfHdr proto 3) fun _ => 0).map Prod.snd).getD Pool.init

/-- The stack after the first and after the second fragment. -/
def stack1 (proto : UInt8) : Stack := { Udp.RoundTrip.loopback with pool := pool1 proto }

def stack2 (proto : UInt8) : Stack := { Udp.RoundTrip.loopback with pool := pool2 proto }

theorem store_second (proto : UInt8) (h : (ipFragmentStore .ofSign (pool1 proto) (halfHdr proto 3)
    fun _ => 0).map Prod.fst = some (.complete 0)) :
    ipFragmentStore .ofSign (stack1 proto).pool (halfHdr proto 3) (fun _ => 0) =
      some (.complete 0, pool2 proto) := by
  obtain ⟨⟨outcome, pool⟩, hstore, rfl⟩ := Option.map_eq_some_iff.mp h
  have hpool : pool2 proto = pool := by
    unfold pool2
    rw [hstore]
    rfl
  rw [hpool]
  exact hstore

theorem ipCheck_stack2 (proto : UInt8) (p : Proto) (hlen : ((stack2 proto).pool.buf 0).ipHdr.ipLen = 48)
    (hacc : ipAccepts (hdrIn (stack2 proto) 0) 48) (hdst : (hdrIn (stack2 proto) 0).ipDst = 2)
    (hcall : ipDispatch (hdrIn (stack2 proto) 0) 48 true = .handler p 28) :
    ipCheck none (hdrIn (stack2 proto) 0) ((stack2 proto).pool.buf 0).ipHdr.ipLen.toNat (stack2 proto) =
      (some (some (.handler p 28)), stack2 proto) := by
  have hroute : ipRouteFindByIface (hdrIn (stack2 proto) 0).ipDst (stack2 proto) = _ :=
    ipRouteFindByIface_found (by rw [hdst]; exact Interop.loopback_local)
  have h48 : ((stack2 proto).pool.buf 0).ipHdr.ipLen.toNat = 48 := by
    rw [hlen]
    rfl
  rw [h48]
  unfold ipCheck
  rw [if_pos hacc]
  refine (bind_of_some rfl).trans ((bind_of_some hroute).trans ?_)
  rw [← hcall]
  rfl

/-- A UDP datagram for port 0, which has no socket. -/
theorem answered_iff_udp : AsHandlerSays ⟨.ofSign, fun _ => 42⟩ (stack2 ipProtoUdp) 0 := by
  have hstore := store_second ipProtoUdp (by decide +kernel)
  refine (answered_iff ⟨.ofSign, fun _ => 42⟩ _ _ _ _ _ hstore).2.mpr ?_
  intro proto size r c hret
  obtain ⟨t, u, hcheck, -⟩ := hret
  have hcheck' := ipCheck_stack2 ipProtoUdp .udp (by decide +kernel)
    (by decide +kernel) (by decide +kernel) (by decide +kernel)
  obtain ⟨rfl, rfl⟩ : Proto.udp = proto ∧ 28 = size := by
    have h := hcheck'.symm.trans hcheck
    simpa using (Prod.mk.inj h).1
  exact ⟨rfl, by decide, by decide +kernel⟩

/-- The stack completes a datagram of ICMP, and an error of `icmp_input` is the size of what it sends. -/
theorem error_is_sent : ipFragmentStore .ofSign (stack1 ipProtoIcmp).pool (halfHdr ipProtoIcmp 3)
      (fun _ => 0) = some (.complete 0, (stack2 ipProtoIcmp).pool) ∧
    ¬ AsHandlerSays ⟨.ofSign, fun _ => 42⟩ (stack2 ipProtoIcmp) 0 := by
  refine ⟨store_second ipProtoIcmp (by decide +kernel), ?_⟩
  have hcheck := ipCheck_stack2 ipProtoIcmp .icmp (by decide +kernel)
    (by decide +kernel) (by decide +kernel) (by decide +kernel)
  have hicmp : (icmpInput (memIn (stack2 ipProtoIcmp) 0) (ipHdrHlen (hdrIn (stack2 ipProtoIcmp) 0)) 28).map
      Prod.fst = some (-ENOMSG) := by decide +kernel
  obtain ⟨⟨r, c⟩, hicmp, rfl⟩ := Option.map_eq_some_iff.mp hicmp
  have hret : HandlerReturns ⟨.ofSign, fun _ => 42⟩ (stack2 ipProtoIcmp) 0 .icmp 28 (-ENOMSG) c :=
    ⟨_, _, hcheck, protoInput_icmp _ hicmp _ _⟩
  exact not_asHandlerSays hret (by decide)

end Xstack.Net.Answer
