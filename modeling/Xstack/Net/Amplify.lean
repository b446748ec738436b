import Xstack.Net.Replies

/-! # How many frames a turn sends

A turn of the daemon sends at most 45 frames (`turn_frames`), whatever it receives and whatever is in its
tables: `ip_send` cuts what it is given into packets with 1472 bytes of payload (`ipSend_sends`), the
answer to a reassembled datagram has at most 65535 bytes, and the packets that `ip_defer_handler` sends for
an ARP message have no bytes at all. -/

namespace Xstack.Net.Amplify

open Xstack.Config Xstack.Lib.Bytes Xstack.Lib.Program Xstack.Ether Xstack.Arp.Cache
open Xstack.Ip.Header Xstack.Ip.Fragment Xstack.Ip.Route Xstack.Sock.Queue Xstack.Udp
open Xstack.Net.State Xstack.Net.Send Xstack.Net.Input Xstack.Net.Daemon Xstack.Net.Replies

/-- **At most `n` frames are sent.** -/
abbrev Sends {α : Type} (n : ℕ) (x : Act α) : Prop :=
  Costs (fun _ => True) (fun s : Stack => s.tx.length) n x

variable {env : Env} {n : ℕ}

theorem setErrno_sends (e : ℤ) : Sends 0 (setErrno e) := fun _ _ => le_rfl

/-- An error path: `errno` is set, and the function returns. -/
theorem fail_sends {α : Type} (e : ℤ) (a : α) : Sends 0 (setErrno e >>= fun _ => pure a) :=
  .free (setErrno_sends e) fun _ => .pure a

theorem etherHandle2addr_sends (handle : ℤ) : Sends 0 (etherHandle2addr handle) := by
  unfold etherHandle2addr
  refine .ite (fun _ => fail_sends _ _) fun _ => .ite (fun _ => .stuck) fun _ => ?_
  exact .free .get fun _ => .pure _

theorem etherSend_sends (handle : ℤ) (dst : MacAddr) (proto : UInt16) (buf : Buf) (bsize : ℕ) :
    Sends 1 (etherSend env handle dst proto buf bsize) := by
  intro s _
  show (etherSend env handle dst proto buf bsize s).2.tx.length ≤ s.tx.length + 1
  rcases Interop.etherSend_tx env handle dst proto buf bsize s with h | h
  · rw [h]
    exact Nat.le_succ _
  · rw [h, List.length_append, List.length_singleton]

theorem arpRequest_sends (handle : ℤ) (spa tpa : InAddr) : Sends 1 (arpRequest env handle spa tpa) := by
  unfold arpRequest arpMsg
  refine .free (.only (etherHandle2addr_sends handle) fun _ => .pure _) fun _ => ?_
  exact .only (etherSend_sends _ _ _ _ _) fun _ => .pure _

theorem ipRouteFindByIface_sends (addr : InAddr) : Sends 0 (ipRouteFindByIface addr) := by
  unfold ipRouteFindByIface
  refine .free .get fun s => .free (.ofOption _) fun route => ?_
  exact .ite (fun _ => fail_sends _ _) fun _ => .pure _

theorem ipRouteFindByNetwork_sends (addr : InAddr) : Sends 0 (ipRouteFindByNetwork addr) := by
  unfold ipRouteFindByNetwork
  refine .free .get fun s => .free (.ofOption _) fun route => ?_
  exact .ite (fun _ => fail_sends _ _) fun _ => .pure _

theorem arpCacheGetHaddr_sends (iface ipAddr : InAddr) :
    Sends 1 (arpCacheGetHaddr env iface ipAddr) := by
  unfold arpCacheGetHaddr
  refine .free .get fun s => .free (.ofOption _) fun haddr => ?_
  cases haddr with
  | some haddr => exact .pure _
  | none =>
    refine .free (ipRouteFindByIface_sends iface) fun route => ?_
    cases route with
    | none => exact .pure _
    | some route =>
      refine .only (arpRequest_sends _ _ _) fun retval => ?_
      exact .ite (fun _ => fail_sends _ _) fun _ => .pure _

/-! ### `ip_send` -/

/-- The number of packets for `bytes` bytes of payload. -/
def packets (bytes : ℕ) : ℕ := (bytes - 1) / 1472 + 1

theorem sendLoop_sends {ipHdr : IpHdr} (h20 : ipHdrHlen ipHdr = 20) (handle : ℤ) (dstMac : MacAddr) :
    ∀ (fuel : ℕ) (b : Buf) (bytes offset : ℕ) (retval : ℤ),
    Sends (packets bytes) (sendLoop env handle dstMac ipHdr fuel b bytes offset retval)
  | 0, _, _, _, _ => .stuck
  | fuel + 1, b, bytes, offset, retval => by
    have hplen : nextFragmentSize bytes (ipHdrHlen ipHdr) etherDataLen = min bytes 1472 := by
      unfold nextFragmentSize ipOffRound etherDataLen
      rw [h20]
      split_ifs <;> omega
    unfold sendLoop
    dsimp only
    rw [hplen]
    have hone : 1 ≤ packets bytes := Nat.le_add_left _ _
    by_cases hrest : bytes - min bytes 1472 > 0
    · have hsum : packets bytes = 1 + packets (bytes - min bytes 1472) := by
        unfold packets
        omega
      rw [hsum]
      refine .seq (etherSend_sends _ _ _ _ _) fun eret => .ite (fun _ => .pure _) fun _ => ?_
      exact .ite (fun _ => sendLoop_sends h20 handle dstMac fuel _ _ _ _) fun _ => .pure _
    · refine Costs.only ((etherSend_sends _ _ _ _ _).mono hone) fun eret => ?_
      refine .ite (fun _ => .pure _) fun _ => ?_
      rw [if_neg hrest]
      exact .pure _

theorem ipSendTo_sends (route : IpRoute) (dstMac : MacAddr) (dst : InAddr) (proto : UInt8) (buf : Buf)
    (bsize : ℕ) : Sends (packets bsize) (ipSendTo env route dstMac dst proto buf bsize) := by
  have hone : 1 ≤ packets bsize := Nat.le_add_left _ _
  unfold ipSendTo
  refine .ite (fun _ => .stuck) fun _ => .free .get fun s => .free (.modify fun _ => le_rfl) fun _ => ?_
  refine .ite (fun _ => (etherSend_sends _ _ _ _ _).mono hone) fun _ => .only ?_ fun retval =>
    .ite (fun _ => fail_sends _ _) fun _ => .pure _
  set packet := sendPacket (sendHdr route dst proto s.ipGlobalId (ipHdrSize + bsize)) buf bsize
  obtain ⟨csum, hip⟩ := Xstack.Udp.RoundTrip.hdrOf_sendPacket (fun _ => 0)
    (fun _ _ => rfl : Agree (ipHdrSize + bsize) packet packet)
  have h20 : ipHdrHlen (ipNtoh (IpHdr.load packet)) = 20 :=
    (congrArg ipHdrHlen hip).trans (Xstack.Udp.RoundTrip.ipHdrHlen_default rfl)
  unfold ipSendFragments
  dsimp only
  rw [h20]
  have hbytes : ipHdrSize + bsize - 20 = bsize := by
    unfold ipHdrSize
    omega
  rw [hbytes]
  exact sendLoop_sends h20 _ _ _ _ _ _ _

/-- A hardware address that is known is found without a frame. -/
theorem arpCacheGetHaddr_found {iface ipAddr : InAddr} {s t : Stack} {mac : MacAddr}
    (h : arpCacheGetHaddr env iface ipAddr s = (some (some mac), t)) : t = s := by
  unfold arpCacheGetHaddr at h
  rw [get_bind] at h
  rcases hmac : cachedHaddr s.arp ipAddr with _ | _ | mac'
  · rw [hmac] at h
    cases h
  · -- the request is sent, and there is no address to return
    have hnone {x : Prog Stack (Option MacAddr)} (hx : Ensures (fun _ => True) x (· = none))
        (h : x s = (some (some mac), t)) : False :=
      absurd ((hx s trivial).2 _ (congrArg Prod.fst h)) (Option.some_ne_none mac)
    rw [hmac, bind_of_some (show ofOption (some none) s = (some none, s) from rfl)] at h
    refine (hnone (.seq (.of_any _) fun route => ?_) h).elim
    cases route with
    | none => exact .pure rfl
    | some route =>
      refine .seq (.of_any _) fun retval => ?_
      exact .ite (fun _ => .seq (.of_any _) fun _ => .pure rfl) fun _ => .pure rfl
  · rw [hmac] at h
    exact (Prod.mk.inj h).2.symm

theorem ipSendLater_sends (dst : InAddr) (proto : UInt8) (buf : Buf) (bsize : ℕ) :
    Sends 0 (ipSendLater dst proto buf bsize) := by
  unfold ipSendLater
  refine .free .get fun s => .ite (fun _ => ?_) fun _ => .pure _
  refine .free (fun _ _ => le_rfl) fun retval => .ite (fun _ => .pure _) fun _ => fail_sends _ _

/-- **`ip_send`:** a frame for each packet, or one if the receiver is not known. -/
theorem ipSend_sends (dst : InAddr) (proto : UInt8) (buf : Buf) (bsize : ℕ) :
    Sends (packets bsize) (ipSend env dst proto buf bsize) := by
  have hone : 1 ≤ packets bsize := Nat.le_add_left _ _
  unfold ipSend
  refine .free (ipRouteFindByNetwork_sends dst) fun route => ?_
  cases route with
  | none => exact (fail_sends _ _).mono (Nat.zero_le _)
  | some route =>
    intro s _
    have hget := @arpCacheGetHaddr_sends env route.rIface dst s trivial
    dsimp only
    rcases hrun : arpCacheGetHaddr env route.rIface dst s with ⟨_ | _ | mac, t⟩
    · rw [bind_of_none hrun]
      rw [hrun] at hget
      exact hget.trans (Nat.add_le_add_left hone _)
    · have hlater := ipSendLater_sends dst proto buf bsize t trivial
      rw [bind_of_some hrun]
      rw [hrun] at hget
      exact hlater.trans (hget.trans (Nat.add_le_add_left hone _))
    · obtain rfl := arpCacheGetHaddr_found hrun
      rw [bind_of_some hrun]
      exact ipSendTo_sends route mac dst proto buf bsize t trivial

/-- A size that no packet on the stack has is not sent, but it may be asked for the receiver. -/
theorem ipSend_huge {bsize : ℕ} (h : 2 ^ 31 ≤ bsize) (dst : InAddr) (proto : UInt8) (buf : Buf) :
    Sends 1 (ipSend env dst proto buf bsize) := by
  unfold ipSend
  refine .free (ipRouteFindByNetwork_sends dst) fun route => ?_
  cases route with
  | none => exact (fail_sends _ _).mono (Nat.zero_le _)
  | some route =>
    refine .only (arpCacheGetHaddr_sends _ _) fun mac => ?_
    cases mac with
    | none => exact ipSendLater_sends _ _ _ _
    | some mac =>
      unfold ipSendTo
      exact .ite (fun _ => .stuck) fun hlt => absurd h hlt

/-! ### The deferred packets -/

/-- No slot of the queue has a size. -/
def Sizeless (s : Stack) : Prop := ∀ i, (s.defer.slot i).bufSize = 0

theorem sizeless_invariant (env : Env) :
    Invariant env Sizeless (fun _ _ _ => True) (fun _ _ => True) fun _ _ _ => True where
  tells _ _ _ _ := tells_all _ _ _
  other _ _ _ _ _ _ hsize hs i := (hsize i).trans (hs i)
  insert _ _ _ _ _ _ _ _ hs := hs
  update _ _ _ _ hs := hs
  cached _ _ _ := trivial
  sent _ _ _ _ _ _ _ _ hs := hs
  request _ _ _ _ _ _ _ _ := trivial
  packet _ _ _ _ _ _ _ _ _ := trivial
  reply _ _ _ _ _ _ _ _ _ _ _ _ := trivial

/-- **Each turn of the loop sends at most one frame.** -/
theorem deferLoop_sends : ∀ fuel, Costs Sizeless (fun s : Stack => s.tx.length) fuel (deferLoop env fuel)
  | 0 => .stuck
  | fuel + 1 => by
    have hinv := sizeless_invariant env
    have htry : Costs Sizeless (fun s : Stack => s.tx.length) 0 countTry := .modify fun _ => le_rfl
    have hdrop : Costs Sizeless (fun s : Stack => s.tx.length) 0 ipDeferDrop := .modify fun _ => le_rfl
    have hnext : Costs Sizeless (fun s : Stack => s.tx.length) fuel
        (ipDeferDrop >>= fun _ => deferLoop env fuel) :=
      hdrop.bind_free hinv.ipDeferDrop fun _ _ => deferLoop_sends fuel
    unfold deferLoop
    refine Costs.get.bind_free .get fun s hs => .ite (fun _ => .pure _) fun _ => ?_
    refine htry.bind_free hinv.countTry fun _ _ => ?_
    refine .ite (fun _ => hnext.mono (Nat.le_succ _)) fun _ => ?_
    have hsend : Costs Sizeless (fun s : Stack => s.tx.length) 1
        (sendDeferred env (s.defer.slot s.defer.qRd)) := by
      refine Costs.bind_free (P := fun _ => True) (.modify fun _ => le_rfl) (.modify fun _ hs => hs)
        fun _ _ => ?_
      rw [hs]
      exact (ipSend_sends _ _ _ 0).weaken fun _ _ => trivial
    refine (hsend.bind (n := fuel) (hinv.sendDeferred _) fun retval _ => ?_).mono (Nat.add_comm 1 fuel).le
    refine Costs.get.bind_free .get fun s _ => .ite (fun _ => ?_) fun _ => hnext
    exact htry.mono (Nat.zero_le _)

theorem ipDeferHandler_sends : Costs Sizeless (fun s => s.tx.length) 21 (ipDeferHandler env) :=
  Costs.bind_free (P := fun _ => True) (.modify fun _ => le_rfl) (.modify fun _ hs => hs) fun _ _ =>
    deferLoop_sends 21

/-! ### Receiving -/

theorem callHandler_sends (proto : Proto) (ip : IpHdr) (b : Buf) (size : ℕ) :
    Sends 0 (callHandler env proto ip b size) := by
  unfold callHandler
  refine .free (.modify fun _ => le_rfl) fun _ => .free (fun s _ => ?_) fun x => ?_
  · obtain ⟨_, _, ht⟩ := protoInput_handled env proto ip b (ipHdrHlen ip) size s
    show (protoInput env proto ip b (ipHdrHlen ip) size s).2.tx.length ≤ s.tx.length + 0
    rw [ht]
    exact le_rfl
  · exact .ite (fun _ => .pure _) fun _ => .ite (fun _ => .pure _) fun _ => .pure _

theorem arpCacheInsert_sends (ipAddr : InAddr) (haddr : MacAddr) (type : ArpCacheEntryType) :
    Sends 0 (arpCacheInsert ipAddr haddr type) := by
  unfold arpCacheInsert
  refine .free .get fun s => .free (.ofOption _) fun x => .free (.modify fun _ => le_rfl) fun _ => ?_
  exact .ite (fun _ => fail_sends _ _) fun _ => .pure _

theorem ipCheck_sends (src : Option MacAddr) (ip : IpHdr) (bsize : ℕ) : Sends 0 (ipCheck src ip bsize) := by
  unfold ipCheck
  refine .ite (fun _ => .free ?_ fun _ => .free (ipRouteFindByIface_sends _) fun _ => .pure _) fun _ => .pure _
  unfold learnSender
  cases src with
  | none => exact .pure _
  | some mac => exact .free (arpCacheInsert_sends _ _ _) fun _ => .pure _

/-- `ip_input` itself sends nothing. -/
theorem ipInputWith_sends {fragmentInput : IpHdr → Buf → Act ℤ} (h : ∀ ip b, Sends n (fragmentInput ip b))
    (src : Option MacAddr) (b : Buf) (bsize : ℕ) :
    Sends n (ipInputWith env fragmentInput src b bsize) := by
  unfold ipInputWith
  refine .free (ipCheck_sends _ _ _) fun call => ?_
  match call with
  | none => exact .pure _
  | some (.unreachable _ _) => exact .pure _
  | some (.fragment _) => exact .only (h _ _) fun _ => .pure _
  | some (.handler _ _) => exact (callHandler_sends _ _ _ _).mono (Nat.zero_le _)

/-- **A completed datagram is answered with at most 45 frames.** -/
theorem completeFragments_sends (i : Fin 4) : Sends 45 (completeFragments env i) := by
  unfold completeFragments
  refine .free .get fun s => ?_
  have hens : Ensures (fun _ => True) (ipInputWith env (fun _ _ => stuck) none (packetMem (s.pool.buf i))
      (s.pool.buf i).ipHdr.ipLen.toNat) fun x => -128 ≤ x.1 ∧ x.1 ≤ 65535 := by
    refine fun t _ => ⟨trivial, fun x hx => ?_⟩
    have hlt := (s.pool.buf i).ipHdr.ipLen.toNat_lt
    have hreply := ipInputWith_reply (Prod.ext hx rfl)
    have hle := hreply.le
    exact ⟨hreply.ge, by omega⟩
  refine Costs.bind_free (ipInputWith_sends (fun _ _ => .stuck) _ _ _) hens fun x hx => ?_
  refine .free (.modify fun _ => le_rfl) fun _ => .only ?_ fun _ => ?_
  · have hsize : toSize x.1 ≤ 65535 ∨ 2 ^ 31 ≤ toSize x.1 := by
      unfold toSize
      split_ifs
      · omega
      · omega
    rcases hsize with hsize | hsize
    · refine (ipSend_sends _ _ _ _).mono ?_
      unfold packets
      omega
    · exact (ipSend_huge hsize _ _ _).mono (by decide)
  · refine .free .get fun s => .free (.ofOption _) fun pool => ?_
    exact .free (.modify fun _ => le_rfl) fun _ => .pure _

theorem ipFragmentInput_sends (ip : IpHdr) (b : Buf) : Sends 45 (ipFragmentInput env ip b) := by
  unfold ipFragmentInput
  refine .free .get fun s => .free (.ofOption _) fun x => .free (.modify fun _ => le_rfl) fun _ => ?_
  match x.1 with
  | .emsgsize => exact .pure _
  | .nobufs => exact .pure _
  | .stored => exact .pure _
  | .complete i => exact completeFragments_sends i

/-- `arp_input`: the deferred packets. -/
theorem arpInput_sends (b : Buf) (bsize : ℕ) :
    Costs Sizeless (fun s : Stack => s.tx.length) 21 (arpInput env b bsize) := by
  have hinv := sizeless_invariant env
  have hsend : ∀ {α : Type} {x : Act α}, Sends 0 x → Costs Sizeless (fun s : Stack => s.tx.length) 0 x :=
    fun hx => hx.weaken fun _ _ => trivial
  unfold arpInput
  refine .ite (fun _ => .pure _) fun _ => .ite (fun _ => .pure _) fun _ => ?_
  refine (hsend (arpCacheInsert_sends _ _ _)).bind_free (hinv.arpCacheInsert trivial _)
    fun _ _ => ?_
  refine Costs.bind (n := 0) ipDeferHandler_sends hinv.ipDeferHandler fun _ _ => hsend ?_
  refine .ite (fun _ => .free (ipRouteFindByIface_sends _) fun route => ?_) fun _ => .pure _
  cases route with
  | none => exact .pure _
  | some route => exact .free (etherHandle2addr_sends _) fun _ => .pure _

/-- An IP packet with a direct answer has led to no frame yet. -/
theorem ipInputWith_direct {fragmentInput : IpHdr → Buf → Act ℤ} {src : Option MacAddr} {b c : Buf}
    {bsize : ℕ} {s t : Stack} {r : ℤ}
    (h : ipInputWith env fragmentInput src b bsize s = (some (r, c), t)) (hr : 0 < r) :
    t.tx.length ≤ s.tx.length := by
  have hcheck := ipCheck_sends src (hdrOf src b) bsize s trivial
  unfold ipInputWith at h
  rcases hrun : ipCheck src (hdrOf src b) bsize s with ⟨_ | call, u⟩
  · rw [bind_of_none hrun] at h
    cases h
  · rw [hrun] at hcheck
    rw [bind_of_some hrun] at h
    refine le_trans ?_ hcheck
    match call with
    | none =>
      obtain ⟨-, rfl⟩ := Prod.mk.inj h
      exact le_rfl
    | some (.unreachable _ _) =>
      obtain ⟨-, rfl⟩ := Prod.mk.inj h
      exact le_rfl
    | some (.fragment _) =>
      -- the result of `ip_fragment_input` is not used
      rcases hfrag : fragmentInput (hdrOf src b)
          (shift (put b 0 (hdrOf src b).bytes) (ipHdrHlen (hdrOf src b))) u with ⟨_ | _, v⟩
      · have hnone : (none, v) = (some (r, c), t) := (bind_of_none hfrag).symm.trans h
        cases hnone
      · have hzero : (some (0, put b 0 (hdrOf src b).bytes), v) = (some (r, c), t) :=
          (bind_of_some hfrag).symm.trans h
        obtain ⟨rfl, -⟩ : 0 = r ∧ _ = c := by simpa using (Prod.mk.inj hzero).1
        exact absurd hr (lt_irrefl 0)
    | some (.handler proto size) =>
      have hcall := @callHandler_sends env proto (hdrOf src b) (put b 0 (hdrOf src b).bytes) size u trivial
      rw [show callHandler env proto (hdrOf src b) (put b 0 (hdrOf src b).bytes) size u = (some (r, c), t)
        from h] at hcall
      exact hcall

theorem etherOutputReply_sends (hdr : EtherHdr) (b : Buf) (bsize : ℕ) :
    Sends 1 (etherOutputReply env hdr b bsize) := by
  unfold etherOutputReply
  exact .only (etherSend_sends _ _ _ _ _) fun _ => .ite (fun _ => fail_sends _ _) fun _ => .pure _

/-- What `ether_input` makes of the result of a protocol. -/
theorem etherInput_of_some {hdr : EtherHdr} {b : Buf} {bsize : ℕ} {fn : Act (ℤ × Buf)} {s : Stack}
    (h : etherProtoInput env hdr b bsize = some fn) :
    (etherInput env hdr b bsize s).2.tx = (fn s).2.tx ∧ ∀ r c, 0 < r →
      (etherInput env hdr b bsize s).1 = some (r, c) → (fn s).1 = some (r, c) := by
  unfold etherInput
  rw [h]
  dsimp only
  rcases hrun : fn s with ⟨_ | ⟨r, c⟩, t⟩
  · rw [bind_of_none hrun]
    exact ⟨rfl, fun _ _ _ h => by cases h⟩
  · rw [bind_of_some hrun]
    dsimp only
    split_ifs
    · refine ⟨rfl, fun r' c' hr' h' => ?_⟩
      obtain ⟨rfl, -⟩ : -1 = r' ∧ c = c' := by simpa using (Option.some.inj h' : (-1, c) = (r', c'))
      exact absurd hr' (by decide)
    · exact ⟨rfl, fun _ _ _ h' => h'⟩

/-- **`ether_input`:** fewer frames if there is a direct answer. -/
theorem etherInput_sends {s : Stack} (hs : Sizeless s) (hdr : EtherHdr) (b : Buf) (bsize : ℕ) :
    (etherInput env hdr b bsize s).2.tx.length ≤ s.tx.length + 45 ∧ ∀ r c, 0 < r →
      (etherInput env hdr b bsize s).1 = some (r, c) →
      (etherInput env hdr b bsize s).2.tx.length ≤ s.tx.length + 21 := by
  rcases hfn : etherProtoInput env hdr b bsize with _ | fn
  · unfold etherInput
    rw [hfn]
    exact ⟨Nat.le_add_right _ _, fun _ _ _ _ => Nat.le_add_right _ _⟩
  · obtain ⟨htx, hres⟩ := etherInput_of_some (s := s) hfn
    rw [htx]
    unfold etherProtoInput at hfn
    split_ifs at hfn
    · obtain rfl := Option.some.inj hfn
      have harp : (arpInput env b bsize s).2.tx.length ≤ s.tx.length + 21 := arpInput_sends b bsize s hs
      exact ⟨by omega, fun _ _ _ _ => harp⟩
    · obtain rfl := Option.some.inj hfn
      refine ⟨ipInputWith_sends ipFragmentInput_sends _ _ _ s trivial, fun r c hr h => ?_⟩
      have hdirect := ipInputWith_direct (Prod.ext (hres r c hr h) rfl) hr
      exact hdirect.trans (Nat.le_add_right _ _)

/-! ### Turns -/

theorem ingressTurn_sends (frames : List (List UInt8)) (rx : Buf) :
    Costs Sizeless (fun s : Stack => s.tx.length) 45 (ingressTurn env frames rx) := by
  intro s hs
  unfold ingressTurn
  rw [get_bind]
  rcases etherReceive s.mac rx etherMaxlen frames with _ | _ | ⟨hdr, b, n⟩
  · exact Nat.le_add_right _ _
  · exact Nat.le_add_right _ _
  · dsimp only
    split_ifs
    · obtain ⟨h45, h21⟩ := @etherInput_sends env s hs hdr b n
      rcases hrun : etherInput env hdr b n s with ⟨_ | ⟨r, c⟩, t⟩
      · rw [bind_of_none hrun]
        rwa [hrun] at h45
      · rw [bind_of_some hrun]
        rw [hrun] at h45 h21
        dsimp only
        split_ifs with hr
        · have hreply : Sends 1 (etherOutputReply env hdr c r.toNat >>= fun _ => pure c) :=
            .only (etherOutputReply_sends _ _ _) fun _ => .pure c
          have h22 := hreply t trivial
          have := h21 r c hr rfl
          dsimp only at h22 this ⊢
          omega
        · exact h45
    · exact Nat.le_add_right _ _

theorem protoSend_sends (proto : XstackSockProto) (sockAddr : SockAddr) (dgram : XstackDgram) :
    Sends 45 (protoSend env proto sockAddr dgram) := by
  cases proto with
  | none => exact .pure _
  | tcp => exact .pure _
  | last => exact .pure _
  | udp =>
    refine .only ?_ fun _ => .pure _
    unfold xstackUdpSend
    refine .ite (fun _ => .pure _) fun hsize => (ipSend_sends _ _ _ _).mono ?_
    unfold udpMaxlen at hsize
    unfold packets udpHdrSize
    omega

theorem arpCacheUpdate_sends (deltaTime : ℤ) : Sends 0 (arpCacheUpdate deltaTime) := by
  unfold arpCacheUpdate
  exact .free .get fun s => .free (.ofOption _) fun arp => .modify fun _ => le_rfl

theorem egressTurn_sends (sockets : List XstackSock) (i : ℕ) : Sends 45 (egressTurn env sockets i) := by
  unfold egressTurn
  rcases sockets[i]? with _ | sock
  · exact .pure _
  · refine .free .get fun s => ?_
    rcases egressStep (s.udp.sock i).shmem with ⟨_ | dgram, m⟩
    · exact .pure _
    · exact .only (protoSend_sends _ _ _) fun _ => .modify fun _ => le_rfl

theorem clientSendto_sends (i : ℕ) (buffer : List UInt8) (destAddr : SockAddr) :
    Sends 0 (clientSendto i buffer destAddr) := by
  unfold clientSendto
  refine .free .get fun s => ?_
  rcases xstackSendto (s.udp.sock i).shmem buffer destAddr with _ | _ | m
  · exact .pure _
  · exact .pure _
  · exact .modify fun _ => le_rfl

theorem clientRecvfrom_sends (i : ℕ) (r : Recvfrom) : Sends 0 (clientRecvfrom i r) := by
  unfold clientRecvfrom
  refine .free .get fun s => ?_
  rcases xstackRecvfrom (s.udp.sock i).shmem r with _ | ⟨_, m⟩
  · exact .pure _
  · exact .modify fun _ => le_rfl

theorem turn_sends (sockets : List XstackSock) (rx : Buf) (turn : Turn) :
    Costs Sizeless (fun s : Stack => s.tx.length) 45 (turn.act env sockets rx) := by
  have hinv := sizeless_invariant env
  have hret : ∀ {x : Act Unit}, Sends 45 x →
      Costs Sizeless (fun s : Stack => s.tx.length) 45 (x >>= fun _ => pure rx) := fun hx =>
    (Costs.only hx fun _ => .pure _).weaken fun _ _ => trivial
  cases turn with
  | receive frames => exact ingressTurn_sends frames rx
  | tick deltaTime =>
    refine Costs.bind (m := 21) (n := 24) ?_ (hinv.runPeriodicTasks deltaTime) fun _ _ => .pure _
    refine ((arpCacheUpdate_sends deltaTime).weaken fun _ _ => trivial).bind_free
      (hinv.arpCacheUpdate deltaTime) fun _ _ => ?_
    exact ipDeferHandler_sends.bind (n := 0) hinv.ipDeferHandler fun _ _ => .pure _
  | egress i => exact hret (egressTurn_sends sockets i)
  | sendto i buffer destAddr => exact hret ((clientSendto_sends i buffer destAddr).mono (Nat.zero_le _))
  | recvfrom i r => exact hret ((clientRecvfrom_sends i r).mono (Nat.zero_le _))

/-- The queue stays without sizes. -/
theorem run_sizeless {setup : Setup} (turns : List Turn) : ∀ p : Process, Sizeless p.stack →
    Sizeless (p.run env setup turns).stack := by
  induction turns with
  | nil => exact fun _ h => h
  | cons turn turns ih =>
    refine fun p h => ih _ ?_
    unfold Process.step Process.exec
    rcases p.rxBuffer with _ | rx
    · exact h
    · exact (sizeless_invariant env).turn h turn (hears_all _ _ _)

/-- **In every run each turn sends at most 45 frames,** so a frame that is received costs the network at
most 45. -/
theorem turn_frames (env : Env) (setup : Setup) (turns : List Turn) (turn : Turn) :
    let p := (Process.boot env setup).run env setup turns
    (p.step env setup turn).stack.tx.length ≤ p.stack.tx.length + 45 := by
  intro p
  have hboot : Sizeless (Process.boot env setup).stack :=
    (sizeless_invariant env).boot (fun _ => rfl) trivial (fun _ _ hs _ _ => hs) fun _ _ => trivial
  have hp : Sizeless p.stack := run_sizeless turns _ hboot
  unfold Process.step Process.exec
  rcases p.rxBuffer with _ | rx
  · exact Nat.le_add_right _ _
  · exact turn_sends setup.sockets rx turn p.stack hp

end Xstack.Net.Amplify
