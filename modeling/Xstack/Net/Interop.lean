import Xstack.Net.Reassemble
import Xstack.Udp.RoundTrip

/-! # Two instances of the stack

`ether_send` pads the data to 56 bytes and puts the frame check sequence behind it, and both are part
of what it gives to `sendto`. `ether_receive` takes off the header only, so at the other end the size
of the frame is not that of the packet (`receivedSize`), and `ip_input` drops it. Only a packet of 1500
bytes is understood: of its frame `recvfrom` returns as many bytes as `ether_receive` has room for,
and that is all but the frame check sequence (`understood_iff`). -/

namespace Xstack.Net.Interop

open Xstack.Config Xstack.Lib.Bytes Xstack.Lib.Program Xstack.Ether Xstack.Ip.Header Xstack.Ip.Route
open Xstack.Arp.Cache Xstack.Net.State Xstack.Net.Send Xstack.Net.Input Xstack.Net.Frame
open Xstack.Net.Validate Xstack.Net.Reassemble Xstack.Udp.RoundTrip

/-- **The frame is understood:** `ether_receive` and `ether_input` lead to one call of a handler, that
of `proto`, with the bytes of the payload and their number. -/
def Understood (env : Env) (t : Stack) (rxBuffer : Buf) (frame : List UInt8) (proto : UInt8)
    (payload : List UInt8) : Prop :=
  ∃ hdr b size, etherReceive t.mac rxBuffer etherMaxlen [frame] = some (some (hdr, b, size)) ∧
    ∃ c, (etherInput env hdr b size t).2.calls = t.calls ++ [c] ∧ c.proto = proto ∧
      c.size = payload.length ∧ slice c.data c.size = payload

variable {env : Env} {s t : Stack} {route r : IpRoute} {dst : InAddr} {dstMac : MacAddr}
  {proto : UInt8} {buf : Buf} {bsize : ℕ}

/-! ### The sender -/

/-- The packet of `ip_send`. -/
def packetOf (s : Stack) (route : IpRoute) (dst : InAddr) (proto : UInt8) (buf : Buf)
    (bsize : ℕ) : Buf :=
  sendPacket (sendHdr route dst proto s.ipGlobalId (ipHdrSize + bsize)) buf bsize

/-- The frame of `ip_send`. -/
def frameOf (s : Stack) (route : IpRoute) (dstMac : MacAddr) (dst : InAddr) (proto : UInt8)
    (buf : Buf) (bsize : ℕ) : List UInt8 :=
  etherFrame dstMac s.mac etherProtoIpv4
    (slice (packetOf s route dst proto buf bsize) (ipHdrSize + bsize))

/-- `ether_send` appends its frame to the history, or nothing. -/
theorem etherSend_tx (env : Env) (handle : ℤ) (dstMac : MacAddr) (proto : UInt16) (buf : Buf) (bsize : ℕ)
    (s : Stack) : (etherSend env handle dstMac proto buf bsize s).2.tx = s.tx ∨
      (etherSend env handle dstMac proto buf bsize s).2.tx =
        s.tx ++ [etherFrame dstMac s.mac proto (slice buf bsize)] := by
  unfold etherSend
  split_ifs
  · exact Or.inl rfl
  · exact Or.inl rfl
  · exact Or.inl rfl
  · rw [get_bind, modify_bind]
    dsimp only
    split_ifs
    · exact Or.inr rfl
    · exact Or.inr rfl

/-- The frame that `ip_send` gives to `sendto` for a packet that fits. -/
theorem frame_eq {frame : List UInt8}
    (hroute : s.rib.ipRouteFindByNetwork dst = some (some route))
    (hmac : cachedHaddr s.arp dst = some (some dstMac)) (hsize : bsize ≤ etherDataLen)
    (hsent : (ipSend env dst proto buf bsize s).2.tx = s.tx ++ [frame]) :
    frame = frameOf s route dstMac dst proto buf bsize := by
  rw [ipSend_resolved hroute hmac hsize] at hsent
  rcases etherSend_tx env route.rIfaceHandle dstMac etherProtoIpv4
      (packetOf s route dst proto buf bsize) (ipHdrSize + bsize)
      { s with ipGlobalId := s.ipGlobalId + 1 } with h | h
  · have hnil : s.tx ++ [frame] = s.tx := hsent.symm.trans h
    simp at hnil
  · have heq : s.tx ++ [frame] = s.tx ++ [frameOf s route dstMac dst proto buf bsize] :=
      hsent.symm.trans h
    simpa using heq

/-- It does give this frame to `sendto` when the route names the interface. -/
theorem ipSend_frame (env : Env) (hroute : s.rib.ipRouteFindByNetwork dst = some (some route))
    (hmac : cachedHaddr s.arp dst = some (some dstMac)) (hhandle : route.rIfaceHandle = 0)
    (hsize : ipHdrSize + bsize ≤ etherDataLen) : (ipSend env dst proto buf bsize s).2.tx =
      s.tx ++ [frameOf s route dstMac dst proto buf bsize] := by
  have hframe : ¬ frameSize (ipHdrSize + bsize) > etherMaxlen + etherFcsLen := by
    unfold etherDataLen at hsize
    unfold frameSize etherHeaderLen etherMinlen etherMaxlen etherFcsLen
    omega
  rw [ipSend_resolved hroute hmac (by omega)]
  unfold etherSend
  rw [hhandle, if_neg hframe, if_neg (by decide), if_neg (by decide), get_bind, modify_bind]
  dsimp only
  split_ifs
  · rfl
  · rfl

/-! ### The receiver -/

/-- A handler is called, and it makes no calls of its own. -/
theorem callHandler_calls (proto : Proto) (ip : IpHdr) (b : Buf) (size : ℕ) (t : Stack) :
    (callHandler env proto ip b size t).2.calls =
      t.calls ++ [⟨ip.ipProto, ip.ipSrc, shift b (ipHdrHlen ip), size⟩] := by
  unfold callHandler
  rw [modify_bind]
  refine Steps.bind .trans (protoInput_calls env proto ip b _ size) (fun x => ?_)
    { t with calls := t.calls ++ [⟨ip.ipProto, ip.ipSrc, shift b (ipHdrHlen ip), size⟩] }
  dsimp only
  exact .ite (fun _ => .pure .refl _) fun _ => .ite (fun _ => .pure .refl _) fun _ => .pure .refl _

/-- `ether_input` of an IP packet makes the calls that `ip_input` makes. -/
theorem etherInput_calls (hDst hSrc : MacAddr) (b : Buf) (size : ℕ) (t : Stack) :
    (etherInput env ⟨hDst, hSrc, etherProtoIpv4⟩ b size t).2.calls =
      (ipInput env (some hSrc) b size t).2.calls := by
  have hproto : etherProtoInput env ⟨hDst, hSrc, etherProtoIpv4⟩ b size =
      some (ipInput env (some hSrc) b size) := rfl
  unfold etherInput
  rw [hproto]
  dsimp only
  rw [bind_apply]
  rcases ipInput env (some hSrc) b size t with ⟨_ | ⟨retval, b'⟩, u⟩
  · rfl
  · dsimp only
    split_ifs
    · rfl
    · rfl

section

variable {srcMac : MacAddr} {b : Buf} {size : ℕ} {ip : IpHdr}

theorem ipInput_of_none {u : Stack} (hip : hdrOf (some srcMac) b = ip)
    (h : ipCheck (some srcMac) ip size t = (none, u)) :
    ipInput env (some srcMac) b size t = (none, u) := by
  subst hip
  exact bind_of_none h

theorem ipInput_of_some {u : Stack} {call : Option Dispatch} (hip : hdrOf (some srcMac) b = ip)
    (h : ipCheck (some srcMac) ip size t = (some call, u)) :
    ipInput env (some srcMac) b size t =
      ipCall env (ipFragmentInput env) ip (put b 0 ip.bytes) call u := by
  subst hip
  exact bind_of_some h

/-- A packet that fails one of the tests is dropped. -/
theorem ipCheck_dropped (h : ¬ ipAccepts ip size) :
    ipCheck (some srcMac) ip size t = (some none, t) := by
  unfold ipCheck
  rw [if_neg h]
  rfl

/-- `arp_cache_insert` of the sender has no result. -/
theorem ipCheck_stuck (hacc : ipAccepts ip size)
    (h : t.arp.arpCacheInsert ip.ipSrc srcMac .dyn = none) :
    ipCheck (some srcMac) ip size t = (none, t) := by
  have hinsert : State.arpCacheInsert ip.ipSrc srcMac .dyn t = (none, t) := by
    unfold State.arpCacheInsert
    rw [get_bind, h]
    rfl
  have hlearn : learnSender (some srcMac) ip.ipSrc t = (none, t) := bind_of_none hinsert
  unfold ipCheck
  rw [if_pos hacc, bind_of_none hlearn]

end

/-! ### There and back -/

/-- The memory behind `b` at the receiver begins with the packet. -/
theorem agree_packet {b packet : Buf} {n : ℕ}
    (h : ∀ i < (slice packet n).length, b i = (slice packet n).getD i 0) : Agree n b packet := by
  intro i hi
  rw [h i (by rwa [slice_length])]
  simp [slice, hi]

theorem receivedSize_eq_iff {n : ℕ} (hn : n ≤ 1500) : receivedSize n = n ↔ n = 1500 := by
  unfold receivedSize
  omega

/-- What `ip_input` calls for a packet of `ip_send` that comes with `size` bytes. -/
theorem ipInput_packet (env : Env) (srcMac : MacAddr) (size : ℕ) {p : Proto} {b : Buf}
    (hbsize : ipHdrSize + bsize < 2 ^ 16) (hproto : findProto proto = some p)
    (hlocal : t.rib.ipRouteFindByIface dst = some (some r))
    (hb : Agree (ipHdrSize + bsize) b (packetOf s route dst proto buf bsize)) :
    (∃ c, (ipInput env (some srcMac) b size t).2.calls = t.calls ++ [c] ∧ c.proto = proto ∧
      c.size = bsize ∧ slice c.data c.size = slice buf bsize) ↔
    size = ipHdrSize + bsize ∧ (t.arp.arpCacheInsert route.rIface srcMac .dyn).isSome := by
  obtain ⟨csum, hip⟩ := hdrOf_sendPacket srcMac hb
  set ip : IpHdr := { sendHdr route dst proto s.ipGlobalId (ipHdrSize + bsize) with ipCsum := csum }
  have hlen : ip.ipLen.toNat = ipHdrSize + bsize := by
    show (UInt16.ofNat _).toNat = _
    rw [UInt16.toNat_ofNat', Nat.mod_eq_of_lt (by omega)]
  have hhl : ipHdrHlen ip = 20 := ipHdrHlen_default rfl
  have hpay : Agree bsize (shift (put b 0 ip.bytes) 20) buf := payload_sendPacket ip hb
  have hnone : (ipInput env (some srcMac) b size t).2.calls = t.calls →
      ¬ ∃ c, (ipInput env (some srcMac) b size t).2.calls = t.calls ++ [c] ∧ c.proto = proto ∧
        c.size = bsize ∧ slice c.data c.size = slice buf bsize := by
    rintro hcalls ⟨c, hc, -⟩
    rw [hcalls] at hc
    simp at hc
  by_cases hsize : size = ipHdrSize + bsize
  · subst hsize
    rcases harp : t.arp.arpCacheInsert route.rIface srcMac .dyn with _ | x
    · have hvhl : ip.ipVhl &&& 0x40 = 0x40 := by
        show ipVhlDefault &&& 0x40 = 0x40
        decide
      have hcheck : ipCheck (some srcMac) ip (ipHdrSize + bsize) t = (none, t) :=
        ipCheck_stuck ⟨hvhl, hhl.ge, hlen⟩ harp
      exact iff_of_false (hnone (by rw [ipInput_of_none hip hcheck])) (by simp)
    · have hsome : (t.arp.arpCacheInsert route.rIface srcMac .dyn).isSome := by rw [harp]; rfl
      obtain ⟨arp, e, hcheck⟩ := ipCheck_handler (s := t) ip rfl hlen rfl hproto hsome hlocal
      refine iff_of_true
        ⟨⟨ip.ipProto, ip.ipSrc, shift (put b 0 ip.bytes) (ipHdrHlen ip), bsize⟩, ?_, rfl, rfl, ?_⟩ (by simp)
      · rw [ipInput_of_some hip hcheck]
        exact callHandler_calls p ip _ bsize _
      · rw [hhl]
        exact hpay.slice
  · have hcheck : ipCheck (some srcMac) ip size t = (some none, t) :=
      ipCheck_dropped fun hacc => hsize (hacc.2.2.symm.trans hlen)
    refine iff_of_false (hnone ?_) fun h => hsize h.1
    rw [ipInput_of_some hip hcheck, ipCall, pure_apply]

/-- What is received is an IP packet. -/
theorem understood_received {hDst hSrc : MacAddr} {rxBuffer b : Buf} {size : ℕ} {frame : List UInt8}
    (hrecv : etherReceive t.mac rxBuffer etherMaxlen [frame] =
      some (some (⟨hDst, hSrc, etherProtoIpv4⟩, b, size))) :
    Understood env t rxBuffer frame proto (slice buf bsize) ↔
      ∃ c, (ipInput env (some hSrc) b size t).2.calls = t.calls ++ [c] ∧ c.proto = proto ∧
        c.size = bsize ∧ slice c.data c.size = slice buf bsize := by
  unfold Understood
  rw [hrecv, slice_length]
  constructor
  · rintro ⟨hdr, b', size', heq, hc⟩
    obtain ⟨rfl, rfl, rfl⟩ : ⟨hDst, hSrc, etherProtoIpv4⟩ = hdr ∧ b = b' ∧ size = size' := by
      simpa using heq
    rwa [etherInput_calls] at hc
  · intro hc
    refine ⟨_, _, _, rfl, ?_⟩
    rwa [etherInput_calls]

theorem understood_frame (env : Env) (s : Stack) (route : IpRoute) (dstMac : MacAddr) (buf rxBuffer : Buf)
    (hsize : ipHdrSize + bsize ≤ 1500) (hlocal : t.rib.ipRouteFindByIface dst = some (some r))
    (hproto : (findProto proto).isSome) :
    Understood env t rxBuffer (frameOf s route dstMac dst proto buf bsize) proto (slice buf bsize) ↔
      ipHdrSize + bsize = 1500 ∧ s.mac ≠ t.mac ∧
        (t.arp.arpCacheInsert route.rIface s.mac .dyn).isSome := by
  obtain ⟨p, hp⟩ := Option.isSome_iff_exists.mp hproto
  unfold frameOf
  by_cases hown : s.mac = t.mac
  · refine iff_of_false ?_ fun h => h.2.1 hown
    rintro ⟨hdr, b, size, hrecv, -⟩
    rw [hown, etherReceive_own] at hrecv
    cases hrecv
  · have hdata : (slice (packetOf s route dst proto buf bsize) (ipHdrSize + bsize)).length ≤ 1500 := by
      rwa [slice_length]
    obtain ⟨b, hrecv, hb⟩ := etherReceive_frame dstMac etherProtoIpv4 rxBuffer hdata hown
    rw [slice_length] at hrecv
    rw [understood_received hrecv, ipInput_packet env s.mac _ (by omega) hp hlocal (agree_packet hb),
      receivedSize_eq_iff hsize]
    exact ⟨fun h => ⟨h.1, hown, h.2⟩, fun h => ⟨h.1, h.2.2⟩⟩

/-- **A packet of `ip_send` is understood by another instance of the stack iff it has 1500 bytes:**
padding and frame check sequence are taken for a part of every other one. -/
theorem understood_iff (env env' : Env) (s t : Stack) (route r : IpRoute) (dst : InAddr)
    (dstMac : MacAddr) (proto : UInt8) (buf : Buf) (bsize : ℕ) (frame : List UInt8) (rxBuffer : Buf)
    (hsize : ipHdrSize + bsize ≤ etherDataLen)
    (hroute : s.rib.ipRouteFindByNetwork dst = some (some route))
    (hmac : cachedHaddr s.arp dst = some (some dstMac))
    (hsent : (ipSend env dst proto buf bsize s).2.tx = s.tx ++ [frame])
    (hlocal : t.rib.ipRouteFindByIface dst = some (some r)) (hproto : (findProto proto).isSome) :
    Understood env' t rxBuffer frame proto (slice buf bsize) ↔
      ipHdrSize + bsize = etherDataLen ∧ s.mac ≠ t.mac ∧
        (t.arp.arpCacheInsert route.rIface s.mac .dyn).isSome := by
  rw [frame_eq hroute hmac (by omega) hsent]
  exact understood_frame env' s route dstMac buf rxBuffer hsize hlocal hproto

/-- A host next to `loopback`, which it takes for the host with the address 2. -/
def neighbour : Stack := { loopback with mac := fun _ => 1 }

theorem neighbour_route : neighbour.rib.ipRouteFindByNetwork 2 =
    some (some ⟨2, 0xffffffff, 0, 2, 0⟩) := by decide +kernel

theorem neighbour_mac : cachedHaddr neighbour.arp 2 = some (some fun _ => 0) := by decide +kernel

theorem loopback_local : loopback.rib.ipRouteFindByIface 2 =
    some (some ⟨2, 0xffffffff, 0, 2, 0⟩) := by decide +kernel

/-- A full packet with a UDP datagram. -/
theorem understood_iff_full : ∃ frame,
    (ipSend ⟨.ofSign, fun _ => 0⟩ 2 17 (fun _ => 1) 1480 neighbour).2.tx = [frame] ∧
    Understood ⟨.ofSign, fun _ => 0⟩ loopback (fun _ => 0) frame 17 (slice (fun _ => 1) 1480) := by
  have hsent : (ipSend ⟨.ofSign, fun _ => 0⟩ 2 17 (fun _ => 1) 1480 neighbour).2.tx =
      neighbour.tx ++ [_] := ipSend_frame _ neighbour_route neighbour_mac rfl (by decide)
  refine ⟨_, hsent, ?_⟩
  exact (understood_iff _ _ neighbour loopback _ _ 2 _ 17 (fun _ => 1) 1480 _ _ (by decide)
    neighbour_route neighbour_mac hsent loopback_local (by decide)).mpr
    ⟨rfl, by decide, by decide +kernel⟩

/-- Eight bytes of payload: the frame has 60 bytes of data, not 28. -/
theorem short_dropped : ∃ frame,
    (ipSend ⟨.ofSign, fun _ => 0⟩ 2 17 (fun _ => 1) 8 neighbour).2.tx = [frame] ∧
    ¬ Understood ⟨.ofSign, fun _ => 0⟩ loopback (fun _ => 0) frame 17 (slice (fun _ => 1) 8) := by
  refine ⟨_, ipSend_frame _ neighbour_route neighbour_mac rfl (by decide), fun h => ?_⟩
  exact absurd ((understood_frame _ neighbour _ _ _ _ (by decide) loopback_local (by decide)).mp h).1
    (by decide)

end Xstack.Net.Interop
