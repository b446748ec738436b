import Xstack.Net.Validate
import Xstack.Udp.Bind

/-! # UDP over IP, there and back

The packet that `xstack_udp_send` gives to `ether_send`, given to `ip_input` of another stack, is a
call of `xstack_sock_dgram_input` with the same bytes (`round_trip`). -/

namespace Xstack.Udp.RoundTrip

open Xstack.Config Xstack.Lib.Bytes Xstack.Lib.Program Xstack.Ether Xstack.Ip.Header Xstack.Ip.Route
open Xstack.Arp.Cache Xstack.Net.Validate
open Xstack.Sock.Queue Xstack.Net.State Xstack.Net.Send Xstack.Net.Input Xstack.Udp.Bind

/-! ### The packet -/

variable {env : Env} {s t : Stack} {route : IpRoute} {dst : InAddr} {dstMac : MacAddr}

variable {hdr : IpHdr} {udp : UdpHdr} {b buf : Buf} {bsize n : ℕ}

/-- The header that `ip_input` sees. -/
theorem hdrOf_sendPacket (srcMac : MacAddr)
    (hb : Agree (ipHdrSize + bsize) b (sendPacket hdr buf bsize)) :
    ∃ csum, hdrOf (some srcMac) b = { hdr with ipCsum := csum } := by
  obtain ⟨csum, hc⟩ := load_ipHton (copy (fun _ => 0) ipHdrSize buf bsize) hdr
  refine ⟨csum, ?_⟩
  have hload : IpHdr.load b = { ipNtoh hdr with ipCsum := csum } := by
    rw [← hc]
    exact IpHdr.load_congr hb (by unfold ipHdrSize; omega)
  show ipNtoh (IpHdr.load b) = _
  rw [hload]
  show { ipNtoh (ipNtoh hdr) with ipCsum := csum } = _
  rw [ipNtoh_ipNtoh]

/-- Behind the header is what was given to `ip_send`. -/
theorem payload_sendPacket (ip : IpHdr) (hb : Agree (ipHdrSize + bsize) b (sendPacket hdr buf bsize)) :
    Agree bsize (shift (put b 0 ip.bytes) 20) buf := by
  intro i hi
  show put b 0 ip.bytes (20 + i) = buf i
  rw [put_outside (by simp), hb _ (by unfold ipHdrSize; omega)]
  unfold sendPacket
  rw [ipHton_outside (by omega), show 20 + i = ipHdrSize + i from rfl, copy_inside hi]

theorem hdrAt_udpBuf {o : ℕ} (hb : Agree (udpHdrSize + n) (shift b o) (udpBuf udp buf n)) :
    hdrAt b o = udp := by
  have h8 : Agree 8 (shift b o) (ofBytes (udpNtoh udp).bytes) := by
    intro i hi
    rw [hb i (by unfold udpHdrSize; omega), udpBuf, copy_outside (by unfold udpHdrSize; omega)]
  unfold hdrAt
  rw [UdpHdr.load_congr h8 le_rfl, ofBytes, UdpHdr.load_put, udpNtoh_udpNtoh]

theorem dataOf_udpBuf {o : ℕ} (hb : Agree (udpHdrSize + n) (shift b o) (udpBuf udp buf n)) :
    dataOf b o (udpHdrSize + n) = slice buf n := by
  unfold dataOf
  rw [Nat.add_sub_cancel_left]
  refine Agree.slice fun i hi => ?_
  have h := hb (udpHdrSize + i) (by omega)
  rw [udpBuf, copy_inside hi] at h
  rw [← h]
  show swapped b o (o + udpHdrSize + i) = b (o + (udpHdrSize + i))
  unfold swapped
  rw [put_outside (by simp [udpHdrSize]), Nat.add_assoc]

/-! ### The receiver -/

/-- The call of `xstack_sock_dgram_input` for socket `i`, and the return of 0. While the queue of the
socket is full the call does not return. -/
def dgramInput (i : ℕ) (srcaddr : SockAddr) (data : List UInt8) (b : Buf) : Act (ℤ × Buf) := do
  let s ← get
  let sock := s.udp.sock i
  let shmem ← ofOption (xstackSockDgramInput sock.shmem sock.sockAddr srcaddr data)
  modify fun s => { s with
    udp := { s.udp with sock := Function.update s.udp.sock i { sock with shmem := shmem } } }
  return (0, b)

theorem ipHdrHlen_default {ip : IpHdr} (h : ip.ipVhl = ipVhlDefault) : ipHdrHlen ip = ipHdrSize := by
  unfold ipHdrHlen
  rw [h]
  rfl

/-- `ip_input` up to the call of the handler. -/
theorem ipCheck_handler {srcMac : MacAddr} {r : IpRoute} {proto : Proto} (ip : IpHdr)
    (hvhl : ip.ipVhl = ipVhlDefault) (hlen : ip.ipLen.toNat = ipHdrSize + n)
    (hfoff : ip.ipFoff = ipToffDefault) (hproto : findProto ip.ipProto = some proto)
    (harp : (s.arp.arpCacheInsert ip.ipSrc srcMac .dyn).isSome)
    (hlocal : s.rib.ipRouteFindByIface ip.ipDst = some (some r)) :
    ∃ arp e, ipCheck (some srcMac) ip (ipHdrSize + n) s =
      (some (some (.handler proto n)), { s with arp := arp, errno := e }) := by
  have hh := ipHdrHlen_default hvhl
  have hacc : ipAccepts ip (ipHdrSize + n) := ⟨by rw [hvhl]; rfl, hh.ge, hlen⟩
  have hlt := ip.ipLen.toNat_lt
  have hsub : sub64 (ipHdrSize + n) (ipHdrHlen ip) = n := by
    rw [hh, sub64_of_le (by omega) (by omega), Nat.add_sub_cancel_left]
  have hfrag : ipFragmentIsFrag ip = false := by
    unfold ipFragmentIsFrag
    rw [hfoff]
    rfl
  have hcall : ipDispatch ip (ipHdrSize + n) true = .handler proto n := by
    unfold ipDispatch
    rw [hfrag, hproto, hsub]
    rfl
  rw [← hcall]
  exact ipCheck_local hacc harp hlocal

/-- `udp_input` hands the datagram to socket `i`, and `ip_input` makes no reply of it. -/
theorem callHandler_udp {ip : IpHdr} {o i : ℕ} {src : SockAddr} {data : List UInt8}
    (ho : ipHdrHlen ip = o) (hn : n ≤ ipMaxBytes)
    (hin : s.udp.udpInput env.mc ip b o n = handTo ip b o n s.udp i)
    (hsrc : srcOf ip b o = src) (hdata : dataOf b o n = data) :
    callHandler env .udp ip b n s = dgramInput i src data (swapped b o)
      { s with calls := s.calls ++ [⟨ip.ipProto, ip.ipSrc, shift b o, n⟩] } := by
  subst ho hsrc hdata
  unfold handTo at hin
  rw [if_neg (by unfold udpHdrSize; omega)] at hin
  let s' : Stack := { s with calls := s.calls ++ [⟨ip.ipProto, ip.ipSrc, shift b (ipHdrHlen ip), n⟩] }
  have hin : s'.udp.udpInput env.mc ip b (ipHdrHlen ip) n = _ := hin
  unfold callHandler
  rw [modify_bind]
  show (protoInput env .udp ip b (ipHdrHlen ip) n >>= _) s' = dgramInput _ _ _ _ s'
  unfold dgramInput
  rw [get_bind]
  dsimp only
  rcases hd : xstackSockDgramInput (s'.udp.sock i).shmem (s'.udp.sock i).sockAddr
      (srcOf ip b (ipHdrHlen ip)) (dataOf b (ipHdrHlen ip) n) with _ | shmem
  · have hd' : xstackSockDgramInput (s.udp.sock i).shmem (s.udp.sock i).sockAddr
      (srcOf ip b (ipHdrHlen ip)) (dataOf b (ipHdrHlen ip) n) = none := hd
    rw [hd'] at hin
    have hp : protoInput env .udp ip b (ipHdrHlen ip) n s' = (none, s') := by
      unfold protoInput
      rw [get_bind, hin]
      rfl
    rw [bind_of_none hp]
    rfl
  · have hd' : xstackSockDgramInput (s.udp.sock i).shmem (s.udp.sock i).sockAddr
      (srcOf ip b (ipHdrHlen ip)) (dataOf b (ipHdrHlen ip) n) = some shmem := hd
    rw [hd'] at hin
    have hp : protoInput env .udp ip b (ipHdrHlen ip) n s' = (some (0, swapped b (ipHdrHlen ip)),
        { s' with udp := { s'.udp with
          sock := Function.update s'.udp.sock i { s'.udp.sock i with shmem := shmem } } }) := by
      unfold protoInput
      rw [get_bind, hin]
      rfl
    rw [bind_of_some hp]
    rfl

/-- **UDP over IP.** What `xstack_udp_send` gives to `ether_send` is, at the receiver, one call of
`xstack_sock_dgram_input` for the socket bound to the destination, with the sender's address and
port and the same bytes; no reply is sent. -/
theorem round_trip (env₁ env₂ : Env) (s₁ s₂ : Stack) (sockAddr : SockAddr) (dgram : XstackDgram)
    (sport dport : UInt16) (dst : InAddr) (route r : IpRoute) (srcMac dstMac : MacAddr)
    (socks : List UdpSock) (ops : List Op) (h : History) (i : ℕ)
    (hsport : sockAddr.port = sport.toUInt32) (hdport : dgram.dstaddr = ⟨dst, dport.toUInt32⟩)
    (hsize : 1 ≤ dgram.bufSize ∧ dgram.bufSize ≤ 1472)
    (hroute : s₁.rib.ipRouteFindByNetwork dst = some (some route))
    (hmac : cachedHaddr s₁.arp dst = some (some dstMac))
    (hlocal : s₂.rib.ipRouteFindByIface dst = some (some r))
    (harp : (s₂.arp.arpCacheInsert route.rIface srcMac .dyn).isSome)
    (hd : Distinct socks.length ops) (hrun : run env₂.mc (start socks) ops = some h)
    (hudp : s₂.udp = h.table) (hi : i ∈ h.bound) (ha : addr h.table i = ⟨dst, dport.toUInt32⟩) :
    ∃ packet size, xstackUdpSend env₁ sockAddr dgram s₁ =
        etherSend env₁ route.rIfaceHandle dstMac etherProtoIpv4 packet size
          { s₁ with ipGlobalId := s₁.ipGlobalId + 1 } ∧
      ∀ b, Agree size b packet → ∃ s b', s.udp = s₂.udp ∧ s.tx = s₂.tx ∧
        ipInput env₂ (some srcMac) b size s₂ =
          dgramInput i ⟨route.rIface, sport.toUInt32⟩ (slice dgram.buf dgram.bufSize) b' s := by
  obtain ⟨h1, h2⟩ := hsize
  set n := dgram.bufSize with hn
  set udp : UdpHdr := ⟨sport, dport, UInt16.ofNat (udpHdrSize + n), 0⟩ with hu
  set hdr := sendHdr route dst ipProtoUdp s₁.ipGlobalId (ipHdrSize + (udpHdrSize + n)) with hhdr
  refine ⟨sendPacket hdr (udpBuf udp dgram.buf n) (udpHdrSize + n), ipHdrSize + (udpHdrSize + n), ?_,
    fun b hb => ?_⟩
  · unfold xstackUdpSend
    rw [if_neg (by simp only [udpMaxlen, not_not]; omega), hdport, hsport]
    simp only [UInt16.toUInt16_toUInt32]
    exact ipSend_resolved hroute hmac (by unfold udpHdrSize etherDataLen; omega)
  · obtain ⟨csum, hip⟩ := hdrOf_sendPacket srcMac hb
    set ip := hdrOf (some srcMac) b with hipdef
    have hlen : ip.ipLen.toNat = ipHdrSize + (udpHdrSize + n) := by
      rw [hip]
      show (UInt16.ofNat _).toNat = _
      rw [UInt16.toNat_ofNat', Nat.mod_eq_of_lt]
      unfold ipHdrSize udpHdrSize
      omega
    have hdst : ip.ipDst = dst := by rw [hip]; rfl
    have hsrc : ip.ipSrc = route.rIface := by rw [hip]; rfl
    have hhl : ipHdrHlen ip = 20 := ipHdrHlen_default (by rw [hip]; rfl)
    obtain ⟨arp, e, hcheck⟩ := ipCheck_handler (s := s₂) ip (by rw [hip]; rfl) hlen
      (by rw [hip]; rfl) (by rw [hip]; rfl) (by rwa [hsrc]) (by rwa [hdst])
    have hpay := payload_sendPacket ip hb
    have hat : hdrAt (put b 0 ip.bytes) 20 = udp := hdrAt_udpBuf hpay
    have hI := (run_inv hd hrun).1
    have hin : s₂.udp.udpInput env₂.mc ip (put b 0 ip.bytes) 20 (udpHdrSize + n) =
        handTo ip (put b 0 ip.bytes) 20 (udpHdrSize + n) s₂.udp i := by
      refine udpInput_found (by omega) ?_
      rw [hudp]
      refine hI.find_some hi ?_
      rw [ha, dstOf, hat, hdst]
    refine ⟨_, _, ?_, ?_, (bind_of_some hcheck).trans (callHandler_udp hhl ?_ hin ?_ ?_)⟩
    · rfl
    · rfl
    · unfold udpHdrSize ipMaxBytes
      omega
    · rw [srcOf, hat, hsrc]
    · exact dataOf_udpBuf hpay

/-- A stack with the interface 2 that knows its own address, and with a socket on port 7. -/
def loopback : Stack :=
  { Stack.init (fun _ => 0) with
    rib := (Rib.init.ipRouteUpdate ⟨2, 0xffffffff, 0, 2, 0⟩).getD Rib.init
    arp := ((ArpCache.init.arpCacheInsert 2 (fun _ => 0) .dyn).map Prod.snd).getD ArpCache.init
    udp := ((run .ofSign (start [⟨⟨2, 7⟩, xstackInit 0⟩]) [.bind 0]).map History.table).getD
      UdpTable.init }

/-- A datagram of three bytes to the socket on port 7 of the same stack. -/
theorem round_trip_loopback : ∃ packet size,
    xstackUdpSend ⟨.ofSign, fun _ => 0⟩ ⟨2, 9⟩ ⟨⟨0, 0⟩, ⟨2, 7⟩, 3, fun _ => 1⟩ loopback =
        etherSend ⟨.ofSign, fun _ => 0⟩ 0 (fun _ => 0) etherProtoIpv4 packet size
          { loopback with ipGlobalId := loopback.ipGlobalId + 1 } ∧
      ∀ b, Agree size b packet → ∃ s b', s.udp = loopback.udp ∧ s.tx = loopback.tx ∧
        ipInput ⟨.ofSign, fun _ => 0⟩ (some fun _ => 0) b size loopback =
          dgramInput 0 ⟨2, 9⟩ (slice (fun _ => 1) 3) b' s := by
  have hsome : (run .ofSign (start [⟨⟨2, 7⟩, xstackInit 0⟩]) [.bind 0]).isSome := by decide +kernel
  obtain ⟨h, hh⟩ := Option.isSome_iff_exists.mp hsome
  have hb : (run .ofSign (start [⟨⟨2, 7⟩, xstackInit 0⟩]) [.bind 0]).map
      (fun h => (h.bound, addr h.table 0)) = some ([0], ⟨2, 7⟩) := by decide +kernel
  rw [hh] at hb
  obtain ⟨h1, h2⟩ : h.bound = [0] ∧ addr h.table 0 = ⟨2, 7⟩ := by simpa using hb
  have hudp : loopback.udp = h.table := by
    unfold loopback
    rw [hh]
    rfl
  exact round_trip _ ⟨.ofSign, fun _ => 0⟩ loopback loopback ⟨2, 9⟩ _ 9 7 2
    ⟨2, 0xffffffff, 0, 2, 0⟩ ⟨2, 0xffffffff, 0, 2, 0⟩ (fun _ => 0) (fun _ => 0) _ _ h 0 rfl rfl
    (by decide) (by decide +kernel) (by decide +kernel) (by decide +kernel) (by decide +kernel)
    ⟨by decide, by decide⟩ hh hudp (by simp [h1]) h2

end Xstack.Udp.RoundTrip
