import Xstack.Ip.Checksum
import Xstack.Net.Interop

/-! # Echo

`ip_input` answers an ICMP echo request in the receive buffer. `icmp_input` rewrites the message,
`ip_reply_header` the header in front of it, and each of them computes a checksum.

* `icmpInput_echo`: the message.
* `ipReplyHeader_spec`: the header, for any packet.
* `echo_answered`: both, for every request. -/

namespace Xstack.Net.Echo

open Xstack.Config Xstack.Lib.Bytes Xstack.Lib.Program Xstack.Ip.Header Xstack.Ip.Checksum
open Xstack.Arp.Cache Xstack.Net.State Xstack.Net.Input Xstack.Net.Validate Xstack.Net.Interop

/-- **An echo request for an interface,** whole, with a header of any length. -/
structure EchoRequest (s : Stack) (ip : IpHdr) (b : Buf) (bsize : ℕ) : Prop where
  version : version ip = 4
  hlen : 20 ≤ ipHdrHlen ip
  len : ip.ipLen.toNat = bsize
  size : ipHdrHlen ip + 8 ≤ bsize
  whole : ipFragmentIsFrag ip = false
  proto : ip.ipProto = ipProtoIcmp
  isLocal : ∃ r, s.rib.ipRouteFindByIface ip.ipDst = some (some r)
  type : b (ipHdrHlen ip) = icmpTypeEchoRequest

/-- **The reply to the packet in `b` with header `ip`.** The packets differ in the two addresses, the
TTL, the type of the message and the two checksums. -/
structure EchoReply (ip : IpHdr) (b : Buf) (bsize : ℕ) (c : Buf) : Prop where
  hdr : ∃ csum, ipNtoh (IpHdr.load c) = { ip with
    ipSrc := ip.ipDst, ipDst := ip.ipSrc, ipTtl := ipTtlDefault, ipCsum := csum }
  len : (ipNtoh (IpHdr.load c)).ipLen.toNat = bsize
  type : c (ipHdrHlen ip) = icmpTypeEchoReply
  rest : ∀ i, 20 ≤ i → i ≠ ipHdrHlen ip → i ≠ ipHdrHlen ip + 2 → i ≠ ipHdrHlen ip + 3 → c i = b i
  hdrCsum : ipChecksum c (ipHdrHlen ip) = 0
  msgCsum : ipChecksum (shift c (ipHdrHlen ip)) (bsize - ipHdrHlen ip) = 0

variable {s : Stack} {ip : IpHdr} {b c : Buf} {o bsize : ℕ}

/-! ### The message -/

/-- The message that `icmp_input` leaves. -/
theorem icmpInput_echo (h8 : 8 ≤ bsize) (hmax : bsize ≤ ipMaxBytes)
    (htype : b o = icmpTypeEchoRequest) : ∃ c, icmpInput b o bsize = some ((bsize : ℤ), c) ∧
      c o = icmpTypeEchoReply ∧ (∀ i, i ≠ o → i ≠ o + 2 → i ≠ o + 3 → c i = b i) ∧
      ipChecksum (shift c o) bsize = 0 := by
  set d := put (put b o [icmpTypeEchoReply]) (o + 2) (le16 0) with hd
  refine ⟨put d (o + 2) (le16 (ipChecksum (shift d o) bsize)), ?_, ?_, fun i h0 h2 h3 => ?_, ?_⟩
  · unfold icmpInput icmpSize
    rw [if_neg (by omega), if_pos htype, if_neg (by omega)]
  · have hput := put_of_lt (b := b) (o := o) (l := [icmpTypeEchoReply]) (i := 0) Nat.one_pos
    rw [put_outside (by omega), hd, put_outside (by omega)]
    exact hput
  · have hlen : ∀ x : UInt16, (le16 x).length = 2 := length_le16
    have h1 : ([icmpTypeEchoReply] : List UInt8).length = 1 := rfl
    rw [put_outside (by rw [hlen]; omega), hd, put_outside (by rw [hlen]; omega),
      put_outside (by omega)]
  · rw [shift_put_add, hd, shift_put_add]
    exact ipChecksum_fill _ (by decide) (by omega)

/-! ### The header -/

/-- What `ip_reply_header` leaves, with a header in host order in the buffer. -/
theorem ipReplyHeader_spec (hip : IpHdr.load b = ip) (h20 : 20 ≤ ipHdrHlen ip) (n : ℕ) :
    (ipReplyHeader b n).1 = n + ipHdrHlen ip ∧
    (∃ csum, ipNtoh (IpHdr.load (ipReplyHeader b n).2) = { ip with
      ipSrc := ip.ipDst, ipDst := ip.ipSrc, ipTtl := ipTtlDefault,
      ipLen := UInt16.ofNat (n + ipHdrHlen ip), ipCsum := csum }) ∧
    (∀ i, 20 ≤ i → (ipReplyHeader b n).2 i = b i) ∧
    ipChecksum (ipReplyHeader b n).2 (ipHdrHlen ip) = 0 := by
  subst hip
  refine ⟨rfl, ?_, fun i hi => ?_, ?_⟩
  · obtain ⟨csum, hc⟩ := load_ipHton b { IpHdr.load b with
      ipSrc := (IpHdr.load b).ipDst, ipDst := (IpHdr.load b).ipSrc, ipTtl := ipTtlDefault,
      ipLen := UInt16.ofNat (n + ipHdrHlen (IpHdr.load b)) }
    refine ⟨csum, ?_⟩
    unfold ipReplyHeader
    rw [hc]
    simp [ipNtoh]
  · exact ipHton_outside (Or.inr (by omega))
  · have h := ipHton_verifies b 0 (show 20 ≤ ipHdrHlen { IpHdr.load b with
      ipSrc := (IpHdr.load b).ipDst, ipDst := (IpHdr.load b).ipSrc, ipTtl := ipTtlDefault,
      ipLen := UInt16.ofNat (n + ipHdrHlen (IpHdr.load b)) } from h20)
    rwa [shift_zero] at h

/-! ### The packet -/

/-- The version test of `ip_input` looks at one bit of the nibble. -/
theorem version_bit (h : version ip = 4) : (ip.ipVhl &&& 0x40) = 0x40 := by
  have hall : ∀ x : BitVec 8, x >>> 4 = 4#8 → x &&& 0x40#8 = 0x40#8 := by decide
  have hx : ip.ipVhl.toBitVec >>> 4 = 4#8 := by
    have := congrArg UInt8.toBitVec h
    simpa [version] using this
  exact UInt8.toBitVec_inj.mp (hall _ hx)

theorem EchoRequest.accepts (h : EchoRequest s ip b bsize) : ipAccepts ip bsize :=
  ⟨version_bit h.version, h.hlen, h.len⟩

/-- A request goes to `icmp_input`. -/
theorem EchoRequest.dispatch (h : EchoRequest s ip b bsize) :
    ipDispatch ip bsize true = .handler .icmp (bsize - ipHdrHlen ip) := by
  have hsize := h.size
  have hlt := ip.ipLen.toNat_lt
  have hlen := h.len
  have hfind : findProto ip.ipProto = some .icmp := by
    rw [h.proto]
    rfl
  unfold ipDispatch
  rw [Bool.not_true, h.whole, if_neg Bool.false_ne_true, if_neg Bool.false_ne_true, hfind,
    sub64_of_le (by omega) (by omega)]

/-- What the two functions do to a request. -/
theorem callHandler_echo (env : Env) (h : EchoRequest s ip b bsize) (t : Stack) (hdr : IpHdr.load b = ip) :
    ∃ c u, callHandler env .icmp ip b (bsize - ipHdrHlen ip) t = (some ((bsize : ℤ), c), u) ∧
      EchoReply ip b bsize c := by
  have hsize := h.size
  have h20 := h.hlen
  have hlt := ip.ipLen.toNat_lt
  have hlen := h.len
  have hmax : bsize - ipHdrHlen ip ≤ ipMaxBytes := by
    unfold ipMaxBytes
    omega
  obtain ⟨c, hc, htype, hrest, hcsum⟩ := icmpInput_echo (by omega) hmax h.type
  have hload : IpHdr.load c = ip := by
    rw [← hdr]
    refine IpHdr.load_congr (n := 20) (fun i hi => ?_) le_rfl
    exact hrest i (by omega) (by omega) (by omega)
  obtain ⟨hret, ⟨csum, hhdr⟩, hout, hhcsum⟩ :=
    ipReplyHeader_spec hload h20 (bsize - ipHdrHlen ip)
  have hproto := protoInput_icmp env hc ip (withCall t ip b (bsize - ipHdrHlen ip))
  have htotal : bsize - ipHdrHlen ip + ipHdrHlen ip = bsize := by omega
  rw [htotal] at hret hhdr
  have hofNat : UInt16.ofNat bsize = ip.ipLen := by
    rw [← hlen, UInt16.ofNat_toNat]
  rw [hofNat] at hhdr
  have hcall := callHandler_of_some env hproto
  rw [if_pos (by omega), Int.toNat_natCast, hret] at hcall
  refine ⟨_, _, hcall, ⟨csum, hhdr⟩, ?_, ?_, fun i hi h0 h2 h3 => ?_, hhcsum, ?_⟩
  · rw [hhdr]
    exact hlen
  · rw [hout _ h20]
    exact htype
  · rw [hout _ hi]
    exact hrest i h0 h2 h3
  · have hagree : Agree (bsize - ipHdrHlen ip)
        (shift (ipReplyHeader c (bsize - ipHdrHlen ip)).2 (ipHdrHlen ip)) (shift c (ipHdrHlen ip)) :=
      fun i _ => hout _ (by omega)
    rw [ipChecksum_congr hagree]
    exact hcsum

/-- **Every echo request is answered** with a packet of the same size, if `arp_cache_insert` returns
for its sender. -/
theorem echo_answered (env : Env) (s : Stack) (src : MacAddr) (b : Buf) (bsize : ℕ)
    (h : EchoRequest s (hdrOf (some src) b) b bsize)
    (harp : (s.arp.arpCacheInsert (hdrOf (some src) b).ipSrc src .dyn).isSome) :
    ∃ c t, ipInput env (some src) b bsize s = (some ((bsize : ℤ), c), t) ∧
      EchoReply (hdrOf (some src) b) b bsize c := by
  set ip := hdrOf (some src) b with hip
  obtain ⟨r, hr⟩ := h.isLocal
  obtain ⟨arp, e, hcheck⟩ := ipCheck_local h.accepts harp hr
  have h20 := h.hlen
  -- the handler gets the buffer with the header in host order
  have hhost : ∀ i, 20 ≤ i → put b 0 ip.bytes i = b i := fun i hi =>
    put_outside (Or.inr (by simpa using hi))
  have htype : put b 0 ip.bytes (ipHdrHlen ip) = icmpTypeEchoRequest := by
    rw [hhost _ h20]
    exact h.type
  have hreq : EchoRequest s ip (put b 0 ip.bytes) bsize := { h with type := htype }
  obtain ⟨c, t, hcall, hreply⟩ := callHandler_echo env hreq
    { s with arp := arp, errno := e } (IpHdr.load_put b ip)
  refine ⟨c, t, ?_, { hreply with rest := fun i hi h0 h2 h3 => ?_ }⟩
  · rw [ipInput_of_some hip.symm hcheck, h.dispatch]
    exact hcall
  · rw [hreply.rest i hi h0 h2 h3, hhost i hi]

/-- A request with four bytes of options and nine bytes of message, from 0.0.0.3 to 0.0.0.2. -/
def ping : Buf := ofBytes [0x46, 0, 0, 33, 0, 7, 0x40, 0, 9, 1, 0, 0, 0, 0, 0, 3, 0, 0, 0, 2,
  1, 1, 1, 0, 8, 0, 0, 0, 0, 5, 0, 1, 0x61]

theorem echo_answered_ping : ∃ c t, ipInput ⟨.ofSign, fun _ => 0⟩ (some fun _ => 1) ping 33
    Udp.RoundTrip.loopback = (some (33, c), t) ∧
      EchoReply (hdrOf (some fun _ => 1) ping) ping 33 c := by
  refine echo_answered _ _ _ ping 33 ⟨?_, ?_, ?_, ?_, ?_, ?_, ⟨_, loopback_local⟩, ?_⟩ ?_
  all_goals decide +kernel

end Xstack.Net.Echo
