import Xstack.Ip.Checksum
import Xstack.Net.Interop
import Xstack.Net.TwoRuns
import Xstack.Udp.RoundTrip

/-! # ICMP errors

What the sender of a packet gets back when `icmp_generate_dest_unreachable` is called for it.

* `Generates`: the three calls, with the buffer as the code before them has left it.
* `WellFormed`: the error as a packet. It never is one (`never_wellFormed`), since the size of the
  message is counted twice.
* `Quotes`: the error has the header and the first bytes of the packet. `quotes_iff`: it has, but for
  a UDP header that `udp_input` has swapped, and a checksum that is written as the other zero. -/

namespace Xstack.Net.Unreachable

open Xstack.Config Xstack.Lib.Bytes Xstack.Lib.Program Xstack.Ip.Header Xstack.Ip.Checksum Xstack.Udp
open Xstack.Net.State Xstack.Net.Input Xstack.Net.Validate Xstack.Net.Interop Xstack.Net.TwoRuns

variable (env : Env)

/-- **`ip_input` calls `icmp_generate_dest_unreachable`** with a code, a buffer and a size, and returns
in the given state. -/
inductive Generates (src : Option MacAddr) (b : Buf) (bsize : ℕ) (s : Stack) :
    UInt8 → Buf → ℕ → Stack → Prop
  /-- Host or protocol unreachable. -/
  | unreachable {code : UInt8} {size : ℕ} {t : Stack}
      (h : ipCheck src (hdrOf src b) bsize s = (some (some (.unreachable code size)), t)) :
      Generates src b bsize s code (put b 0 (hdrOf src b).bytes) size t
  /-- Port unreachable: the handler has returned `-ENOTSOCK`. -/
  | port {proto : Proto} {size : ℕ} {c : Buf} {t u : Stack}
      (h : ipCheck src (hdrOf src b) bsize s = (some (some (.handler proto size)), t))
      (hret : protoInput env proto (hdrOf src b) (put b 0 (hdrOf src b).bytes)
        (ipHdrHlen (hdrOf src b)) size
        (withCall t (hdrOf src b) (put b 0 (hdrOf src b).bytes) size) = (some (-ENOTSOCK, c), u)) :
      Generates src b bsize s icmpCodePortunreac c size u

variable {env} {src : Option MacAddr} {b c : Buf} {bsize size o : ℕ} {s t : Stack} {code : UInt8}

/-- What `ip_input` returns then. -/
theorem Generates.ipInputWith (h : Generates env src b bsize s code c size t)
    (fragmentInput : IpHdr → Buf → Act ℤ) : ipInputWith env fragmentInput src b bsize s =
      (some (icmpGenerateDestUnreachable c code (ipHdrHlen (hdrOf src b)) size), t) := by
  cases h with
  | unreachable h => exact bind_of_some h
  | port h hret => exact (bind_of_some h).trans (callHandler_of_some env hret)

/-- The arguments of the calls: `ip_input` passes on the buffer with the header in host order, and only
`udp_input` changes more of it. -/
theorem Generates.args (h : Generates env src b bsize s code c size t) :
    ipAccepts (hdrOf src b) bsize ∧ size = sub64 bsize (ipHdrHlen (hdrOf src b)) ∧
      ((code ≠ icmpCodePortunreac ∧ c = put b 0 (hdrOf src b).bytes) ∨
        (code = icmpCodePortunreac ∧ c = Udp.Bind.swapped (put b 0 (hdrOf src b).bytes)
          (ipHdrHlen (hdrOf src b)))) := by
  cases h with
  | unreachable h =>
    obtain ⟨hacc, isLocal, hcall⟩ := ipCheck_accepts h
    have hsize := size_ipDispatch hacc isLocal
    rw [← hcall, size_unreachable] at hsize
    refine ⟨hacc, hsize, Or.inl ⟨?_, rfl⟩⟩
    unfold ipDispatch at hcall
    split_ifs at hcall
    · cases hcall
      decide
    · split at hcall
      · cases hcall
      · cases hcall
        decide
  | port h hret =>
    obtain ⟨hacc, isLocal, hcall⟩ := ipCheck_accepts h
    have hsize := size_ipDispatch hacc isLocal
    rw [← hcall, size_handler] at hsize
    have hsocket := (protoInput_spec env hret).2 rfl
    obtain rfl := hsocket.1
    rw [protoInput_absent env hsocket] at hret
    cases hret
    exact ⟨hacc, hsize, Or.inr ⟨rfl, rfl⟩⟩

/-! ### The packet -/

/-- **The error `r` for a packet with `n` bytes of payload is a packet,** with the message that is at
`o`. -/
structure WellFormed (o n : ℕ) (r : ℤ × Buf) : Prop where
  len : r.1 = ((ipNtoh (IpHdr.load r.2)).ipLen.toNat : ℤ)
  size : r.1 = ((20 + 8 + 20 + min 8 n : ℕ) : ℤ)
  start : ipHdrHlen (IpHdr.load r.2) = o
  hdrCsum : ipChecksum r.2 20 = 0
  msgCsum : ipChecksum (shift r.2 20) ((ipNtoh (IpHdr.load r.2)).ipLen.toNat - 20) = 0

/-- The size has 44 bytes too many, even where nothing is quoted. -/
theorem not_wellFormed (c : Buf) (code : UInt8) (o size n : ℕ) :
    ¬ WellFormed o n (icmpGenerateDestUnreachable c code o size) := by
  intro h
  have hsize := h.size
  have hmin : min 8 n ≤ 8 := Nat.min_le_left 8 n
  rw [icmpGenerateDestUnreachable_eq] at hsize
  dsimp only at hsize
  omega

/-- **No ICMP error of `ip_input` is well formed.** -/
theorem never_wellFormed (env : Env) (fragmentInput : IpHdr → Buf → Act ℤ) (src : Option MacAddr)
    (b : Buf) (bsize : ℕ) (s : Stack) (code : UInt8) (c : Buf) (size : ℕ) (t : Stack)
    (h : Generates env src b bsize s code c size t) : ∃ r,
      ipInputWith env fragmentInput src b bsize s = (some r, t) ∧
      r = icmpGenerateDestUnreachable c code (ipHdrHlen (hdrOf src b)) size ∧
      ¬ WellFormed (ipHdrHlen (hdrOf src b)) (bsize - ipHdrHlen (hdrOf src b)) r :=
  ⟨_, h.ipInputWith fragmentInput, rfl, not_wellFormed _ _ _ _ _⟩

/-- A packet of 28 bytes of a protocol that has no handler, from 0.0.0.3 to 0.0.0.2. -/
def strayPacket : Buf := ofBytes
  [0x45, 0, 0, 28, 0, 0, 0, 0, 64, 0, 0x7a, 0xde, 0, 0, 0, 3, 0, 0, 0, 2, 1, 2, 3, 4, 5, 6, 7, 8]

/-- The stack gets a packet from 0.0.0.3 for its interface. -/
theorem ipCheck_loopback {b : Buf} {bsize : ℕ} (hacc : ipAccepts (hdrOf (some fun _ => 1) b) bsize)
    (hsrc : (hdrOf (some fun _ => 1) b).ipSrc = 3) (hdst : (hdrOf (some fun _ => 1) b).ipDst = 2) :
    ∃ t, ipCheck (some fun _ => 1) (hdrOf (some fun _ => 1) b) bsize Udp.RoundTrip.loopback =
      (some (some (ipDispatch (hdrOf (some fun _ => 1) b) bsize true)), t) ∧
        t.udp = Udp.RoundTrip.loopback.udp := by
  have harp : (Udp.RoundTrip.loopback.arp.arpCacheInsert 3 (fun _ => 1) .dyn).isSome := by
    decide +kernel
  rw [← hsrc] at harp
  obtain ⟨arp, e, hcheck⟩ := ipCheck_local hacc harp (by rw [hdst]; exact loopback_local)
  exact ⟨_, hcheck, rfl⟩

theorem generates_stray : ∃ t, Generates ⟨.ofSign, fun _ => 42⟩ (some fun _ => 1) strayPacket 28
    Udp.RoundTrip.loopback icmpCodeProtounreac
    (put strayPacket 0 (hdrOf (some fun _ => 1) strayPacket).bytes) 8 t := by
  have hacc : ipAccepts (hdrOf (some fun _ => 1) strayPacket) 28 := by decide +kernel
  obtain ⟨t, hcheck, -⟩ := ipCheck_loopback hacc (by decide +kernel) (by decide +kernel)
  have hcall : ipDispatch (hdrOf (some fun _ => 1) strayPacket) 28 true =
      .unreachable icmpCodeProtounreac 8 := by decide +kernel
  rw [hcall] at hcheck
  exact ⟨t, .unreachable hcheck⟩

theorem never_wellFormed_stray : ∃ r t, ipInput ⟨.ofSign, fun _ => 42⟩ (some fun _ => 1) strayPacket
    28 Udp.RoundTrip.loopback = (some r, t) ∧ ¬ WellFormed 20 8 r := by
  obtain ⟨t, ht⟩ := generates_stray
  obtain ⟨r, hrun, -, hr⟩ := never_wellFormed _ (ipFragmentInput _) _ _ _ _ _ _ _ _ ht
  exact ⟨r, t, hrun, hr⟩

/-- The error has 108 bytes, and its header says 64. -/
theorem error_too_long : ∃ c d t, Generates ⟨.ofSign, fun _ => 42⟩ (some fun _ => 1) strayPacket 28
      Udp.RoundTrip.loopback icmpCodeProtounreac c 8 t ∧
    ipInput ⟨.ofSign, fun _ => 42⟩ (some fun _ => 1) strayPacket 28 Udp.RoundTrip.loopback =
      (some (108, d), t) ∧ ¬ WellFormed 20 8 (108, d) := by
  obtain ⟨t, ht⟩ := generates_stray
  have hrun := ht.ipInputWith (ipFragmentInput ⟨.ofSign, fun _ => 42⟩)
  rw [icmpGenerateDestUnreachable_eq] at hrun
  refine ⟨_, _, t, ht, hrun, fun h => ?_⟩
  exact absurd h.size (by decide)

/-! ### The quoted packet -/

/-- **The error in `r` quotes the packet in `b`:** behind the 20 bytes of the header and the 8 of the
message there are the 20 bytes of the old header and 8 bytes of data. -/
def Quotes (b r : Buf) : Prop := Agree 28 (shift r 28) b

/-- The bytes of the message behind the old header are those of the payload. -/
theorem quoted_data (c : Buf) (code : UInt8) (ho : 20 ≤ o) {i : ℕ} (hi : i < quoted size) :
    (icmpGenerateDestUnreachable c code o size).2 (o + 28 + i) = c (o + i) := by
  rw [icmpGenerateDestUnreachable_eq]
  show ipHton (errorPacket c code o (quoted size)) 0 _ (o + 28 + i) = c (o + i)
  rw [ipHton_outside (by omega)]
  unfold errorPacket
  rw [put_outside (Or.inr (by simp; omega)), ipHton_outside (by omega)]
  unfold errorMsg
  rw [put_outside (Or.inr (by simp; omega)), put_outside (Or.inr (by simp; omega)), copy_inside hi]
  rfl

/-- The old header is in network order, with a checksum of its own. -/
theorem quoted_hdr (c : Buf) (code : UInt8) (ho : 20 ≤ o) (size : ℕ) :
    Agree 20 (shift (icmpGenerateDestUnreachable c code o size).2 (o + 8))
      (ipHton (shift (errorMsg c code o (quoted size)) (o + 8)) 0 (IpHdr.load c)) := by
  intro i hi
  rw [← shift_ipHton, icmpGenerateDestUnreachable_eq]
  show ipHton (errorPacket c code o (quoted size)) 0 _ (o + 8 + i) = _
  rw [ipHton_outside (by omega)]
  unfold errorPacket
  rw [put_outside (Or.inr (by simp; omega)), load_errorMsg c code ho]
  rfl

/-- **The header that `ip_hton` makes of a valid header** is the same one, if the checksum is not the
zero that `ip_checksum` does not return. -/
theorem ipHton_valid_iff (c : Buf) (h20 : ipHdrHlen (IpHdr.load b) = 20) (hvalid : ipChecksum b 20 = 0) :
    Agree 20 (ipHton c 0 (ipNtoh (IpHdr.load b))) b ↔ rd16 b 10 ≠ 0xffff := by
  set d := ipHton c 0 (ipNtoh (IpHdr.load b)) with hd
  obtain ⟨csum, hload⟩ := load_ipHton c (ipNtoh (IpHdr.load b))
  rw [← hd, ipNtoh_ipNtoh] at hload
  have hcsum : csum ≠ 0xffff := by
    have hrd : rd16 d 10 = ipChecksum _ _ := rd16_put (o := 10) [] []
    have hc : rd16 d 10 = csum := congrArg IpHdr.ipCsum hload
    rw [← hc, hrd]
    exact ipChecksum_ne_max _ _
  constructor
  · intro hagree hmax
    have hc : rd16 b 10 = csum := (congrArg IpHdr.ipCsum (IpHdr.load_congr hagree le_rfl)).symm.trans
      (congrArg IpHdr.ipCsum hload)
    exact hcsum (hc.symm.trans hmax)
  · intro hmax
    -- the new header is the old one with another checksum, and both verify
    have hput : Agree 20 (put b 10 (le16 csum)) d := by
      refine IpHdr.load_inj ?_
      rw [hload]
      exact IpHdr.load_put_csum b csum
    have hverifies : ipChecksum (put b 10 (le16 csum)) 20 = 0 := by
      have h := ipHton_verifies c 0 (show 20 ≤ ipHdrHlen (ipNtoh (IpHdr.load b)) from h20.ge)
      rw [shift_zero, ipHdrHlen_ipNtoh, h20] at h
      rw [ipChecksum_congr hput]
      exact h
    have hsame : csum = rd16 b 10 :=
      csum_unique (by decide) (by decide) hvalid hverifies hmax hcsum
    refine IpHdr.load_inj ?_
    rw [hload, hsame]
    rfl

/-- `udp_input` leaves the header of a datagram as it is iff it reads the same in both byte orders. -/
theorem swapped_agree_iff (b : Buf) (o : ℕ) : Agree 8 (shift (Udp.Bind.swapped b o) o) (shift b o) ↔
    udpNtoh (UdpHdr.load (shift b o)) = UdpHdr.load (shift b o) := by
  have hload : UdpHdr.load (shift (Udp.Bind.swapped b o) o) = udpNtoh (UdpHdr.load (shift b o)) := by
    unfold Udp.Bind.swapped
    rw [shift_put, UdpHdr.load_put]
    rfl
  rw [← hload]
  exact ⟨fun h => UdpHdr.load_congr h le_rfl, UdpHdr.load_inj⟩

/-- What the error quotes of the buffer that `icmp_generate_dest_unreachable` gets. -/
theorem quotes_generated (code : UInt8) (hload : IpHdr.load c = ipNtoh (IpHdr.load b))
    (h20 : ipHdrHlen (IpHdr.load b) = 20) (hvalid : ipChecksum b 20 = 0) (h8 : quoted size = 8) :
    Quotes b (icmpGenerateDestUnreachable c code 20 size).2 ↔
      rd16 b 10 ≠ 0xffff ∧ Agree 8 (shift c 20) (shift b 20) := by
  set r := (icmpGenerateDestUnreachable c code 20 size).2 with hr
  have hhdr : Agree 20 (shift r 28) _ := quoted_hdr c code (le_refl 20) size
  have hdata : Agree 8 (shift (shift r 28) 20) (shift c 20) := by
    intro i hi
    rw [shift_shift]
    exact quoted_data c code (le_refl 20) (by omega)
  unfold Quotes
  rw [show (28 : ℕ) = 20 + 8 from rfl, agree_add, ← ipHton_valid_iff _ h20 hvalid, ← hload]
  refine and_congr ?_ ?_
  · exact ⟨fun h i hi => (hhdr i hi).symm.trans (h i hi), fun h i hi => (hhdr i hi).trans (h i hi)⟩
  · exact ⟨fun h i hi => (hdata i hi).symm.trans (h i hi), fun h i hi => (hdata i hi).trans (h i hi)⟩

/-- **ICMP errors quote the packet** iff its checksum is not 65535 and, if the port is unreachable, its
UDP header reads the same in both byte orders. -/
theorem quotes_iff (env : Env) (src : MacAddr) (b : Buf) (bsize : ℕ) (s : Stack) (code : UInt8) (c : Buf)
    (size : ℕ) (t : Stack) (h : Generates env (some src) b bsize s code c size t)
    (h20 : ipHdrHlen (hdrOf (some src) b) = 20) (hvalid : ipChecksum b 20 = 0) (h28 : 28 ≤ bsize) :
    ∃ r, ipInput env (some src) b bsize s = (some r, t) ∧
      (Quotes b r.2 ↔ rd16 b 10 ≠ 0xffff ∧ (code = icmpCodePortunreac →
        udpNtoh (UdpHdr.load (shift b 20)) = UdpHdr.load (shift b 20))) := by
  obtain ⟨hacc, hsize, hbuf⟩ := h.args
  have hlen := hacc.2.2
  have hlt := (hdrOf (some src) b).ipLen.toNat_lt
  have h8 : quoted size = 8 := by
    rw [hsize, h20, sub64_of_le (by omega) (by omega)]
    unfold quoted
    omega
  refine ⟨_, h.ipInputWith (ipFragmentInput env), ?_⟩
  rw [h20] at hbuf ⊢
  rcases hbuf with ⟨hcode, rfl⟩ | ⟨rfl, rfl⟩
  · have hload : IpHdr.load (put b 0 (hdrOf (some src) b).bytes) = ipNtoh (IpHdr.load b) :=
      IpHdr.load_put b _
    rw [quotes_generated code hload h20 hvalid h8, shift_hdr b _ le_rfl]
    exact and_congr_right fun _ => iff_of_true (fun _ _ => rfl) fun hc => absurd hc hcode
  · have hload : IpHdr.load (Udp.Bind.swapped (put b 0 (hdrOf (some src) b).bytes) 20) =
        ipNtoh (IpHdr.load b) := by
      refine Eq.trans ?_ (IpHdr.load_put b (ipNtoh (IpHdr.load b)))
      exact IpHdr.load_congr (n := 20) (fun i hi => put_outside (Or.inl hi)) le_rfl
    have hagree := swapped_agree_iff (put b 0 (hdrOf (some src) b).bytes) 20
    rw [shift_hdr b _ le_rfl] at hagree
    rw [quotes_generated _ hload h20 hvalid h8, hagree]
    exact and_congr_right fun _ => ⟨fun h _ => h, fun h => h rfl⟩

theorem quotes_iff_stray : ∃ r t, ipInput ⟨.ofSign, fun _ => 42⟩ (some fun _ => 1) strayPacket
    28 Udp.RoundTrip.loopback = (some r, t) ∧ Quotes strayPacket r.2 := by
  obtain ⟨t, ht⟩ := generates_stray
  obtain ⟨r, hrun, hr⟩ := quotes_iff _ _ _ _ _ _ _ _ _ ht (by decide +kernel) (by decide +kernel)
    (by decide)
  exact ⟨r, t, hrun, hr.mpr ⟨by decide +kernel, fun hc => absurd hc (by decide)⟩⟩

/-- A UDP datagram from port 9 to port 8 of 0.0.0.2, which has no socket. -/
def straySegment : Buf := ofBytes
  [0x45, 0, 0, 28, 0, 0, 0, 0, 64, 17, 0x7a, 0xcd, 0, 0, 0, 3, 0, 0, 0, 2, 0, 9, 0, 8, 0, 8, 0, 0]

/-- The ports come back with their bytes swapped. -/
theorem ports_swapped : ipHdrHlen (hdrOf (some fun _ => 1) straySegment) = 20 ∧
    ipChecksum straySegment 20 = 0 ∧ ∃ c r t, Generates ⟨.ofSign, fun _ => 42⟩ (some fun _ => 1)
      straySegment 28 Udp.RoundTrip.loopback icmpCodePortunreac c 8 t ∧
    ipInput ⟨.ofSign, fun _ => 42⟩ (some fun _ => 1) straySegment 28 Udp.RoundTrip.loopback =
      (some r, t) ∧ ¬ Quotes straySegment r.2 := by
  set ip := hdrOf (some fun _ => 1) straySegment with hip
  set b := put straySegment 0 ip.bytes with hb
  have hvalid : ipChecksum straySegment 20 = 0 := by decide +kernel
  have hacc : ipAccepts ip 28 := by decide +kernel
  obtain ⟨t, hcheck, hudp⟩ := ipCheck_loopback hacc (by decide +kernel) (by decide +kernel)
  have hcall : ipDispatch ip 28 true = .handler .udp 8 := by decide +kernel
  rw [hcall] at hcheck
  have hsocket : NoSocket ⟨.ofSign, fun _ => 42⟩ (withCall t ip b 8) ip b 20 8 .udp := by
    refine ⟨rfl, by decide, ?_⟩
    rw [show (withCall t ip b 8).udp = Udp.RoundTrip.loopback.udp from hudp]
    decide +kernel
  have hgen := Generates.port hcheck (protoInput_absent ⟨.ofSign, fun _ => 42⟩ hsocket)
  refine ⟨by decide +kernel, hvalid, _, _, _, hgen, hgen.ipInputWith (ipFragmentInput _),
    fun hquotes => ?_⟩
  have hport : (icmpGenerateDestUnreachable (Udp.Bind.swapped b 20) icmpCodePortunreac 20 8).2 49 =
      straySegment 21 := hquotes 21 (by decide)
  rw [show 49 = 20 + 28 + 1 from rfl, quoted_data _ _ le_rfl (by decide)] at hport
  exact absurd hport (by decide +kernel)

end Xstack.Net.Unreachable
