import Xstack.Ip.Feed
import Xstack.Net.Frame
import Xstack.Net.Input
import Xstack.Net.Validate

/-! # Fragmentation and reassembly

The packets that `ip_send_fragments` makes (`fragments`, and `ipSendFragments_tx` for the frames), and
what `ip_input` does when it gets them back. `ip_fragment_input` records the length of the payload in
the header of the reassembled packet, without that header; `ip_input` takes it for the length of the
packet and subtracts the header (`lastFragment_noCall`). So no handler gets the size of what was sent
(`not_delivered`). -/

namespace Xstack.Net.Reassemble

open Xstack.Config Xstack.Lib.Bytes Xstack.Lib.Lex Xstack.Lib.Program Xstack.Ether Xstack.Ip.Header
open Xstack.Ip.Fragment Xstack.Ip.Feed Xstack.Arp.Cache Xstack.Net.State Xstack.Net.Send
open Xstack.Net.Input Xstack.Net.Frame Xstack.Net.Validate

/-! ### The packets -/

/-- The packets that the loop of `ip_send_fragments` gives to `ether_send`. -/
def fragmentsFrom (ipHdr : IpHdr) : ℕ → Buf → ℕ → ℕ → List (List UInt8)
  | 0, _, _, _ => []
  | fuel + 1, b, bytes, offset =>
    let plen := nextFragmentSize bytes (ipHdrHlen ipHdr) etherDataLen
    let b := fragmentPacket b ipHdr plen (bytes - plen) offset
    slice b (fragmentHdr ipHdr plen (bytes - plen) offset).ipLen.toNat ::
      if bytes - plen > 0 then fragmentsFrom ipHdr fuel b (bytes - plen) (offset + plen) else []

/-- The packets that `ip_send_fragments` makes of the packet of `bsize` bytes in `b`. -/
def fragments (b : Buf) (bsize : ℕ) : List (List UInt8) :=
  let ipHdr := ipNtoh (IpHdr.load b)
  let bytes := bsize - ipHdrHlen ipHdr
  fragmentsFrom ipHdr (bytes + 1) b bytes 0

theorem sendLoop_tx (env : Env) (handle : ℤ) (dstMac : MacAddr) (ipHdr : IpHdr) : ∀ (fuel : ℕ)
    (b : Buf) (bytes offset : ℕ) (retval r : ℤ) (s t : Stack),
    sendLoop env handle dstMac ipHdr fuel b bytes offset retval s = (some r, t) → 0 ≤ r →
      t.tx = s.tx ++ (fragmentsFrom ipHdr fuel b bytes offset).map
        (etherFrame dstMac s.mac etherProtoIpv4)
  | 0, _, _, _, _, _, _, _, h, _ => by cases h
  | fuel + 1, b, bytes, offset, retval, r, s, t, h, hr => by
    unfold sendLoop at h
    unfold fragmentsFrom
    set plen := nextFragmentSize bytes (ipHdrHlen ipHdr) etherDataLen
    set b' := fragmentPacket b ipHdr plen (bytes - plen) offset
    set size := (fragmentHdr ipHdr plen (bytes - plen) offset).ipLen.toNat
    dsimp only at h ⊢
    rcases hs : etherSend env handle dstMac etherProtoIpv4 b' size s with ⟨_ | eret, s'⟩
    · rw [bind_of_none hs] at h
      cases h
    · rw [bind_of_some hs] at h
      by_cases hneg : eret < 0
      · rw [if_pos hneg] at h
        have heq := Option.some.inj (Prod.mk.inj h).1
        omega
      · rw [if_neg hneg] at h
        have hsent : s'.tx = s.tx ++ [etherFrame dstMac s.mac etherProtoIpv4 (slice b' size)] ∧
            s'.mac = s.mac :=
          etherSend_ok env hs (by omega)
        obtain ⟨htx, hmac⟩ := hsent
        split_ifs at h ⊢
        · have ih := sendLoop_tx env handle dstMac ipHdr fuel b' _ _ _ r s' t h hr
          rw [ih, htx, hmac, List.append_assoc]
          rfl
        · rw [← (Prod.mk.inj h).2, htx]
          rfl

/-- **The frames of `ip_send_fragments`,** when it could send them all. -/
theorem ipSendFragments_tx (env : Env) {handle : ℤ} {dstMac : MacAddr} {b : Buf} {bsize : ℕ} {r : ℤ}
    {s t : Stack} (h : ipSendFragments env handle dstMac b bsize s = (some r, t)) (hr : 0 ≤ r) :
    t.tx = s.tx ++ (fragments b bsize).map (etherFrame dstMac s.mac etherProtoIpv4) :=
  sendLoop_tx env handle dstMac _ _ b _ 0 0 r s t h hr

/-! ### The last fragment -/

/-- The largest payload of a fragment behind a header without options. -/
theorem nextFragmentSize_eq (bytes : ℕ) :
    nextFragmentSize bytes 20 etherDataLen = min bytes 1472 := by
  have hmax : ipOffRound (etherDataLen - 20 - 8) = 1472 := rfl
  unfold nextFragmentSize
  rw [hmax]
  split_ifs <;> omega

/-- What the loop sends last: the bytes that end the packet, from an offset that is a multiple of
eight. -/
theorem fragmentsFrom_last {ipHdr : IpHdr} (hlen : ipHdrHlen ipHdr = 20) : ∀ (fuel : ℕ) (b : Buf)
    (bytes offset : ℕ), bytes < fuel → 8 ∣ offset →
    ∃ init b' plen off, fragmentsFrom ipHdr fuel b bytes offset =
        init ++ [slice (fragmentPacket b' ipHdr plen 0 off) (20 + plen)] ∧
      off + plen = offset + bytes ∧ 8 ∣ off ∧ plen ≤ 1472
  | 0, _, _, _, hf, _ => absurd hf (Nat.not_lt_zero _)
  | fuel + 1, b, bytes, offset, hf, h8 => by
    unfold fragmentsFrom
    rw [hlen, nextFragmentSize_eq]
    dsimp only
    have hsize : (fragmentHdr ipHdr (min bytes 1472) (bytes - min bytes 1472) offset).ipLen.toNat =
        20 + min bytes 1472 := by
      show (UInt16.ofNat (ipHdrHlen ipHdr + min bytes 1472)).toNat = _
      rw [hlen, UInt16.toNat_ofNat', Nat.mod_eq_of_lt (by omega)]
    rw [hsize]
    by_cases hmore : bytes - min bytes 1472 > 0
    · rw [if_pos hmore]
      have hmin : min bytes 1472 = 1472 := by omega
      rw [hmin] at hmore ⊢
      obtain ⟨init, b', plen, off, heq, h1, h2, h3⟩ := fragmentsFrom_last hlen fuel
        (fragmentPacket b ipHdr 1472 (bytes - 1472) offset) (bytes - 1472) (offset + 1472)
        (by omega) (by omega)
      rw [heq]
      exact ⟨_ :: init, b', plen, off, rfl, by omega, h2, h3⟩
    · have hmin : min bytes 1472 = bytes := by omega
      rw [if_neg hmore, hmin, Nat.sub_self]
      exact ⟨[], b, bytes, offset, rfl, rfl, h8, by omega⟩

/-- The header of a fragment as it is read: what was written, with some checksum. -/
theorem load_fragment {b c : Buf} {ipHdr : IpHdr} (h20 : 20 ≤ ipHdrHlen ipHdr)
    {plen bytes off : ℕ}
    (hc : Agree (ipHdrHlen ipHdr + plen) c (fragmentPacket b ipHdr plen bytes off)) :
    ∃ csum, ipNtoh (IpHdr.load c) = { fragmentHdr ipHdr plen bytes off with ipCsum := csum } := by
  obtain ⟨csum, hcsum⟩ := load_ipHton b (fragmentHdr ipHdr plen bytes off)
  have hpacket : Agree 20 (fragmentPacket b ipHdr plen bytes off)
      (ipHton b 0 (fragmentHdr ipHdr plen bytes off)) := by
    intro i hi
    unfold fragmentPacket
    exact copy_outside (Or.inl (by omega))
  have hload := (IpHdr.load_congr hc (by omega)).trans (IpHdr.load_congr hpacket le_rfl)
  refine ⟨csum, ?_⟩
  rw [hload, hcsum]
  simp [ipNtoh]

section

variable {ipHdr : IpHdr} {plen off : ℕ}

/-- The offset of a fragment and `IP_FLAGS_MF` in `ip_foff`. -/
theorem fragmentHdr_foff (bytes : ℕ) (hoff : off < 65536) :
    (fragmentHdr ipHdr plen bytes off).ipFoff.toNat =
      (if bytes ≠ 0 then 2 ^ 13 else 0) ||| (off / 8) := by
  show ((if bytes ≠ 0 then ipFlagsMf else 0) ||| UInt16.ofNat (off >>> 3)).toNat = _
  rw [UInt16.toNat_or, UInt16.toNat_ofNat', Nat.shiftRight_eq_div_pow, Nat.mod_eq_of_lt (by omega)]
  split_ifs
  · rfl
  · rfl

theorem fragOff_fragmentHdr (bytes : ℕ) (h8 : 8 ∣ off) (hoff : off < 65536) :
    fragOff (fragmentHdr ipHdr plen bytes off) = off := by
  have hmask : (0x1fff : UInt16).toNat = 2 ^ 13 - 1 := rfl
  have hlow : ((if bytes ≠ 0 then 2 ^ 13 else 0) ||| (off / 8)) % 2 ^ 13 = off / 8 := by
    rw [Nat.or_mod_two_pow, Nat.mod_eq_of_lt (a := off / 8) (by omega)]
    split_ifs <;> simp
  rw [fragOff_eq, UInt16.toNat_and, fragmentHdr_foff bytes hoff, hmask,
    Nat.and_two_pow_sub_one_eq_mod, hlow]
  omega

theorem moreFragments_fragmentHdr (bytes : ℕ) (hoff : off < 65536) :
    moreFragments (fragmentHdr ipHdr plen bytes off) = true ↔ bytes ≠ 0 := by
  have hbit : (off / 8).testBit 13 = false := Nat.testBit_lt_two_pow (by omega)
  have hmask : (ipFlagsMf).toNat = 2 ^ 13 := rfl
  unfold moreFragments
  rw [bne_iff_ne, ne_eq, ← UInt16.toNat_inj, UInt16.toNat_and, fragmentHdr_foff bytes hoff, hmask,
    Nat.and_two_pow, Nat.testBit_or, hbit]
  by_cases hb : bytes = 0
  · simp [hb]
  · have hset : Nat.testBit (2 ^ 13) 13 = true := Nat.testBit_two_pow_self
    simp only [ne_eq, hb, not_false_eq_true, if_true, hset, iff_true]
    decide

theorem fragSize_fragmentHdr (hlen : ipHdrHlen ipHdr = 20) (hplen : plen ≤ 1472) (bytes : ℕ) :
    fragSize (fragmentHdr ipHdr plen bytes off) = plen := by
  show (UInt16.ofNat (ipHdrHlen ipHdr + plen)).toNat - ipHdrHlen ipHdr = plen
  rw [hlen, UInt16.toNat_ofNat', Nat.mod_eq_of_lt (by omega)]
  omega

end

/-! ### Calls of handlers -/

/-- Handlers have been called, but none with the size `n`. -/
def NoCall (n : ℕ) (s t : Stack) : Prop :=
  ∃ cs, t.calls = s.calls ++ cs ∧ ∀ c ∈ cs, c.size ≠ n

theorem NoCall.of_eq {n : ℕ} {s t : Stack} (h : t.calls = s.calls) : NoCall n s t :=
  ⟨[], by rw [h, List.append_nil], by simp⟩

theorem NoCall.refl {n : ℕ} (s : Stack) : NoCall n s s := .of_eq rfl

theorem NoCall.trans {n : ℕ} {s t u : Stack} (h : NoCall n s t) (h' : NoCall n t u) :
    NoCall n s u := by
  obtain ⟨cs, hcs, hn⟩ := h
  obtain ⟨cs', hcs', hn'⟩ := h'
  refine ⟨cs ++ cs', by rw [hcs', hcs, List.append_assoc], fun c hc => ?_⟩
  rcases List.mem_append.mp hc with hc | hc
  · exact hn c hc
  · exact hn' c hc

theorem NoCall.of_sending {n : ℕ} {s t : Stack} (h : Sending s t) : NoCall n s t := by
  obtain ⟨_, _, _, _, _, rfl⟩ := h
  exact .of_eq rfl

section

variable (env : Env) {n : ℕ}

theorem protoInput_calls (proto : Proto) (ip : IpHdr) (b : Buf) (o bsize : ℕ) :
    Steps (Unchanged Stack.calls) (protoInput env proto ip b o bsize) := by
  refine (protoInput_handled env proto ip b o bsize).mono ?_
  rintro s _ ⟨_, _, rfl⟩
  rfl

theorem protoInput_noCall (proto : Proto) (ip : IpHdr) (b : Buf) (o bsize : ℕ) :
    Steps (NoCall n) (protoInput env proto ip b o bsize) :=
  (protoInput_calls env proto ip b o bsize).mono fun _ _ => .of_eq

theorem callHandler_noCall (proto : Proto) (ip : IpHdr) (b : Buf) {size : ℕ} (hsize : size ≠ n) :
    Steps (NoCall n) (callHandler env proto ip b size) := by
  unfold callHandler
  refine .bind .trans (.modify fun s => ⟨[_], rfl, ?_⟩) fun _ => ?_
  · intro c hc
    rw [List.mem_singleton.mp hc]
    exact hsize
  · refine .bind .trans (protoInput_noCall env proto ip b _ size) fun r => ?_
    dsimp only
    exact .ite (fun _ => .pure .refl _) fun _ => .ite (fun _ => .pure .refl _) fun _ => .pure .refl _

theorem ipCheck_noCall (src : Option MacAddr) (ip : IpHdr) (bsize : ℕ) :
    Steps (NoCall n) (ipCheck src ip bsize) := by
  refine (ipCheck_learned src ip bsize).mono fun s t h => ?_
  obtain ⟨_, _, rfl⟩ := h
  exact .of_eq rfl

/-- `ip_input` gives a handler what is left of the packet behind its header. -/
theorem ipInputWith_noCall {fragmentInput : IpHdr → Buf → Act ℤ} {src : Option MacAddr} {b : Buf}
    {bsize : ℕ} (hfrag : ∀ rx, Steps (NoCall n) (fragmentInput (hdrOf src b) rx))
    (hsize : 20 ≤ ipHdrHlen (hdrOf src b) → sub64 bsize (ipHdrHlen (hdrOf src b)) ≠ n) :
    Steps (NoCall n) (ipInputWith env fragmentInput src b bsize) := by
  intro s
  unfold ipInputWith
  set ip := hdrOf src b
  have hcheck := ipCheck_noCall (n := n) src ip bsize s
  rcases hc : ipCheck src ip bsize s with ⟨_ | call, t⟩ <;> rw [hc] at hcheck
  · rw [bind_of_none hc]
    exact hcheck
  · rw [bind_of_some hc]
    refine hcheck.trans ?_
    rcases call with _ | ⟨code, size⟩ | size | ⟨proto, size⟩
    · exact .refl t
    · exact .refl t
    · exact Steps.bind .trans (hfrag _) (fun _ => .pure .refl _) t
    · refine callHandler_noCall env proto ip _ ?_ t
      obtain ⟨hacc, isLocal, hcall⟩ := ipCheck_accepts hc
      have heq := size_ipDispatch hacc isLocal
      rw [← hcall, size_handler] at heq
      rw [heq]
      exact hsize hacc.2.1

/-- The completion branch, when the buffer holds the length of the payload. -/
theorem completeFragments_noCall {i : Fin 4} {s : Stack}
    (hlen : (s.pool.buf i).ipHdr.ipLen.toNat = n) : NoCall n s (completeFragments env i s).2 := by
  set p := s.pool.buf i with hp
  have hlt := p.ipHdr.ipLen.toNat_lt
  have hle := ipHdrHlen_le (hdrOf none (packetMem p))
  have hsize : 20 ≤ ipHdrHlen (hdrOf none (packetMem p)) →
      sub64 p.ipHdr.ipLen.toNat (ipHdrHlen (hdrOf none (packetMem p))) ≠ n := by
    intro h20
    unfold sub64
    omega
  unfold completeFragments
  rw [get_bind, ← hp]
  refine Steps.bind .trans (ipInputWith_noCall env (fun _ => .stuck .refl) hsize) (fun r => ?_) s
  refine .bind .trans (.modify fun s => .of_eq rfl) fun _ => ?_
  refine .bind .trans ((ipSend_sending env _ _ _ _).mono fun _ _ h => .of_sending h) fun _ => ?_
  refine .bind .trans (.get .refl) fun s => .bind .trans (.ofOption .refl _) fun pool => ?_
  exact .bind .trans (.modify fun s => .of_eq rfl) fun _ => .pure .refl _

/-- `ip_fragment_input` records the length of the payload when it gets the last fragment. -/
theorem ipFragmentStore_last {mc : Memcmp} {pool pool' : Pool} {f : Pkt} {i : Fin 4}
    (hoff : fragOff f.hdr ≠ 0) (hmore : moreFragments f.hdr = false)
    (h : ipFragmentStore mc pool f.hdr f.rx = some (.complete i, pool')) :
    (pool'.buf i).ipHdr.ipLen = UInt16.ofNat (fragSize f.hdr + fragOff f.hdr) := by
  unfold ipFragmentStore at h
  rw [if_neg (fragOff_le_max f.hdr)] at h
  rcases hg : pool.getPacketBuffer mc f.hdr with _ | ⟨_ | j, pool1⟩
  · simp [hg] at h
  · simp [hg] at h
  · by_cases hfits : Fits f.hdr
    · have hstore := store_eq (pool1.buf j) f
      rw [if_pos hfits] at hstore
      simp only [hg, hstore, Option.bind_eq_bind, Option.bind_some, Option.pure_def,
        Option.some.injEq, Prod.mk.injEq] at h
      obtain ⟨h1, rfl⟩ := h
      split_ifs at h1
      rw [← FragOutcome.complete.inj h1, set_self, put1_len, noteLen, if_neg hoff, hmore]
      rfl
    · simp [hg, store_eq, hfits] at h

/-- `ip_fragment_input` of the last fragment. -/
theorem ipFragmentInput_noCall {ip : IpHdr} (hlt : n < 65536) (hoff : fragOff ip ≠ 0)
    (hmore : moreFragments ip = false) (hsum : fragSize ip + fragOff ip = n) (rx : Buf) :
    Steps (NoCall n) (ipFragmentInput env ip rx) := by
  intro s
  unfold ipFragmentInput
  rw [get_bind]
  rcases hs : ipFragmentStore env.mc s.pool ip rx with _ | ⟨outcome, pool⟩
  · exact .refl s
  · rw [ofOption_some, bind_pure]
    dsimp only
    rw [modify_bind]
    cases outcome with
    | emsgsize => exact .of_eq rfl
    | nobufs => exact .of_eq rfl
    | stored => exact .of_eq rfl
    | complete i =>
      have hlen := ipFragmentStore_last (f := ⟨ip, rx⟩) hoff hmore hs
      rw [hsum] at hlen
      have hto : ({ s with pool := pool }.pool.buf i).ipHdr.ipLen.toNat = n := by
        show (pool.buf i).ipHdr.ipLen.toNat = n
        rw [hlen, UInt16.toNat_ofNat', Nat.mod_eq_of_lt hlt]
      have hpool : NoCall n s { s with pool := pool } := .of_eq rfl
      exact hpool.trans (completeFragments_noCall env hto)

/-- **No handler gets the size of the payload** when the last fragment arrives, in whatever state. -/
theorem lastFragment_noCall (mac : MacAddr) (rx b : Buf) {ipHdr : IpHdr}
    (hlen : ipHdrHlen ipHdr = 20) {plen off : ℕ} (h8 : 8 ∣ off) (hplen : plen ≤ 1472)
    (hsum : plen + off = n) (hlt : n < 65536) (hn : 1472 < n) :
    Steps (NoCall n) (ipInput env (some mac)
      (put rx 0 (slice (fragmentPacket b ipHdr plen 0 off) (20 + plen))) (20 + plen)) := by
  obtain ⟨csum, hcsum⟩ : ∃ csum, hdrOf (some mac)
      (put rx 0 (slice (fragmentPacket b ipHdr plen 0 off) (20 + plen))) =
        { fragmentHdr ipHdr plen 0 off with ipCsum := csum } :=
    load_fragment hlen.ge (by rw [hlen]; exact put_slice_agree rx _ _)
  have hlen' : ipHdrHlen (fragmentHdr ipHdr plen 0 off) = 20 := hlen
  have hoff' : fragOff (fragmentHdr ipHdr plen 0 off) = off := fragOff_fragmentHdr 0 h8 (by omega)
  have hsize : fragSize (fragmentHdr ipHdr plen 0 off) = plen := fragSize_fragmentHdr hlen hplen 0
  have hmore : moreFragments (fragmentHdr ipHdr plen 0 off) = false :=
    Bool.eq_false_iff.mpr fun h => (moreFragments_fragmentHdr 0 (by omega)).mp h rfl
  -- the checksum is not looked at
  refine ipInputWith_noCall env (fun rx => ?_) fun _ => ?_
  · rw [hcsum]
    refine ipFragmentInput_noCall env hlt ?_ ?_ ?_ rx
    · show fragOff (fragmentHdr ipHdr plen 0 off) ≠ 0
      omega
    · exact hmore
    · show fragSize (fragmentHdr ipHdr plen 0 off) + fragOff (fragmentHdr ipHdr plen 0 off) = n
      omega
  · rw [hcsum]
    show sub64 (20 + plen) (ipHdrHlen (fragmentHdr ipHdr plen 0 off)) ≠ n
    rw [hlen', sub64_of_le (by omega) (by omega)]
    omega

/-! ### The round trip -/

/-- The packets go to `ip_input` one by one, as the data of frames from `mac`. -/
def receive (mac : MacAddr) : List (List UInt8) → Buf → Act Buf
  | [], rx => pure rx
  | packet :: packets, rx => do
    let (_, b) ← ipInput env (some mac) (put rx 0 packet) packet.length
    receive mac packets b

/-- **The payload is delivered:** no handler is called before the last packet, and then the one of
`proto`, once, with all bytes of the payload and their number. -/
def Delivered (mac : MacAddr) (proto : UInt8) (payload : List UInt8) (packets : List (List UInt8))
    (rx : Buf) (s : Stack) : Prop :=
  ∃ init last rx' t, packets = init ++ [last] ∧ receive env mac init rx s = (some rx', t) ∧
    t.calls = s.calls ∧
    ∃ c, (receive env mac [last] rx' t).2.calls = t.calls ++ [c] ∧ c.proto = proto ∧
      c.size = payload.length ∧ slice c.data c.size = payload

theorem Delivered.last_call {mac : MacAddr} {proto : UInt8} {payload : List UInt8}
    {packets : List (List UInt8)} {rx : Buf} {s : Stack}
    (h : Delivered env mac proto payload packets rx s) :
    ∃ init last rx' t, packets = init ++ [last] ∧
      ¬ NoCall payload.length t (receive env mac [last] rx' t).2 := by
  obtain ⟨init, last, rx', t, hpackets, -, -, c, hcalls, -, hsize, -⟩ := h
  refine ⟨init, last, rx', t, hpackets, ?_⟩
  rintro ⟨cs, hcs, hne⟩
  rw [hcalls] at hcs
  have hmem : c ∈ cs := by
    rw [← List.append_cancel_left hcs]
    exact List.mem_singleton_self c
  exact hne c hmem hsize

/-- The last packet of `ip_send_fragments` does not lead to a call with the size of the payload. -/
theorem fragments_noCall {b : Buf} (hlen : ipHdrHlen (IpHdr.load b) = 20) (hn : 1481 ≤ n)
    (hn' : n ≤ 65515) {init : List (List UInt8)} {last : List UInt8}
    (h : fragments b (20 + n) = init ++ [last]) (mac : MacAddr) (rx : Buf) :
    Steps (NoCall n) (receive env mac [last] rx) := by
  have hlen' : ipHdrHlen (ipNtoh (IpHdr.load b)) = 20 := hlen
  obtain ⟨init', b', plen, off, heq, hsum, h8, hplen⟩ := fragmentsFrom_last hlen' (n + 1) b n 0
    (by omega) (dvd_zero 8)
  unfold fragments at h
  dsimp only at h
  rw [hlen', Nat.add_sub_cancel_left, heq] at h
  obtain ⟨-, rfl⟩ := List.append_singleton_inj.mp h
  refine .bind .trans ?_ fun _ => .pure .refl _
  have hl : (slice (fragmentPacket b' (ipNtoh (IpHdr.load b)) plen 0 off) (20 + plen)).length =
      20 + plen := by simp [slice]
  rw [hl]
  exact lastFragment_noCall env mac rx b' hlen' h8 hplen (by omega) (by omega) (by omega)

/-- **A payload that needs fragments is never delivered,** whatever the state and the packet are. -/
theorem not_delivered (mac : MacAddr) (rx : Buf) (s : Stack) (b : Buf)
    (hlen : ipHdrHlen (IpHdr.load b) = 20) (hn : 1481 ≤ n) (hn' : n ≤ 65515) :
    ¬ Delivered env mac (IpHdr.load b).ipProto (slice (shift b 20) n) (fragments b (20 + n)) rx s := by
  intro h
  obtain ⟨init, last, rx', t, hpackets, hcall⟩ := h.last_call
  have hl : (slice (shift b 20) n).length = n := by simp [slice]
  rw [hl] at hcall
  exact hcall (fragments_noCall env hlen hn hn' hpackets mac rx' t)

end

/-- A packet from 10.0.0.5 to 10.0.0.2 with 1481 bytes of UDP. -/
def packet1481 : Buf :=
  sendPacket ⟨0x45, 0, 1501, 7, 0, 64, ipProtoUdp, 0, 0x0a000005, 0x0a000002⟩ (fun _ => 1) 1481

theorem hlen_packet1481 : ipHdrHlen (IpHdr.load packet1481) = 20 := by decide +kernel

theorem not_delivered_1481 : ¬ Delivered ⟨.ofSign, fun _ => 42⟩ (fun _ => 5)
    (IpHdr.load packet1481).ipProto (slice (shift packet1481 20) 1481)
    (fragments packet1481 (20 + 1481)) (fun _ => 0) (Stack.init fun _ => 2) :=
  not_delivered _ _ _ _ _ hlen_packet1481 (by decide) (by decide)

/-- The stack of 10.0.0.2 with all packet buffers free. -/
def receiver : Stack :=
  (ipConfig ⟨.ofSign, fun _ => 42⟩ 0 0x0a000002 0xffffff00 (Stack.init fun _ => 2)).2

/-- The destination is local, UDP has a handler and a buffer is free, but the payload is not
delivered. -/
theorem size_lost :
    ((receiver.rib.ipRouteFindByIface (ipNtoh (IpHdr.load packet1481)).ipDst).join.isSome ∧
      findProto (IpHdr.load packet1481).ipProto = some .udp ∧ receiver.pool.firstFree = some 0) ∧
    ¬ Delivered ⟨.ofSign, fun _ => 42⟩ (fun _ => 5) (IpHdr.load packet1481).ipProto
      (slice (shift packet1481 20) 1481) (fragments packet1481 (20 + 1481)) (fun _ => 0) receiver := by
  refine ⟨by decide +kernel, fun h => ?_⟩
  obtain ⟨init, last, rx', t, hpackets, hcall⟩ := h.last_call
  have hl : (slice (shift packet1481 20) 1481).length = 1481 := by simp [slice]
  rw [hl] at hcall
  exact hcall (fragments_noCall _ hlen_packet1481 (by decide) (by decide) hpackets _ rx' t)

end Xstack.Net.Reassemble
