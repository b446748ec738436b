import Xstack.Ip.Checksum
import Xstack.Net.Reassemble

/-! # Fragmentation is exact

`ip_send_fragments` uses one buffer for all fragments: it writes the header of a fragment over that of
the one before and moves the payload down to it. Each move ends before the bytes that are still to be
sent (`Intact`), so the packets are what they should be.

* `Exact`: what is said of the packets. `Piece`: one packet, in terms of the original one.
* `fragmentPacket_piece`: the packet of one round of the loop. `fragmentsFrom_pieces`: all rounds.
* `fragmentation_exact`: `ip_send_fragments` ends and has sent such packets. -/

namespace Xstack.Net.Fragmentation

open Xstack.Config Xstack.Lib.Bytes Xstack.Lib.Program Xstack.Ether Xstack.Ip.Header
open Xstack.Ip.Checksum Xstack.Net.State Xstack.Net.Send Xstack.Net.Reassemble

/-! ### The property -/

/-- The header of a packet, in host order. -/
def packetHdr (p : List UInt8) : IpHdr := ipNtoh (IpHdr.load (ofBytes p))

/-- A fragment of the packet in `b`, whose header has `hlen` bytes: `before` bytes of the payload are in
earlier fragments, and `more` says whether there are later ones. -/
structure IsFragment (b : Buf) (hlen before : ℕ) (more : Prop) (p : List UInt8) : Prop where
  header : ipHdrHlen (packetHdr p) = hlen
  aligned : 8 ∣ before
  offset : ((packetHdr p).ipFoff &&& 0x1fff).toNat = before / 8
  flag : moreFragments (packetHdr p) = true ↔ more
  /-- `p.length` is the size that `ether_send` gets. -/
  ipLen : (packetHdr p).ipLen.toNat = hlen + (p.drop hlen).length
  size : (packetHdr p).ipLen.toNat = p.length
  mtu : p.length ≤ etherDataLen
  id : (packetHdr p).ipId = (ipNtoh (IpHdr.load b)).ipId
  proto : (packetHdr p).ipProto = (IpHdr.load b).ipProto
  src : (packetHdr p).ipSrc = (ipNtoh (IpHdr.load b)).ipSrc
  dst : (packetHdr p).ipDst = (ipNtoh (IpHdr.load b)).ipDst
  options : (p.take hlen).drop ipHdrSize = slice (shift b ipHdrSize) (hlen - ipHdrSize)
  checksum : ipChecksum (ofBytes p) hlen = 0

/-- **The packets are the fragments of the packet of `bsize` bytes in `b`.** -/
structure Exact (b : Buf) (bsize : ℕ) (packets : List (List UInt8)) : Prop where
  total : ipHdrHlen (IpHdr.load b) +
    (packets.map (List.drop (ipHdrHlen (IpHdr.load b)))).flatten.length = bsize
  payload : (packets.map (List.drop (ipHdrHlen (IpHdr.load b)))).flatten =
    slice (shift b (ipHdrHlen (IpHdr.load b))) (bsize - ipHdrHlen (IpHdr.load b))
  each : ∀ init p rest, packets = init ++ p :: rest → IsFragment b (ipHdrHlen (IpHdr.load b))
    (init.map (List.drop (ipHdrHlen (IpHdr.load b)))).flatten.length (rest ≠ []) p

/-! ### Sizes -/

/-- The largest payload of a fragment. -/
def maxPayload (hlen : ℕ) : ℕ := ipOffRound (etherDataLen - hlen - 8)

theorem nextFragmentSize_min (bytes hlen : ℕ) :
    nextFragmentSize bytes hlen etherDataLen = min bytes (maxPayload hlen) := by
  unfold nextFragmentSize
  show (if bytes < maxPayload hlen then bytes else maxPayload hlen) = _
  split_ifs <;> omega

theorem maxPayload_spec {hlen : ℕ} (h : hlen ≤ 60) :
    8 ∣ maxPayload hlen ∧ 0 < maxPayload hlen ∧ hlen + maxPayload hlen ≤ 1500 := by
  unfold maxPayload ipOffRound etherDataLen
  omega

/-! ### One packet -/

/-- The bytes of `b` that the loop still needs are those of the packet `orig`: the options, and the
payload from `offset` on. -/
def Intact (orig b : Buf) (hlen offset : ℕ) : Prop :=
  ∀ i, 20 ≤ i → i < hlen ∨ hlen + offset ≤ i → b i = orig i

/-- The packet with `plen` bytes of the payload from `offset` on, when `rest` bytes are left. -/
structure Piece (orig : Buf) (ipHdr : IpHdr) (plen rest offset : ℕ) (p : List UInt8) : Prop where
  length : p.length = ipHdrHlen ipHdr + plen
  hdr : ∃ csum, packetHdr p = { fragmentHdr ipHdr plen rest offset with ipCsum := csum }
  payload : p.drop (ipHdrHlen ipHdr) = slice (shift orig (ipHdrHlen ipHdr + offset)) plen
  options : (p.take (ipHdrHlen ipHdr)).drop 20 = slice (shift orig 20) (ipHdrHlen ipHdr - 20)
  checksum : ipChecksum (ofBytes p) (ipHdrHlen ipHdr) = 0

variable {orig b : Buf} {ipHdr : IpHdr} {plen rest offset : ℕ}

theorem ofBytes_slice (b : Buf) (n : ℕ) : Agree n (ofBytes (slice b n)) b := put_slice_agree _ b n

/-- The bytes behind the fixed part of the header: the payload has moved down by `offset`. -/
theorem fragmentPacket_byte {i : ℕ} (hi : 20 ≤ i) :
    fragmentPacket b ipHdr plen rest offset i =
      if ipHdrHlen ipHdr ≤ i ∧ i < ipHdrHlen ipHdr + plen then b (i + offset) else b i := by
  unfold fragmentPacket
  split_ifs with h
  · obtain ⟨j, rfl⟩ := Nat.exists_eq_add_of_le h.1
    rw [copy_inside (by omega)]
    show ipHton b 0 _ (ipHdrHlen ipHdr + offset + j) = _
    rw [ipHton_outside (by omega)]
    congr 1
    omega
  · rw [copy_outside (by omega), ipHton_outside (by omega)]

/-- **The packet of one round.** -/
theorem fragmentPacket_piece (h20 : 20 ≤ ipHdrHlen ipHdr) (hI : Intact orig b (ipHdrHlen ipHdr) offset)
    (plen rest : ℕ) : Piece orig ipHdr plen rest offset
      (slice (fragmentPacket b ipHdr plen rest offset) (ipHdrHlen ipHdr + plen)) where
  length := slice_length _ _
  hdr := load_fragment h20 (ofBytes_slice _ _)
  payload := by
    rw [drop_slice]
    refine Agree.slice fun i hi => ?_
    show fragmentPacket b ipHdr plen rest offset (ipHdrHlen ipHdr + i) = _
    rw [fragmentPacket_byte (by omega), if_pos (by omega)]
    show _ = orig (ipHdrHlen ipHdr + offset + i)
    rw [hI _ (by omega) (Or.inr (by omega))]
    congr 1
    omega
  options := by
    obtain ⟨k, hk⟩ := Nat.exists_eq_add_of_le h20
    rw [take_slice, hk, drop_slice, Nat.add_sub_cancel_left]
    refine Agree.slice fun i hi => ?_
    show fragmentPacket b ipHdr plen rest offset (20 + i) = orig (20 + i)
    rw [fragmentPacket_byte (by omega), if_neg (by omega), hI _ (by omega) (Or.inl (by omega))]
  checksum := by
    have hsame : Agree (ipHdrHlen ipHdr) (ofBytes (slice (fragmentPacket b ipHdr plen rest offset)
        (ipHdrHlen ipHdr + plen))) (ipHton b 0 (fragmentHdr ipHdr plen rest offset)) := by
      intro i hi
      rw [ofBytes_slice _ _ i (by omega)]
      exact copy_outside (Or.inl hi)
    have hverifies : ipChecksum (shift (ipHton b 0 (fragmentHdr ipHdr plen rest offset)) 0)
        (ipHdrHlen ipHdr) = 0 := ipHton_verifies b 0 h20
    rwa [shift_zero, ← ipChecksum_congr hsame] at hverifies

/-- The next round finds its bytes intact. -/
theorem Intact.next (hI : Intact orig b (ipHdrHlen ipHdr) offset)
    (plen rest : ℕ) : Intact orig (fragmentPacket b ipHdr plen rest offset) (ipHdrHlen ipHdr)
      (offset + plen) := by
  intro i hi h
  rw [fragmentPacket_byte hi, if_neg (by omega)]
  exact hI i hi (by omega)

/-! ### All packets -/

/-- The packets with the payload from `offset` on, `bytes` bytes, in order. -/
inductive Pieces (orig : Buf) (ipHdr : IpHdr) : ℕ → ℕ → List (List UInt8) → Prop
  | last {bytes offset : ℕ} {p : List UInt8} (hp : Piece orig ipHdr bytes 0 offset p)
      (hmtu : ipHdrHlen ipHdr + bytes ≤ 1500) : Pieces orig ipHdr bytes offset [p]
  | cons {plen bytes offset : ℕ} {p : List UInt8} {ps : List (List UInt8)}
      (hp : Piece orig ipHdr plen bytes offset p) (hmtu : ipHdrHlen ipHdr + plen ≤ 1500)
      (h8 : 8 ∣ plen) (hmore : 0 < bytes) (hps : Pieces orig ipHdr bytes (offset + plen) ps) :
      Pieces orig ipHdr (plen + bytes) offset (p :: ps)

theorem toNat_ipLen {hdr : IpHdr} {plen bytes off : ℕ} (h : ipHdrHlen hdr + plen ≤ 1500) :
    (fragmentHdr hdr plen bytes off).ipLen.toNat = ipHdrHlen hdr + plen := by
  show (UInt16.ofNat (ipHdrHlen hdr + plen)).toNat = _
  rw [UInt16.toNat_ofNat', Nat.mod_eq_of_lt (by omega)]

/-- **The packets of the loop.** -/
theorem fragmentsFrom_pieces (h20 : 20 ≤ ipHdrHlen ipHdr) : ∀ (fuel : ℕ) {b : Buf}
    {bytes offset : ℕ}, bytes < fuel → Intact orig b (ipHdrHlen ipHdr) offset →
    Pieces orig ipHdr bytes offset (fragmentsFrom ipHdr fuel b bytes offset)
  | 0, _, _, _, hf, _ => absurd hf (Nat.not_lt_zero _)
  | fuel + 1, b, bytes, offset, hf, hI => by
    obtain ⟨hmax8, hmax0, hmax⟩ := maxPayload_spec (ipHdrHlen_le ipHdr)
    unfold fragmentsFrom
    rw [nextFragmentSize_min]
    dsimp only
    set plen := min bytes (maxPayload (ipHdrHlen ipHdr)) with hplen
    rw [toNat_ipLen (by omega)]
    have hpiece := fragmentPacket_piece h20 hI plen (bytes - plen)
    by_cases hmore : bytes - plen > 0
    · rw [if_pos hmore]
      have hps : Pieces orig ipHdr (bytes - plen) (offset + plen) _ :=
        fragmentsFrom_pieces h20 fuel (by omega) (hI.next plen (bytes - plen))
      have h8 : 8 ∣ plen := by
        rwa [show plen = maxPayload (ipHdrHlen ipHdr) by omega]
      have hall := Pieces.cons hpiece (by omega) h8 hmore hps
      rwa [show plen + (bytes - plen) = bytes by omega] at hall
    · rw [if_neg hmore]
      have heq : plen = bytes := by omega
      rw [heq, Nat.sub_self] at hpiece ⊢
      exact .last hpiece (by omega)

/-! ### `Exact` -/

/-- A piece is a fragment of the packet: what `ip_hton` wrote is what is read. -/
theorem Piece.isFragment {before : ℕ} {more : Prop} {p : List UInt8}
    (hp : Piece orig (ipNtoh (IpHdr.load orig)) plen rest before p)
    (hmtu : ipHdrHlen (ipNtoh (IpHdr.load orig)) + plen ≤ 1500) (h8 : 8 ∣ before)
    (hlt : before < 65536) (hmore : rest ≠ 0 ↔ more) :
    IsFragment orig (ipHdrHlen (IpHdr.load orig)) before more p := by
  obtain ⟨csum, hcsum⟩ := hp.hdr
  set ipHdr := ipNtoh (IpHdr.load orig)
  have hhlen : ipHdrHlen (IpHdr.load orig) = ipHdrHlen ipHdr := rfl
  have hoff : fragOff (fragmentHdr ipHdr plen rest before) = before :=
    fragOff_fragmentHdr rest h8 hlt
  rw [fragOff_eq] at hoff
  have hlen : (packetHdr p).ipLen.toNat = ipHdrHlen ipHdr + plen := by
    rw [hcsum]
    show (fragmentHdr ipHdr plen rest before).ipLen.toNat = _
    exact toNat_ipLen hmtu
  rw [hhlen]
  constructor
  · rw [hcsum]
    rfl
  · exact h8
  · rw [hcsum]
    show ((fragmentHdr ipHdr plen rest before).ipFoff &&& 0x1fff).toNat = before / 8
    omega
  · rw [hcsum, ← hmore]
    show moreFragments (fragmentHdr ipHdr plen rest before) = true ↔ _
    exact moreFragments_fragmentHdr rest hlt
  · rw [hlen, List.length_drop, hp.length]
    omega
  · rw [hlen, hp.length]
  · rw [hp.length]
    exact hmtu
  · rw [hcsum]
    rfl
  · rw [hcsum]
    rfl
  · rw [hcsum]
    rfl
  · rw [hcsum]
    rfl
  · exact hp.options
  · exact hp.checksum

variable {bytes : ℕ} {ps : List (List UInt8)}

theorem Pieces.ne_nil (h : Pieces orig ipHdr bytes offset ps) : ps ≠ [] := by
  cases h <;> exact List.cons_ne_nil _ _

theorem Pieces.payload (h : Pieces orig ipHdr bytes offset ps) :
    (ps.map (List.drop (ipHdrHlen ipHdr))).flatten =
      slice (shift orig (ipHdrHlen ipHdr + offset)) bytes := by
  induction h with
  | last hp _ =>
    rw [List.map_singleton, List.flatten_singleton, hp.payload]
  | cons hp _ _ _ _ ih =>
    rw [List.map_cons, List.flatten_cons, hp.payload, ih, slice_add, shift_shift, Nat.add_assoc]

/-- Every packet is a fragment at the sum of the payload sizes before it. -/
theorem Pieces.isFragment
    (h : Pieces orig (ipNtoh (IpHdr.load orig)) bytes offset ps) (h8 : 8 ∣ offset)
    (hlt : offset + bytes < 65536) {init rest : List (List UInt8)} {p : List UInt8}
    (heq : ps = init ++ p :: rest) : IsFragment orig (ipHdrHlen (IpHdr.load orig))
      (offset + (init.map (List.drop (ipHdrHlen (IpHdr.load orig)))).flatten.length)
      (rest ≠ []) p := by
  induction h generalizing init with
  | last hp hmtu =>
    -- one packet: it is `p`, and nothing stands before or behind it
    obtain ⟨rfl, rfl, rfl⟩ : init = [] ∧ p = _ ∧ rest = [] := by
      cases init with
      | nil => simpa using heq.symm
      | cons q qs => simp at heq
    rw [List.map_nil, List.flatten_nil, List.length_nil, Nat.add_zero]
    exact hp.isFragment hmtu h8 (by omega) (by simp)
  | cons hp hmtu hplen hpos hps ih =>
    cases init with
    | nil =>
      obtain ⟨rfl, rfl⟩ := List.cons.inj heq
      rw [List.map_nil, List.flatten_nil, List.length_nil, Nat.add_zero]
      exact hp.isFragment hmtu h8 (by omega) (iff_of_true hpos.ne' hps.ne_nil)
    | cons q qs =>
      obtain ⟨rfl, hrest⟩ := List.cons.inj heq
      have hfrag := ih (by omega) (by omega) hrest
      rw [List.map_cons, List.flatten_cons, List.length_append, List.length_drop, hp.length,
        ipHdrHlen_ipNtoh, Nat.add_sub_cancel_left]
      rwa [Nat.add_assoc] at hfrag

/-- **The packets of `ip_send_fragments` are the fragments of the packet.** -/
theorem fragments_exact {bsize : ℕ} (h20 : 20 ≤ ipHdrHlen (IpHdr.load b))
    (hle : ipHdrHlen (IpHdr.load b) ≤ bsize) (hmax : bsize ≤ 65535) :
    Exact b bsize (fragments b bsize) := by
  have h20' : 20 ≤ ipHdrHlen (ipNtoh (IpHdr.load b)) := h20
  have hpieces : Pieces b (ipNtoh (IpHdr.load b)) (bsize - ipHdrHlen (ipNtoh (IpHdr.load b))) 0
      (fragments b bsize) := by
    unfold fragments
    dsimp only
    generalize hip : ipNtoh (IpHdr.load b) = ipHdr at h20' ⊢
    exact fragmentsFrom_pieces h20' _ (Nat.lt_succ_self _) fun _ _ _ => rfl
  have hpayload := hpieces.payload
  rw [ipHdrHlen_ipNtoh, Nat.add_zero] at hpayload
  constructor
  · rw [hpayload, slice_length]
    omega
  · exact hpayload
  · intro init p rest heq
    have hfrag := hpieces.isFragment (Nat.dvd_zero 8) (by omega) heq
    rwa [Nat.zero_add] at hfrag

/-! ### The run -/

/-- One `ether_send` after the other, for the given packets; the first that fails ends it. -/
def sendEach (env : Env) (handle : ℤ) (dstMac : MacAddr) : List (List UInt8) → ℤ → Act ℤ
  | [], retval => return retval
  | p :: ps, retval => do
    let eret ← etherSend env handle dstMac etherProtoIpv4 (ofBytes p) p.length
    if eret < 0 then return eret else sendEach env handle dstMac ps (retval + eret)

/-- Each of these calls of `ether_send` succeeds, in the state that the one before leaves. -/
def AllSucceed (env : Env) (handle : ℤ) (dstMac : MacAddr) : List (List UInt8) → Stack → Prop
  | [], _ => True
  | p :: ps, s => ∃ eret t, etherSend env handle dstMac etherProtoIpv4 (ofBytes p) p.length s =
      (some eret, t) ∧ 0 ≤ eret ∧ AllSucceed env handle dstMac ps t

variable (env : Env) {handle : ℤ} {dstMac : MacAddr}

theorem etherSend_slice (proto : UInt16) (b : Buf) (n : ℕ) :
    etherSend env handle dstMac proto (ofBytes (slice b n)) (slice b n).length =
      etherSend env handle dstMac proto b n := by
  unfold etherSend
  rw [slice_length, (ofBytes_slice b n).slice]

/-- The loop is one `ether_send` for each of its packets. -/
theorem sendLoop_eq (ipHdr : IpHdr) : ∀ (fuel : ℕ) (b : Buf) (bytes offset : ℕ) (retval : ℤ),
    bytes < fuel → sendLoop env handle dstMac ipHdr fuel b bytes offset retval =
      sendEach env handle dstMac (fragmentsFrom ipHdr fuel b bytes offset) retval
  | 0, _, _, _, _, hf => absurd hf (Nat.not_lt_zero _)
  | fuel + 1, b, bytes, offset, retval, hf => by
    obtain ⟨-, hmax0, -⟩ := maxPayload_spec (ipHdrHlen_le ipHdr)
    unfold sendLoop fragmentsFrom sendEach
    rw [nextFragmentSize_min]
    dsimp only
    rw [etherSend_slice]
    refine bind_congr fun eret => ?_
    split_ifs with hneg hmore
    · rfl
    · exact sendLoop_eq ipHdr fuel _ _ _ _ (by omega)
    · rfl

theorem ipSendFragments_eq (b : Buf) (bsize : ℕ) :
    ipSendFragments env handle dstMac b bsize =
      sendEach env handle dstMac (fragments b bsize) 0 :=
  sendLoop_eq env _ _ _ _ _ _ (Nat.lt_succ_self _)

/-- When all calls succeed the packets are all sent, and the result is not an error. -/
theorem sendEach_ok {packets : List (List UInt8)} {retval : ℤ} {s : Stack} (hr : 0 ≤ retval)
    (h : AllSucceed env handle dstMac packets s) :
    ∃ r t, sendEach env handle dstMac packets retval s = (some r, t) ∧ 0 ≤ r := by
  induction packets generalizing retval s with
  | nil => exact ⟨retval, s, rfl, hr⟩
  | cons p ps ih =>
    obtain ⟨eret, t, hsend, hpos, hrest⟩ := h
    unfold sendEach
    rw [bind_of_some hsend, if_neg (by omega)]
    exact ih (by omega) hrest

/-- **Fragmentation is exact.** When every `ether_send` succeeds, `ip_send_fragments` returns, what it
does is one `ether_send` for each of its packets, in order, and these are the fragments of the packet. -/
theorem fragmentation_exact {b : Buf} {bsize : ℕ} {s : Stack} (h20 : 20 ≤ ipHdrHlen (IpHdr.load b))
    (hle : ipHdrHlen (IpHdr.load b) ≤ bsize) (hmax : bsize ≤ 65535)
    (hok : AllSucceed env handle dstMac (fragments b bsize) s) :
    ipSendFragments env handle dstMac b bsize = sendEach env handle dstMac (fragments b bsize) 0 ∧
      (∃ r t, ipSendFragments env handle dstMac b bsize s = (some r, t) ∧ 0 ≤ r ∧
        t.tx = s.tx ++ (fragments b bsize).map (etherFrame dstMac s.mac etherProtoIpv4)) ∧
      Exact b bsize (fragments b bsize) := by
  refine ⟨ipSendFragments_eq env b bsize, ?_, fragments_exact h20 hle hmax⟩
  obtain ⟨r, t, hrun, hr⟩ := sendEach_ok env le_rfl hok
  rw [← ipSendFragments_eq] at hrun
  exact ⟨r, t, hrun, hr, ipSendFragments_tx env hrun hr⟩

/-- On an interface that is there, `ether_send` fails only when `sendto` does. -/
theorem allSucceed {packets : List (List UInt8)} (hmtu : ∀ p ∈ packets, p.length ≤ etherDataLen)
    (hsend : ∀ tx, 0 ≤ env.sendto tx) (s : Stack) : AllSucceed env 0 dstMac packets s := by
  induction packets generalizing s with
  | nil => trivial
  | cons p ps ih =>
    have hsize : ¬ frameSize p.length > etherMaxlen + etherFcsLen := by
      have hp : p.length ≤ 1500 := hmtu p List.mem_cons_self
      unfold frameSize etherMaxlen etherFcsLen etherHeaderLen etherMinlen
      omega
    exact ⟨_, _, etherSend_run env le_rfl (by decide) hsize dstMac etherProtoIpv4 (ofBytes p) s,
      hsend _, ih (fun q hq => hmtu q (List.mem_cons_of_mem p hq)) _⟩

/-- A packet of 1501 bytes. -/
theorem fragmentation_exact_1501 : ∃ r t,
    ipSendFragments ⟨.ofSign, fun _ => 42⟩ 0 macBroadcastAddr packet1481 1501
        (Stack.init fun _ => 2) = (some r, t) ∧ Exact packet1481 1501 (fragments packet1481 1501) := by
  have h20 : 20 ≤ ipHdrHlen (IpHdr.load packet1481) := hlen_packet1481.ge
  have hle : ipHdrHlen (IpHdr.load packet1481) ≤ 1501 := hlen_packet1481.trans_le (by decide)
  have hmtu : ∀ p ∈ fragments packet1481 1501, p.length ≤ etherDataLen := by
    intro p hp
    obtain ⟨init, rest, heq⟩ := List.append_of_mem hp
    exact ((fragments_exact h20 hle (by decide)).each init p rest heq).mtu
  obtain ⟨-, ⟨r, t, hrun, -⟩, hexact⟩ := fragmentation_exact ⟨.ofSign, fun _ => 42⟩ h20 hle
    (by decide) (allSucceed ⟨.ofSign, fun _ => 42⟩ hmtu (fun _ => show (0 : ℤ) ≤ 42 by decide) _)
  exact ⟨r, t, hrun, hexact⟩

end Xstack.Net.Fragmentation
