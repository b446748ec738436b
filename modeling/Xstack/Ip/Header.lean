import Xstack.Config
import Xstack.Lib.Bytes
import Xstack.Lib.Lex

/-! # The IP header

`struct ip_hdr` as a record and as the 20 bytes it is in memory, and the functions of `ip.c` and
`xstack_ip.h` that only read or rewrite a header.

* `IpHdr.bytes`, `IpHdr.load`: the record in memory; `load_put` reads it back.
* `ipChecksum`, `ipHton`, `ipNtoh`, `ipReplyHeader`: as in `ip.c`. `ip_hton` writes through its
  second argument, which may be the first one, so `ipHton` is a function of the memory.
* `bufid`: the bytes that `packet_buf_cmp` compares; `keyNum_inj`: they name the datagram. -/

namespace Xstack.Ip.Header

open Xstack.Config Xstack.Lib.Bytes Xstack.Lib.Lex

/-- `struct ip_hdr`. -/
@[ext] structure IpHdr where
  ipVhl : UInt8
  ipTos : UInt8
  ipLen : UInt16
  ipId : UInt16
  ipFoff : UInt16
  ipTtl : UInt8
  ipProto : UInt8
  ipCsum : UInt16
  ipSrc : InAddr
  ipDst : InAddr
  deriving DecidableEq

/-- `sizeof(struct ip_hdr)`. -/
def ipHdrSize : ℕ := 20

def ipVhlDefault : UInt8 := 0x45
def ipTosDefault : UInt8 := 0
def ipToffDefault : UInt16 := 0x4000
def ipTtlDefault : UInt8 := 64

/-- `IP_FLAGS_MF`. -/
def ipFlagsMf : UInt16 := 0x2000

def ipMaxBytes : ℕ := 65535

def ipProtoIcmp : UInt8 := 1
def ipProtoTcp : UInt8 := 6
def ipProtoUdp : UInt8 := 17

namespace IpHdr

/-- Zeroed memory. -/
def zero : IpHdr := ⟨0, 0, 0, 0, 0, 0, 0, 0, 0, 0⟩

/-- The header in memory. -/
def bytes (h : IpHdr) : List UInt8 :=
  [h.ipVhl, h.ipTos] ++ le16 h.ipLen ++ le16 h.ipId ++ le16 h.ipFoff ++ [h.ipTtl, h.ipProto] ++
    le16 h.ipCsum ++ le32 h.ipSrc ++ le32 h.ipDst

/-- The header that the memory holds. -/
def load (b : Buf) : IpHdr :=
  ⟨b 0, b 1, rd16 b 2, rd16 b 4, rd16 b 6, b 8, b 9, rd16 b 10, rd32 b 12, rd32 b 16⟩

@[simp] theorem length_bytes (h : IpHdr) : h.bytes.length = 20 := rfl

theorem load_put (b : Buf) (h : IpHdr) : load (put b 0 h.bytes) = h := by
  have hk : ∀ k < 20, put b 0 h.bytes k = h.bytes.getD k 0 := by
    intro k hk
    have := put_of_lt (b := b) (o := 0) (l := h.bytes) (i := k) (by simpa using hk)
    rwa [Nat.zero_add] at this
  have h2 : rd16 (put b 0 h.bytes) 2 = h.ipLen :=
    rd16_put (o := 0) [h.ipVhl, h.ipTos] (h.bytes.drop 4)
  have h4 : rd16 (put b 0 h.bytes) 4 = h.ipId :=
    rd16_put (o := 0) (h.bytes.take 4) (h.bytes.drop 6)
  have h6 : rd16 (put b 0 h.bytes) 6 = h.ipFoff :=
    rd16_put (o := 0) (h.bytes.take 6) (h.bytes.drop 8)
  have h10 : rd16 (put b 0 h.bytes) 10 = h.ipCsum :=
    rd16_put (o := 0) (h.bytes.take 10) (h.bytes.drop 12)
  have h12 : rd32 (put b 0 h.bytes) 12 = h.ipSrc :=
    rd32_put (o := 0) (h.bytes.take 12) (h.bytes.drop 16)
  have h16 : rd32 (put b 0 h.bytes) 16 = h.ipDst :=
    rd32_put (o := 0) (h.bytes.take 16) []
  unfold load
  rw [h2, h4, h6, h10, h12, h16, hk 0 (by decide), hk 1 (by decide), hk 8 (by decide),
    hk 9 (by decide)]
  rfl

/-- The header is read from 20 bytes. -/
theorem load_congr {n : ℕ} {b b' : Buf} (h : Agree n b b') (hn : 20 ≤ n) : load b = load b' := by
  unfold load
  rw [h 0 (by omega), h 1 (by omega), h 8 (by omega), h 9 (by omega), h.rd16 (o := 2) (by omega),
    h.rd16 (o := 4) (by omega), h.rd16 (o := 6) (by omega), h.rd16 (o := 10) (by omega),
    h.rd32 (o := 12) (by omega), h.rd32 (o := 16) (by omega)]

/-- Only the checksum is stored. -/
theorem load_put_csum (b : Buf) (csum : UInt16) :
    load (put b 10 (le16 csum)) = { load b with ipCsum := csum } := by
  have h8 : ∀ i, i < 10 → put b 10 (le16 csum) i = b i := fun i hi => put_outside (Or.inl hi)
  have h16 : ∀ o, o + 2 ≤ 10 → rd16 (put b 10 (le16 csum)) o = rd16 b o := by
    intro o ho
    unfold rd16
    rw [h8 o (by omega), h8 (o + 1) (by omega)]
  have h32 : ∀ o, 12 ≤ o → rd32 (put b 10 (le16 csum)) o = rd32 b o := fun o ho =>
    rd32_congr fun i _ => put_outside (Or.inr (by simp only [length_le16]; omega))
  have hcsum : rd16 (put b 10 (le16 csum)) 10 = csum := rd16_put [] []
  unfold load
  rw [h8 0 (by decide), h8 1 (by decide), h8 8 (by decide), h8 9 (by decide), h16 2 (by decide),
    h16 4 (by decide), h16 6 (by decide), hcsum, h32 12 le_rfl, h32 16 (by decide)]

/-- The header determines its 20 bytes. -/
theorem load_inj {b b' : Buf} (h : load b = load b') : Agree 20 b b' := by
  obtain ⟨h0, h1, h2, h4, h6, h8, h9, h10, h12, h16⟩ := IpHdr.mk.inj h
  obtain ⟨h2, h3⟩ := rd16_inj h2
  obtain ⟨h4, h5⟩ := rd16_inj h4
  obtain ⟨h6, h7⟩ := rd16_inj h6
  obtain ⟨h10, h11⟩ := rd16_inj h10
  have h12 := rd32_inj h12
  have h16 := rd32_inj h16
  intro i hi
  by_cases hdst : 16 ≤ i
  · have hb := h16 (i - 16) (by omega)
    rwa [Nat.add_sub_cancel' hdst] at hb
  by_cases hsrc : 12 ≤ i
  · have hb := h12 (i - 12) (by omega)
    rwa [Nat.add_sub_cancel' hsrc] at hb
  interval_cases i <;> assumption

end IpHdr

/-- `ip_hdr_hlen`. -/
def ipHdrHlen (ip : IpHdr) : ℕ := (ip.ipVhl &&& 0x0f).toNat * 4

theorem ipHdrHlen_le (ip : IpHdr) : ipHdrHlen ip ≤ 60 := by
  have h : (ip.ipVhl &&& 0x0f).toNat ≤ 15 := by
    rw [UInt8.toNat_and]
    exact Nat.and_le_right
  unfold ipHdrHlen
  omega

/-- `ip_fragment_is_frag`. -/
def ipFragmentIsFrag (hdr : IpHdr) : Bool :=
  (hdr.ipFoff &&& ipFlagsMf) != 0 || (hdr.ipFoff &&& 0x1fff) != 0

/-- `IP_FLAGS_MF` is set. -/
def moreFragments (hdr : IpHdr) : Bool := (hdr.ipFoff &&& ipFlagsMf) != 0

/-- The offset of a fragment in bytes: `(ip_foff & 0x1fff) << 3`. -/
def fragOff (hdr : IpHdr) : ℕ := (hdr.ipFoff &&& 0x1fff).toNat <<< 3

theorem fragOff_eq (hdr : IpHdr) : fragOff hdr = 8 * (hdr.ipFoff &&& 0x1fff).toNat := by
  unfold fragOff
  rw [Nat.shiftLeft_eq]
  omega

theorem fragOff_le (hdr : IpHdr) : fragOff hdr ≤ 65528 := by
  have h : (hdr.ipFoff &&& 0x1fff).toNat ≤ 0x1fff := by
    rw [UInt16.toNat_and]
    exact Nat.and_le_right
  rw [fragOff_eq]
  omega

/-! ### Checksum and byte order -/

/-- One word in the loop of `ip_checksum`. -/
def csumAdd (acc : UInt32) (word : UInt16) : UInt32 :=
  let acc := acc + word.toUInt32
  if acc > 0xffff then acc - 0xffff else acc

/-- The words of `data` from offset 0 on, `n` of them. -/
def csumWords (acc : UInt32) (data : Buf) (n : ℕ) : UInt32 :=
  (List.range n).foldl (fun acc i => csumAdd acc (rd16 data (2 * i))) acc

/-- The loop and the odd byte of `ip_checksum`. -/
def csumBytes (acc : UInt32) (data : Buf) (bsize : ℕ) : UInt32 :=
  let acc := csumWords acc data (bsize / 2)
  if bsize % 2 = 1 then csumAdd acc (data (bsize - 1)).toUInt16 else acc

/-- `ip_checksum`. -/
def ipChecksum (data : Buf) (bsize : ℕ) : UInt16 := (~~~ csumBytes 0xffff data bsize).toUInt16

theorem csumBytes_congr {n : ℕ} {b b' : Buf} (h : Agree n b b') (acc : UInt32) :
    csumBytes acc b n = csumBytes acc b' n := by
  have hw : csumWords acc b (n / 2) = csumWords acc b' (n / 2) := by
    unfold csumWords
    refine List.foldl_ext _ _ _ fun a i hi => ?_
    have := List.mem_range.mp hi
    rw [h.rd16 (by omega)]
  unfold csumBytes
  rw [hw]
  dsimp only
  split_ifs with ho
  · rw [h (n - 1) (by omega)]
  · rfl

theorem ipChecksum_congr {n : ℕ} {b b' : Buf} (h : Agree n b b') :
    ipChecksum b n = ipChecksum b' n := by
  unfold ipChecksum
  rw [csumBytes_congr h]

/-- `ip_ntoh`; the checksum is left in network order. -/
def ipNtoh (net : IpHdr) : IpHdr :=
  { net with
    ipLen := swap16 net.ipLen
    ipId := swap16 net.ipId
    ipFoff := swap16 net.ipFoff
    ipSrc := swap32 net.ipSrc
    ipDst := swap32 net.ipDst }

@[simp] theorem ipNtoh_ipNtoh (h : IpHdr) : ipNtoh (ipNtoh h) = h := by simp [ipNtoh]

@[simp] theorem ipHdrHlen_ipNtoh (h : IpHdr) : ipHdrHlen (ipNtoh h) = ipHdrHlen h := rfl

/-- `ip_hton`: `host` written in network order to the header at `o`, with its checksum, which covers
the options that follow it in the memory. -/
def ipHton (b : Buf) (o : ℕ) (host : IpHdr) : Buf :=
  let b := put b o { ipNtoh host with ipCsum := 0 }.bytes
  put b (o + 10) (le16 (ipChecksum (shift b o) (ipHdrHlen host)))

theorem ipHton_outside {b : Buf} {o i : ℕ} {host : IpHdr} (hi : i < o ∨ o + 20 ≤ i) :
    ipHton b o host i = b i := by
  unfold ipHton
  rw [put_outside (by simp only [length_le16]; omega), put_outside (by simpa using hi)]

/-- The header before the checksum. -/
def hdrPre (h : IpHdr) : List UInt8 :=
  [h.ipVhl, h.ipTos] ++ le16 h.ipLen ++ le16 h.ipId ++ le16 h.ipFoff ++ [h.ipTtl, h.ipProto]

theorem bytes_ipCsum (h : IpHdr) (csum : UInt16) : { h with ipCsum := csum }.bytes =
    hdrPre h ++ le16 csum ++ (le32 h.ipSrc ++ le32 h.ipDst) := by
  unfold IpHdr.bytes hdrPre
  simp only [List.append_assoc]

/-- The header written by `ip_hton`. -/
theorem load_ipHton (b : Buf) (host : IpHdr) :
    ∃ csum, IpHdr.load (ipHton b 0 host) = { ipNtoh host with ipCsum := csum } := by
  obtain ⟨csum, hc⟩ : ∃ csum, ipHton b 0 host =
      put (put b 0 { ipNtoh host with ipCsum := 0 }.bytes) 10 (le16 csum) := ⟨_, rfl⟩
  refine ⟨csum, ?_⟩
  rw [hc, bytes_ipCsum, show 10 = 0 + (hdrPre (ipNtoh host)).length from rfl,
    put_put _ _ _ _ (by rfl), ← bytes_ipCsum, IpHdr.load_put]

/-- `ip_reply_header` on the header at the start of the memory. The length field has 16 bits. -/
def ipReplyHeader (b : Buf) (bsize : ℕ) : ℕ × Buf :=
  let ip := IpHdr.load b
  let bsize := bsize + ipHdrHlen ip
  let ip := { ip with
    ipSrc := ip.ipDst, ipDst := ip.ipSrc, ipTtl := ipTtlDefault, ipLen := UInt16.ofNat bsize }
  (bsize, ipHton b 0 ip)

/-! ### The name of a datagram -/

/-- `struct bufid` of `packet_buf_cmp`, zeroed before the fields are set. -/
def bufid (h : IpHdr) : List UInt8 :=
  le32 h.ipSrc ++ le32 h.ipDst ++ [h.ipProto, 0] ++ le16 h.ipId

@[simp] theorem length_bufid (h : IpHdr) : (bufid h).length = 12 := rfl

/-- The headers are of one datagram. -/
def SameKey (h h' : IpHdr) : Prop :=
  h.ipSrc = h'.ipSrc ∧ h.ipDst = h'.ipDst ∧ h.ipProto = h'.ipProto ∧ h.ipId = h'.ipId

instance (h h' : IpHdr) : Decidable (SameKey h h') := by unfold SameKey; infer_instance

/-- The place of a datagram in the order of `packet_buf_cmp`. -/
def keyNum (h : IpHdr) : ℕ := beNum (bufid h)

theorem SameKey.bufid_eq {h h' : IpHdr} (hk : SameKey h h') : bufid h = bufid h' := by
  obtain ⟨h1, h2, h3, h4⟩ := hk
  unfold bufid
  rw [h1, h2, h3, h4]

theorem SameKey.symm {h h' : IpHdr} (hk : SameKey h h') : SameKey h' h :=
  ⟨hk.1.symm, hk.2.1.symm, hk.2.2.1.symm, hk.2.2.2.symm⟩

theorem SameKey.trans {h h' h'' : IpHdr} (hk : SameKey h h') (hk' : SameKey h' h'') :
    SameKey h h'' :=
  ⟨hk.1.trans hk'.1, hk.2.1.trans hk'.2.1, hk.2.2.1.trans hk'.2.2.1, hk.2.2.2.trans hk'.2.2.2⟩

/-- The bytes compared determine the datagram. -/
theorem sameKey_of_bufid {h h' : IpHdr} (hb : bufid h = bufid h') : SameKey h h' := by
  have hr : ∀ b : IpHdr, rd32 (put (fun _ => 0) 0 (bufid b)) 0 = b.ipSrc ∧
      rd32 (put (fun _ => 0) 0 (bufid b)) 4 = b.ipDst ∧
      (bufid b).getD 8 0 = b.ipProto ∧
      rd16 (put (fun _ => 0) 0 (bufid b)) 10 = b.ipId := fun b =>
    ⟨rd32_put (o := 0) [] ((bufid b).drop 4),
      rd32_put (o := 0) (le32 b.ipSrc) ((bufid b).drop 8), rfl,
      rd16_put (o := 0) ((bufid b).take 10) []⟩
  obtain ⟨h1, h2, h3, h4⟩ := hr h
  obtain ⟨h1', h2', h3', h4'⟩ := hr h'
  rw [hb] at h1 h2 h3 h4
  exact ⟨h1.symm.trans h1', h2.symm.trans h2', h3.symm.trans h3', h4.symm.trans h4'⟩

theorem keyNum_inj {h h' : IpHdr} : keyNum h = keyNum h' ↔ SameKey h h' :=
  ⟨fun he => sameKey_of_bufid (beNum_inj rfl he), fun hk => by rw [keyNum, hk.bufid_eq, keyNum]⟩

end Xstack.Ip.Header
