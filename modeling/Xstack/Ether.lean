import Xstack.Config
import Xstack.Lib.Bytes

/-! # Ethernet frames

`ether_fcs.c`, and of `linux_ether.c` the frame that `ether_send` hands to `sendto` (`etherFrame`)
and what `ether_receive` makes of the frames that `recvfrom` returns (`etherReceive`).
`etherReceive_frame`: the one after the other. -/

namespace Xstack.Ether

open Xstack.Config Xstack.Lib.Bytes

def etherDataLen : ℕ := 1500
def etherAlen : ℕ := 6
def etherHeaderLen : ℕ := 14
def etherFcsLen : ℕ := 4
def etherMinlen : ℕ := 60
def etherMaxlen : ℕ := 1514
/-- `ETHER_MAX_IF`. -/
def etherMaxIf : ℤ := 1

def etherProtoIpv4 : UInt16 := 0x0800
def etherProtoArp : UInt16 := 0x0806

/-- `mac_broadcast_addr`. -/
def macBroadcastAddr : MacAddr := fun _ => 0xff

def macBytes (mac : MacAddr) : List UInt8 := List.ofFn mac

def macLoad (b : Buf) (o : ℕ) : MacAddr := fun i => b (o + i)

/-- `struct ether_hdr`, with `h_proto` in host order as `ether_receive` leaves it. -/
structure EtherHdr where
  hDst : MacAddr
  hSrc : MacAddr
  hProto : UInt16

/-- `crc_table`. -/
def crcTable : List UInt32 :=
  [0x4DBDF21C, 0x500AE278, 0x76D3D2D4, 0x6B64C2B0, 0x3B61B38C, 0x26D6A3E8, 0x000F9344, 0x1DB88320,
    0xA005713C, 0xBDB26158, 0x9B6B51F4, 0x86DC4190, 0xD6D930AC, 0xCB6E20C8, 0xEDB71064, 0xF0000000]

/-- One of the two lookups for a byte. -/
def fcsNibble (crc : UInt32) (d : UInt8) : UInt32 :=
  (crc >>> 4) ^^^ crcTable.getD ((crc ^^^ d.toUInt32) &&& 0x0f).toNat 0

/-- `ether_fcs`. -/
def etherFcs (data : List UInt8) : UInt32 :=
  data.foldl (fun crc d => fcsNibble (fcsNibble crc d) (d >>> 4)) 0

/-- The size of the frame for `bsize` bytes of data. -/
def frameSize (bsize : ℕ) : ℕ :=
  etherHeaderLen + max bsize (etherMinlen - etherFcsLen) + etherFcsLen

/-- The header, the data and the padding that `ether_send` writes. -/
def frameBody (dst src : MacAddr) (proto : UInt16) (data : List UInt8) : List UInt8 :=
  macBytes dst ++ macBytes src ++ le16 (swap16 proto) ++ data ++
    List.replicate (frameSize data.length - etherHeaderLen - etherFcsLen - data.length) 0

/-- The frame that `ether_send` hands to `sendto`. -/
def etherFrame (dst src : MacAddr) (proto : UInt16) (data : List UInt8) : List UInt8 :=
  let body := frameBody dst src proto data
  body ++ le32 (etherFcs body)

/-- The data is a part of the frame. -/
theorem etherFrame_data {dst src : MacAddr} {proto : UInt16} {data : List UInt8} :
    ((etherFrame dst src proto data).drop 14).take data.length = data := by
  have hd : ∀ rest : List UInt8,
      ((macBytes dst ++ macBytes src ++ le16 (swap16 proto) ++ (data ++ rest)).drop 14) =
        data ++ rest := by
    intro rest
    rw [List.drop_left']
    simp [macBytes]
  unfold etherFrame frameBody
  simp only [List.append_assoc]
  have := hd (List.replicate (frameSize data.length - etherHeaderLen - etherFcsLen - data.length) 0 ++
    le32 (etherFcs (frameBody dst src proto data)))
  simp only [List.append_assoc, frameBody] at this
  rw [this, List.take_left]

/-! ### The receiver -/

/-- `ether_receive` into a buffer of `bsize` bytes, when the given frames wait at the socket: the
header, the buffer and the returned size, or nothing after a timeout. `recvfrom` cuts a frame off that is
longer than `ETHER_MAXLEN`, and frames of the interface itself are skipped. A frame without a whole
header leaves some of it uninitialised. -/
def etherReceive (mac : MacAddr) (buf : Buf) (bsize : ℕ) :
    List (List UInt8) → Option (Option (EtherHdr × Buf × ℕ))
  | [] => some none
  | sent :: rest =>
    let frame := sent.take etherMaxlen
    let b := ofBytes frame
    if frame.length < etherHeaderLen then none
    else if macLoad b 6 = mac then etherReceive mac buf bsize rest
    else
      let retval := frame.length - etherHeaderLen
      some (some (⟨macLoad b 0, macLoad b 6, swap16 (rd16 b 12)⟩,
        put buf 0 (slice (shift b etherHeaderLen) (min retval bsize)), retval))

/-- The padding and the checksum behind the data. -/
def frameTail (dst src : MacAddr) (proto : UInt16) (data : List UInt8) : List UInt8 :=
  List.replicate (frameSize data.length - etherHeaderLen - etherFcsLen - data.length) 0 ++
    le32 (etherFcs (frameBody dst src proto data))

theorem etherFrame_eq (dst src : MacAddr) (proto : UInt16) (data : List UInt8) :
    etherFrame dst src proto data =
      macBytes dst ++ (macBytes src ++ (le16 (swap16 proto) ++ (data ++ frameTail dst src proto data))) := by
  unfold etherFrame frameTail
  simp [frameBody]

section

variable (dst src : MacAddr) (proto : UInt16) (rest : List UInt8)

/-- A frame with its header written out. -/
def withHeader : List UInt8 := macBytes dst ++ (macBytes src ++ (le16 (swap16 proto) ++ rest))

theorem macLoad_dst : macLoad (ofBytes (withHeader dst src proto rest)) 0 = dst := by
  funext i
  unfold macLoad
  rw [ofBytes_of_lt (by simp [withHeader, macBytes]; omega)]
  fin_cases i <;> rfl

theorem macLoad_src : macLoad (ofBytes (withHeader dst src proto rest)) 6 = src := by
  funext i
  unfold macLoad
  rw [ofBytes_of_lt (by simp [withHeader, macBytes]; omega)]
  fin_cases i <;> rfl

theorem rd16_proto : rd16 (ofBytes (withHeader dst src proto rest)) 12 = swap16 proto := by
  have h := rd16_put (b := fun _ => 0) (o := 0) (x := swap16 proto) (macBytes dst ++ macBytes src) rest
  rw [List.append_assoc, List.append_assoc] at h
  exact h

theorem shift_withHeader {i : ℕ} (hi : i < rest.length) :
    shift (ofBytes (withHeader dst src proto rest)) etherHeaderLen i = rest.getD i 0 := by
  unfold shift
  rw [ofBytes_of_lt (by simp [withHeader, macBytes, etherHeaderLen]; omega)]
  have hpre : withHeader dst src proto rest =
      (macBytes dst ++ (macBytes src ++ le16 (swap16 proto))) ++ rest := by
    simp [withHeader]
  have hlen : (macBytes dst ++ (macBytes src ++ le16 (swap16 proto))).length = etherHeaderLen := rfl
  rw [hpre, List.getD_append_right _ _ _ _ (by rw [hlen]; omega), hlen, Nat.add_sub_cancel_left]

theorem take_withHeader :
    (withHeader dst src proto rest).take etherMaxlen = withHeader dst src proto (rest.take 1500) := by
  have hdst : (macBytes dst).length = 6 := rfl
  have hsrc : (macBytes src).length = 6 := rfl
  unfold withHeader etherMaxlen
  rw [List.take_append, List.take_append, List.take_append, hdst, hsrc, length_le16,
    List.take_of_length_le (by rw [hdst]; omega), List.take_of_length_le (by rw [hsrc]; omega),
    List.take_of_length_le (by simp)]

end

/-- The number of bytes that `ether_receive` returns for a frame with `n` bytes of data. -/
def receivedSize (n : ℕ) : ℕ := min (max n 56 + 4) 1500

/-- **A frame of `ether_send` at the other end:** the header is that of the sender and the data is at the
beginning of the buffer, but the returned size is that of data, padding and checksum. -/
theorem etherReceive_frame (dst : MacAddr) {src mac : MacAddr} (proto : UInt16) (buf : Buf)
    {data : List UInt8} (hdata : data.length ≤ 1500) (hmac : src ≠ mac) :
    ∃ b, etherReceive mac buf etherMaxlen [etherFrame dst src proto data] =
        some (some (⟨dst, src, proto⟩, b, receivedSize data.length)) ∧
      ∀ i < data.length, b i = data.getD i 0 := by
  set rest := (data ++ frameTail dst src proto data).take 1500 with hrest
  have hframe : (etherFrame dst src proto data).take etherMaxlen = withHeader dst src proto rest := by
    rw [etherFrame_eq]
    exact take_withHeader dst src proto _
  have hlen : rest.length = receivedSize data.length := by
    rw [hrest, List.length_take, List.length_append, frameTail, List.length_append,
      List.length_replicate, length_le32]
    unfold receivedSize frameSize etherHeaderLen etherFcsLen etherMinlen
    omega
  have hflen : (withHeader dst src proto rest).length = etherHeaderLen + receivedSize data.length := by
    rw [← hlen]
    simp [withHeader, macBytes, etherHeaderLen]
    omega
  have hle : data.length ≤ receivedSize data.length := by
    unfold receivedSize
    omega
  have hmin : min (receivedSize data.length) etherMaxlen = receivedSize data.length := by
    unfold receivedSize etherMaxlen
    omega
  set b := shift (ofBytes (withHeader dst src proto rest)) etherHeaderLen with hb
  refine ⟨put buf 0 (slice b (receivedSize data.length)), ?_, fun i hi => ?_⟩
  · unfold etherReceive
    simp only [hframe, hflen, macLoad_src, macLoad_dst, rd16_proto, swap16_swap16]
    rw [if_neg (by omega), if_neg hmac, Nat.add_sub_cancel_left, hmin]
  · have hget : rest.getD i 0 = data.getD i 0 := by
      rw [hrest, List.take_append, List.take_of_length_le hdata, List.getD_append _ _ _ _ hi]
    rw [put_slice_agree buf b _ i (by omega), hb, shift_withHeader dst src proto rest (by omega), hget]

/-- A frame of the interface itself is skipped. -/
theorem etherReceive_own {dst mac : MacAddr} (proto : UInt16) (buf : Buf) (data : List UInt8) :
    etherReceive mac buf etherMaxlen [etherFrame dst mac proto data] = some none := by
  have hframe : (etherFrame dst mac proto data).take etherMaxlen =
      withHeader dst mac proto ((data ++ frameTail dst mac proto data).take 1500) := by
    rw [etherFrame_eq]
    exact take_withHeader dst mac proto _
  unfold etherReceive
  simp only [hframe, macLoad_src]
  rw [if_neg (by simp [withHeader, macBytes, etherHeaderLen]), if_pos trivial]
  rfl

end Xstack.Ether
