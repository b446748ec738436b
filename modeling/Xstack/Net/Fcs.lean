import Xstack.Lib.Crc
import Xstack.Net.State

/-! # The frame check sequence

`ether_fcs` starts from zero and does not invert its result: its register is the complement of the one
of the CRC-32, and the inversions are in its table (`table_eq`). With two steps of four bits for each
byte it computes the CRC-32 (`fcs_is_crc32`).

A string with its CRC behind it has a CRC that does not depend on the string (`etherFcs_append`), so all
frames that `ether_send` makes have the same one (`frame_checks`). -/

namespace Xstack.Net.Fcs

open Xstack.Config Xstack.Lib.Bytes Xstack.Lib.Program Xstack.Lib.Crc Xstack.Ether Xstack.Net.State

/-- The reflected polynomial of IEEE 802.3. -/
def poly : BitVec 32 := 0xEDB88320#32

/-- **The CRC-32 of IEEE 802.3,** bit by bit. -/
def crc32 (data : List UInt8) : BitVec 32 := crc poly 0xFFFFFFFF#32 0xFFFFFFFF#32 data

/-! ### One byte -/

/-- The table has the steps of the complemented index, and the complement of the four bits that move in. -/
theorem table_eq : ∀ k : BitVec 4,
    (crcTable.getD k.toNat 0).toBitVec = 0xF0000000#32 ^^^ steps poly 4 ((~~~k).setWidth 32) := by
  decide

theorem index_eq (c : UInt32) (d : UInt8) : ((c ^^^ d.toUInt32) &&& 0x0f).toNat =
    ((c.toBitVec ^^^ d.toBitVec.setWidth 32).setWidth 4).toNat := by
  have hmask : (0x0f : UInt32).toNat = 2 ^ 4 - 1 := rfl
  rw [UInt32.toNat_and, hmask, Nat.and_two_pow_sub_one_eq_mod, BitVec.toNat_setWidth]
  rfl

theorem fcsNibble_spec (c : UInt32) (d : UInt8) : ~~~ (fcsNibble c d).toBitVec =
    steps poly 4 (~~~ c.toBitVec ^^^ low 4 (d.toBitVec.setWidth 32)) := by
  set e : BitVec 32 := d.toBitVec.setWidth 32
  have hlow : low 4 (~~~ c.toBitVec ^^^ low 4 e) = (~~~ (c.toBitVec ^^^ e).setWidth 4).setWidth 32 := by
    refine BitVec.eq_of_getLsbD_eq fun i _ => ?_
    rw [getLsbD_low, BitVec.getLsbD_xor, getLsbD_low]
    by_cases hi : i < 4
    · simp [hi, show i < 32 by omega]
    · simp [hi]
  have hhigh : (~~~ c.toBitVec ^^^ low 4 e) >>> 4 = c.toBitVec >>> 4 ^^^ 0x0FFFFFFF#32 := by
    have hzero : low 4 e >>> 4 = 0#32 := by
      refine BitVec.eq_of_getLsbD_eq fun i _ => ?_
      rw [BitVec.getLsbD_ushiftRight, getLsbD_low, decide_eq_false (by omega), Bool.false_and,
        BitVec.getLsbD_zero]
    have hnot : ~~~ c.toBitVec = c.toBitVec ^^^ BitVec.allOnes 32 := (BitVec.xor_allOnes).symm
    rw [BitVec.ushiftRight_xor_distrib, hzero, BitVec.xor_zero, hnot, BitVec.ushiftRight_xor_distrib]
    rfl
  have hshift : (c >>> 4).toBitVec = c.toBitVec >>> 4 := rfl
  have hones : (0x0FFFFFFF#32 : BitVec 32) = 0xF0000000#32 ^^^ BitVec.allOnes 32 := rfl
  have hindex : ((c ^^^ d.toUInt32) &&& 0x0f).toNat = ((c.toBitVec ^^^ e).setWidth 4).toNat := index_eq c d
  unfold fcsNibble
  rw [hindex, UInt32.toBitVec_xor, table_eq, steps_low poly 4 (~~~ c.toBitVec ^^^ low 4 e), hlow, hhigh,
    hshift, ← BitVec.xor_allOnes, hones]
  ac_rfl

/-- One byte: the registers are still complements of each other. -/
theorem fcsByte_spec (c : UInt32) (d : UInt8) :
    ~~~ (fcsNibble (fcsNibble c d) (d >>> 4)).toBitVec = byteStep poly (~~~ c.toBitVec) d := by
  have hhigh : low 4 ((d >>> 4).toBitVec.setWidth 32) = (d.toBitVec.setWidth 32) >>> 4 := by
    have hshift : (d >>> 4).toBitVec = d.toBitVec >>> 4 := rfl
    rw [hshift]
    refine BitVec.eq_of_getLsbD_eq fun i _ => ?_
    rw [getLsbD_low, BitVec.getLsbD_setWidth, BitVec.getLsbD_ushiftRight, BitVec.getLsbD_ushiftRight,
      BitVec.getLsbD_setWidth]
    by_cases hi : i < 4
    · simp [hi, show i < 32 by omega, show 4 + i < 32 by omega]
    · simp [hi, BitVec.getLsbD_of_ge d.toBitVec (4 + i) (by omega)]
  have htwice : ∀ x, steps poly 8 x = steps poly 4 (steps poly 4 x) := steps_add poly 4 4
  rw [fcsNibble_spec, fcsNibble_spec, hhigh]
  unfold byteStep
  rw [htwice, steps_split poly 4 _ (d.toBitVec.setWidth 32)]

theorem fold_spec (data : List UInt8) (c : UInt32) :
    ~~~ (data.foldl (fun crc d => fcsNibble (fcsNibble crc d) (d >>> 4)) c).toBitVec =
      data.foldl (byteStep poly) (~~~ c.toBitVec) := by
  induction data generalizing c with
  | nil => rfl
  | cons d data ih => rw [List.foldl_cons, List.foldl_cons, ih, fcsByte_spec]

/-- **`ether_fcs` is the CRC-32.** -/
theorem fcs_is_crc32 (data : List UInt8) : (etherFcs data).toBitVec = crc32 data := by
  have hnot : ~~~ (etherFcs data).toBitVec = data.foldl (byteStep poly) 0xFFFFFFFF#32 := fold_spec data 0
  have hones : (0xFFFFFFFF#32 : BitVec 32) = BitVec.allOnes 32 := rfl
  unfold crc32 crc
  rw [← hnot, hones, BitVec.xor_allOnes, BitVec.not_not]

/-! ### The constant residue -/

theorem le32_fold (c : BitVec 32) (x : UInt32) :
    (le32 x).foldl (byteStep poly) c = steps poly 32 (c ^^^ x.toBitVec) := by
  set v := x.toBitVec
  have hbyte : ∀ n : ℕ, (UInt8.ofNat (x.toNat / 2 ^ n)).toBitVec.setWidth 32 = low 8 (v >>> n) := by
    intro n
    refine BitVec.eq_of_toNat_eq ?_
    unfold low
    rw [BitVec.toNat_setWidth, BitVec.toNat_setWidth, BitVec.toNat_setWidth, BitVec.toNat_ushiftRight,
      Nat.shiftRight_eq_div_pow]
    rfl
  have hstep : ∀ (c : BitVec 32) (n : ℕ), byteStep poly c (UInt8.ofNat (x.toNat / 2 ^ n)) ^^^
      v >>> (n + 8) = steps poly 8 (c ^^^ v >>> n) := by
    intro c n
    unfold byteStep
    rw [hbyte, steps_split poly 8 c (v >>> n), BitVec.shiftRight_add]
  have hgone : v >>> (24 + 8) = 0#32 := BitVec.ushiftRight_eq_zero (by decide)
  have hle : le32 x = [UInt8.ofNat (x.toNat / 2 ^ 0), UInt8.ofNat (x.toNat / 2 ^ 8),
      UInt8.ofNat (x.toNat / 2 ^ 16), UInt8.ofNat (x.toNat / 2 ^ 24)] := by
    unfold le32
    rw [Nat.div_div_eq_div_mul, Nat.div_div_eq_div_mul, pow_zero, Nat.div_one]
    rfl
  rw [hle]
  simp only [List.foldl_cons, List.foldl_nil]
  symm
  calc steps poly 32 (c ^^^ v)
      = steps poly 8 (steps poly 8 (steps poly 8 (steps poly 8 (c ^^^ v >>> 0)))) := by
        rw [← steps_add, ← steps_add, ← steps_add, BitVec.ushiftRight_zero]
    _ = _ := by rw [← hstep, ← hstep, ← hstep, ← hstep, hgone, BitVec.xor_zero]

theorem etherFcs_append (data : List UInt8) : etherFcs (data ++ le32 (etherFcs data)) = 0x2144DF1C := by
  have hones : ∀ x : BitVec 32, ~~~ x ^^^ x = BitVec.allOnes 32 := by
    intro x
    rw [← BitVec.xor_allOnes, BitVec.xor_comm, ← BitVec.xor_assoc, BitVec.xor_self, BitVec.zero_xor]
  have hdata : ~~~ (etherFcs data).toBitVec = data.foldl (byteStep poly) (~~~ (0 : UInt32).toBitVec) :=
    fold_spec data 0
  have hall : ~~~ (etherFcs (data ++ le32 (etherFcs data))).toBitVec =
      steps poly 32 (BitVec.allOnes 32) := by
    unfold etherFcs
    rw [fold_spec, List.foldl_append, ← hdata]
    exact (le32_fold _ _).trans (congrArg _ (hones _))
  refine UInt32.toBitVec_inj.mp (BitVec.not_inj.mp (hall.trans ?_))
  decide +kernel

/-! ### Frames -/

/-- The frame up to its check sequence: the protocol in network order, and zeros up to 56 bytes of data. -/
def wireBody (dst src : MacAddr) (proto : UInt16) (data : List UInt8) : List UInt8 :=
  macBytes dst ++ macBytes src ++ [UInt8.ofNat (proto.toNat / 256), UInt8.ofNat proto.toNat] ++ data ++
    List.replicate (max data.length 56 - data.length) 0

/-- **A well-formed frame.** -/
structure WellFormed (dst src : MacAddr) (proto : UInt16) (data frame : List UInt8) : Prop where
  layout : frame = wireBody dst src proto data ++ le32 (etherFcs (wireBody dst src proto data))
  length : frame.length = 14 + max data.length 56 + 4
  residue : etherFcs frame = 0x2144DF1C

theorem frameBody_eq (dst src : MacAddr) (proto : UInt16) (data : List UInt8) :
    frameBody dst src proto data = wireBody dst src proto data := by
  have hpad : frameSize data.length - etherHeaderLen - etherFcsLen - data.length =
      max data.length 56 - data.length := by
    unfold frameSize etherHeaderLen etherMinlen etherFcsLen
    omega
  unfold frameBody wireBody
  rw [hpad, le16_swap16]

theorem etherFrame_wellFormed (dst src : MacAddr) (proto : UInt16) (data : List UInt8) :
    WellFormed dst src proto data (etherFrame dst src proto data) := by
  have hlayout : etherFrame dst src proto data =
      wireBody dst src proto data ++ le32 (etherFcs (wireBody dst src proto data)) := by
    unfold etherFrame
    dsimp only
    rw [frameBody_eq]
  refine ⟨hlayout, ?_, ?_⟩
  · rw [hlayout]
    simp only [wireBody, macBytes, List.length_append, List.length_ofFn, List.length_cons, List.length_nil,
      List.length_replicate, length_le32]
    omega
  · rw [hlayout]
    exact etherFcs_append _

/-- **What `ether_send` hands to `sendto` is well formed,** and what is too long is refused. -/
theorem frame_checks (env : Env) {handle : ℤ} (h0 : 0 ≤ handle) (h1 : handle < etherMaxIf) (dst : MacAddr)
    (proto : UInt16) (b : Buf) (bsize : ℕ) (s : Stack) :
    (bsize ≤ 1500 → ∃ frame, (etherSend env handle dst proto b bsize s).2.tx = s.tx ++ [frame] ∧
      WellFormed dst s.mac proto (slice b bsize) frame) ∧
    (1500 < bsize → bsize ≤ 65535 →
      etherSend env handle dst proto b bsize s = (some (-EMSGSIZE), s)) := by
  have hmax : frameSize bsize > etherMaxlen + etherFcsLen ↔ 1500 < bsize := by
    unfold frameSize etherHeaderLen etherMinlen etherMaxlen etherFcsLen
    omega
  refine ⟨fun hsize => ?_, fun hsize _ => ?_⟩
  · have hrun := etherSend_run env h0 h1 (fun h => absurd (hmax.mp h) (by omega)) dst proto b s
    rw [hrun]
    exact ⟨_, rfl, etherFrame_wellFormed dst s.mac proto (slice b bsize)⟩
  · unfold etherSend
    rw [if_pos (hmax.mpr hsize)]
    rfl

/-- A frame of three bytes, and one that is a byte too long. -/
theorem frame_checks_three : ∃ frame,
    (etherSend ⟨.ofSign, fun _ => 74⟩ 0 (fun _ => 1) 0x0800 (ofBytes [5, 6, 7]) 3
        (Stack.init fun _ => 2)).2.tx = [frame] ∧
      WellFormed (fun _ => 1) (fun _ => 2) 0x0800 [5, 6, 7] frame ∧
      (etherSend ⟨.ofSign, fun _ => 74⟩ 0 (fun _ => 1) 0x0800 (ofBytes [5, 6, 7]) 1501
        (Stack.init fun _ => 2)).1 = some (-EMSGSIZE) := by
  have hvalid : (0 : ℤ) < etherMaxIf := by decide
  obtain ⟨frame, htx, hframe⟩ := (frame_checks ⟨.ofSign, fun _ => 74⟩ le_rfl hvalid (fun _ => 1) 0x0800
    (ofBytes [5, 6, 7]) 3 (Stack.init fun _ => 2)).1 (by decide)
  have hrefused := (frame_checks ⟨.ofSign, fun _ => 74⟩ le_rfl hvalid (fun _ => 1) 0x0800
    (ofBytes [5, 6, 7]) 1501 (Stack.init fun _ => 2)).2 (by decide) (by decide)
  refine ⟨frame, htx, hframe, ?_⟩
  rw [hrefused]

end Xstack.Net.Fcs
