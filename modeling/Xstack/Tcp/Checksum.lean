import Xstack.Ip.Checksum
import Xstack.Tcp.Conn

/-! # The TCP checksum

`tcp_checksum` has loops of its own over the pseudo header and over the segment. It is `ip_checksum` of
the one followed by the other (`tcpChecksum_eq`), does not depend on the order of the addresses
(`tcpChecksum_comm`), and the replies of `tcp_input` verify (`answer_verifies`). -/

namespace Xstack.Tcp.Checksum

open Xstack.Lib.Bytes Xstack.Lib.Lex Xstack.Ip.Header Xstack.Ip.Checksum Xstack.Sock.Queue
open Xstack.Tcp.Conn

/-- A number in network order. -/
def be16 (x : ℕ) : List UInt8 := [UInt8.ofNat (x / 256), UInt8.ofNat x]

def be32 (x : UInt32) : List UInt8 := be16 (x.toNat / 256 / 256) ++ be16 x.toNat

/-- **The pseudo header:** source, destination, zero, the protocol 6 and the length. -/
def pseudo (src dst : UInt32) (n : ℕ) : List UInt8 := be32 src ++ be32 dst ++ [0, 6] ++ be16 n

variable {acc acc' : UInt32} {b : Buf} {src dst : SockAddr} {n o : ℕ}

/-! ### The two loops -/

theorem csumWords_add (acc : UInt32) (b : Buf) (m : ℕ) : ∀ n,
    csumWords acc b (m + n) = csumWords (csumWords acc b m) (shift b (2 * m)) n
  | 0 => rfl
  | n + 1 => by
    rw [← Nat.add_assoc, csumWords_succ, csumWords_succ, csumWords_add acc b m n, Nat.mul_add]
    rfl

/-- The sum goes on after an even number of bytes. -/
theorem csumBytes_add (acc : UInt32) (b : Buf) (m n : ℕ) :
    csumBytes acc b (2 * m + n) = csumBytes (csumWords acc b m) (shift b (2 * m)) n := by
  have hhalf : (2 * m + n) / 2 = m + n / 2 := by omega
  have hodd : (2 * m + n) % 2 = n % 2 := by omega
  unfold csumBytes
  dsimp only
  rw [hhalf, hodd, csumWords_add]
  split_ifs with h
  · have hlast : 2 * m + n - 1 = 2 * m + (n - 1) := by omega
    rw [hlast]
    rfl
  · rfl

theorem ofBytes_append_agree (l l' : List UInt8) : Agree l.length (ofBytes (l ++ l')) (ofBytes l) := by
  intro i hi
  rw [ofBytes_of_lt hi, ofBytes_of_lt (by rw [List.length_append]; omega),
    List.getD_append _ _ _ _ hi]

theorem shift_ofBytes_append (l : List UInt8) (b : Buf) (n : ℕ) :
    Agree n (shift (ofBytes (l ++ slice b n)) l.length) b := by
  intro i hi
  have hlen := slice_length b n
  show ofBytes (l ++ slice b n) (l.length + i) = b i
  rw [ofBytes_of_lt (by rw [List.length_append, hlen]; omega),
    List.getD_append_right _ _ _ _ (Nat.le_add_right _ _), Nat.add_sub_cancel_left]
  simp [slice, List.getD, hi]

theorem le16_swap16_ofNat (x : ℕ) : le16 (swap16 (UInt16.ofNat x)) = be16 x := by
  have hhigh : UInt8.ofNat (x % 65536 / 256) = UInt8.ofNat (x / 256) := ofNat_congr (by omega)
  have hlow : UInt8.ofNat (x % 65536) = UInt8.ofNat x := ofNat_congr (by omega)
  unfold be16
  rw [le16_swap16, UInt16.toNat_ofNat', hhigh, hlow]

theorem le32_swap32 (x : UInt32) : le32 (swap32 x) = be32 x := by
  have hx := x.toNat_lt
  have h0 := toNat_swap32 x
  have h1 : (swap32 x).toNat % 256 = x.toNat / 256 / 256 / 256 := by omega
  have h2 : (swap32 x).toNat / 256 % 256 = x.toNat / 256 / 256 % 256 := by omega
  have h3 : (swap32 x).toNat / 256 / 256 % 256 = x.toNat / 256 % 256 := by omega
  have h4 : (swap32 x).toNat / 256 / 256 / 256 = x.toNat % 256 := by omega
  have e0 : UInt8.ofNat (swap32 x).toNat = UInt8.ofNat (x.toNat / 256 / 256 / 256) :=
    ofNat_congr (by omega)
  have e1 : UInt8.ofNat ((swap32 x).toNat / 256) = UInt8.ofNat (x.toNat / 256 / 256) :=
    ofNat_congr (by omega)
  have e2 : UInt8.ofNat ((swap32 x).toNat / 256 / 256) = UInt8.ofNat (x.toNat / 256) :=
    ofNat_congr (by omega)
  have e3 : UInt8.ofNat ((swap32 x).toNat / 256 / 256 / 256) = UInt8.ofNat x.toNat :=
    ofNat_congr (by omega)
  unfold le32 be32 be16
  rw [e0, e1, e2, e3]
  rfl

theorem pseudoHeader_eq (src dst : SockAddr) (n : ℕ) :
    pseudoHeader src dst n = ofBytes (pseudo src.inet4Addr dst.inet4Addr n) := by
  unfold pseudoHeader pseudo
  rw [le32_swap32, le32_swap32, le16_swap16_ofNat]
  rfl

/-- **The TCP checksum is the IP checksum** of the pseudo header and the segment. -/
theorem tcpChecksum_eq (src dst : SockAddr) (b : Buf) (n : ℕ) : tcpChecksum src dst b n =
    ipChecksum (ofBytes (pseudo src.inet4Addr dst.inet4Addr n ++ slice b n)) (12 + n) := by
  set p := pseudo src.inet4Addr dst.inet4Addr n with hp
  have hpre : Agree 12 (ofBytes (p ++ slice b n)) (ofBytes p) := ofBytes_append_agree p _
  have hseg : Agree n (shift (ofBytes (p ++ slice b n)) 12) b := shift_ofBytes_append p b n
  have hwords : csumWords 0xffff (ofBytes (p ++ slice b n)) 6 = csumWords 0xffff (ofBytes p) 6 :=
    csumBytes_congr hpre 0xffff
  unfold tcpChecksum ipChecksum
  rw [show 12 + n = 2 * 6 + n from rfl, csumBytes_add, hwords, csumBytes_congr hseg,
    pseudoHeader_eq]

/-! ### The order of the addresses -/

theorem Reduced.eq_of_modEq (h : Reduced acc) (h' : Reduced acc')
    (hmod : acc.toNat ≡ acc'.toNat [MOD 65535]) : acc = acc' := by
  obtain ⟨h0, h1⟩ := h
  obtain ⟨h2, h3⟩ := h'
  unfold Nat.ModEq at hmod
  exact UInt32.toNat_inj.mp (by omega)

/-- The loop adds the words, modulo 65535. -/
theorem csumWords_sum (h : Reduced acc) (b : Buf) : ∀ n, (csumWords acc b n).toNat ≡
    acc.toNat + ∑ i ∈ Finset.range n, (rd16 b (2 * i)).toNat [MOD 65535]
  | 0 => Nat.ModEq.refl _
  | n + 1 => by
    rw [csumWords_succ, Finset.sum_range_succ, ← Nat.add_assoc]
    exact (csumAdd_modEq (csumWords_reduced h b n) _).trans ((csumWords_sum h b n).add_right _)

theorem rd16_ofBytes {l : List UInt8} (ho : o + 1 < l.length) :
    rd16 (ofBytes l) o = UInt16.ofNat ((l.getD o 0).toNat + 256 * (l.getD (o + 1) 0).toNat) := by
  unfold rd16
  rw [ofBytes_of_lt ho, ofBytes_of_lt (Nat.lt_of_succ_lt ho)]

/-- The words of the pseudo header are the same ones. -/
theorem pseudoHeader_sum (src dst : SockAddr) (n : ℕ) :
    ∑ i ∈ Finset.range 6, (rd16 (pseudoHeader dst src n) (2 * i)).toNat =
      ∑ i ∈ Finset.range 6, (rd16 (pseudoHeader src dst n) (2 * i)).toNat := by
  have hlen : ∀ i < 6, ∀ x y, 2 * i + 1 < (pseudo x y n).length := by
    intro i hi x y
    show 2 * i + 1 < 12
    omega
  have hword : ∀ i < 2, ∀ x y : UInt32,
      rd16 (ofBytes (pseudo x y n)) (2 * i) = rd16 (ofBytes (pseudo y x n)) (2 * (i + 2)) := by
    intro i hi x y
    rw [rd16_ofBytes (hlen i (by omega) x y), rd16_ofBytes (hlen (i + 2) (by omega) y x)]
    interval_cases i
    · rfl
    · rfl
  have hrest : ∀ i < 6, 4 ≤ i → ∀ x y : UInt32,
      rd16 (ofBytes (pseudo x y n)) (2 * i) = rd16 (ofBytes (pseudo y x n)) (2 * i) := by
    intro i hi h4 x y
    rw [rd16_ofBytes (hlen i hi x y), rd16_ofBytes (hlen i hi y x)]
    interval_cases i
    · rfl
    · rfl
  have h0 := hword 0 (by decide) dst.inet4Addr src.inet4Addr
  have h1 := hword 1 (by decide) dst.inet4Addr src.inet4Addr
  have h2 := hword 0 (by decide) src.inet4Addr dst.inet4Addr
  have h3 := hword 1 (by decide) src.inet4Addr dst.inet4Addr
  have h4 := hrest 4 (by decide) le_rfl dst.inet4Addr src.inet4Addr
  have h5 := hrest 5 (by decide) (by decide) dst.inet4Addr src.inet4Addr
  simp only [Nat.zero_add, Nat.reduceAdd] at h0 h1 h2 h3
  simp only [Finset.sum_range_succ, Finset.sum_range_zero, pseudoHeader_eq]
  rw [h0, h1, h2, h3, h4, h5]
  omega

theorem tcpChecksum_comm (src dst : SockAddr) (b : Buf) (n : ℕ) :
    tcpChecksum dst src b n = tcpChecksum src dst b n := by
  have hsum := csumWords_sum reduced_init (pseudoHeader dst src n) 6
  rw [pseudoHeader_sum] at hsum
  have heq := Reduced.eq_of_modEq (csumWords_reduced reduced_init _ 6)
    (csumWords_reduced reduced_init _ 6)
    (hsum.trans (csumWords_sum reduced_init (pseudoHeader src dst n) 6).symm)
  unfold tcpChecksum
  rw [heq]

/-! ### Replies -/

/-- **The segment that `tcp_hton` writes verifies.** -/
theorem tcpHton_verifies (b : Buf) (o : ℕ) (src dst : SockAddr) (host : TcpHdr) (hn : 20 ≤ n) :
    tcpChecksum src dst (shift (tcpHton b o src dst host n) o) n = 0 := by
  unfold tcpHton
  dsimp only
  set c := shift (put b o { tcpNtoh host with tcpChecksum := 0 }.bytes) o with hc
  have hzero : ∀ k, k = 16 ∨ k = 17 → c k = 0 := by
    intro k hk
    have hget := put_of_lt (b := b) (o := o) (l := { tcpNtoh host with tcpChecksum := 0 }.bytes)
      (i := k) (by rw [TcpHdr.length_bytes]; omega)
    rw [hc]
    unfold shift
    rw [hget]
    rcases hk with rfl | rfl
    · rfl
    · show UInt8.ofNat ((0 : UInt16).toNat / 256) = 0
      decide
  rw [shift_put_add]
  exact not_csumBytes_put (csumWords_reduced reduced_init _ 6) (by decide) (by omega)
    (hzero 16 (by omega)) (hzero 17 (by omega))

variable {mc : Memcmp} {m m' : TcpMap} {x : Seg} {i : ℕ} {retval : ℤ} {b' : Buf}

theorem answer_verifies (h : answer m x i = (retval, m', b')) (hpos : 0 < retval) :
    tcpChecksum x.loc x.rem (shift b' x.o) retval.toNat = 0 := by
  obtain ⟨hfst, -⟩ := answer_fst m x i
  rw [h] at hfst
  dsimp only at hfst
  obtain ⟨hsize, hdoff⟩ := tcpFsm_size (hfst ▸ hpos)
  unfold answer at h
  dsimp only at h
  rw [← hfst, if_pos hpos] at h
  obtain ⟨-, -, rfl⟩ : retval = retval ∧ _ = m' ∧ _ = b' := by simpa using h
  exact tcpHton_verifies _ _ _ _ _ (by omega)

/-- **The TCP checksum agrees with the IP one, and the replies verify:** for all addresses and all
segments `tcp_checksum` is `ip_checksum` of the pseudo header and the segment and is the same when the
addresses are exchanged, and every segment that `tcp_input` sends back has the checksum 0. -/
theorem agrees_and_verifies :
    (∀ (src dst : SockAddr) (b : Buf) (n : ℕ), n ≤ 65535 → tcpChecksum src dst b n =
      ipChecksum (ofBytes (pseudo src.inet4Addr dst.inet4Addr n ++ slice b n)) (12 + n)) ∧
    (∀ (src dst : SockAddr) (b : Buf) (n : ℕ), n ≤ 65535 →
      tcpChecksum dst src b n = tcpChecksum src dst b n) ∧
    ∀ (mc : Memcmp) (m : TcpMap) (x : Seg) (retval : ℤ) (m' : TcpMap) (b' : Buf),
      input mc m x = some (retval, m', b') → 0 < retval →
        tcpChecksum x.loc x.rem (shift b' x.o) retval.toNat = 0 := by
  refine ⟨fun src dst b n _ => tcpChecksum_eq src dst b n,
    fun src dst b n _ => tcpChecksum_comm src dst b n, ?_⟩
  intro mc m x retval m' b' hin hpos
  rcases input_cases hin with ⟨hneg, -⟩ | ⟨i, m₁, -, ha⟩
  · omega
  · exact answer_verifies ha hpos

end Xstack.Tcp.Checksum
