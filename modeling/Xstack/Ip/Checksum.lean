import Xstack.Ip.Header

/-! # The checksum as a sum modulo 65535

`ip_checksum` adds words modulo 65535, with the representatives 1 to 65535. So the checksums of two
buffers that differ in one byte, where one has 0 and the other 1, are different (`ipChecksum_ne`), and
a string with its checksum in place has the checksum 0 (`ipChecksum_put`, `ipHton_verifies`).

The words are added as the host reads them. Modulo 65535 the other order of bytes is a factor of 256, so
the result is the Internet checksum in network order (`internet_checksum`). -/

namespace Xstack.Ip.Checksum

open Xstack.Lib.Bytes Xstack.Ip.Header

/-- A sum as `ip_checksum` keeps it. -/
def Reduced (acc : UInt32) : Prop := 0 < acc.toNat ∧ acc.toNat ≤ 65535

variable {acc acc' : UInt32} {w w' : UInt16} {b b' : Buf}

theorem csumAdd_spec (h : Reduced acc) (w : UInt16) : Reduced (csumAdd acc w) ∧
    ((csumAdd acc w).toNat = acc.toNat + w.toNat ∨
      (csumAdd acc w).toNat + 65535 = acc.toNat + w.toNat) := by
  obtain ⟨h0, h1⟩ := h
  have hw := w.toNat_lt
  have hmax : (0xffff : UInt32).toNat = 65535 := rfl
  have hsum : (acc + w.toUInt32).toNat = acc.toNat + w.toNat := by
    rw [UInt32.toNat_add, UInt16.toNat_toUInt32, Nat.mod_eq_of_lt (by omega)]
  unfold csumAdd Reduced
  dsimp only
  split_ifs with hgt
  · have hgt : 65535 < acc.toNat + w.toNat := by
      rw [← hsum, ← hmax]
      exact UInt32.lt_iff_toNat_lt.mp hgt
    have hsub : (acc + w.toUInt32 - 0xffff).toNat = acc.toNat + w.toNat - 65535 := by
      rw [UInt32.toNat_sub_of_le _ _ (UInt32.le_iff_toNat_le.mpr (by omega)), hsum, hmax]
    omega
  · have hle : acc.toNat + w.toNat ≤ 65535 := by
      rw [← hsum, ← hmax]
      exact Nat.not_lt.mp fun h => hgt (UInt32.lt_iff_toNat_lt.mpr h)
    omega

/-- The sums differ by `d` modulo 65535. -/
def Ahead (d : ℕ) (acc acc' : UInt32) : Prop :=
  acc'.toNat = acc.toNat + d ∨ acc'.toNat + 65535 = acc.toNat + d

theorem csumAdd_ahead {d : ℕ} (h : Reduced acc) (h' : Reduced acc') (hd : d < 65535)
    (ha : Ahead d acc acc') (w : UInt16) : Ahead d (csumAdd acc w) (csumAdd acc' w) := by
  obtain ⟨⟨h1, h2⟩, h3⟩ := csumAdd_spec h w
  obtain ⟨⟨h4, h5⟩, h6⟩ := csumAdd_spec h' w
  unfold Ahead at ha ⊢
  obtain ⟨h7, h8⟩ := h
  obtain ⟨h9, h10⟩ := h'
  omega

/-! ### The loop -/

theorem csumWords_succ (acc : UInt32) (b : Buf) (n : ℕ) :
    csumWords acc b (n + 1) = csumAdd (csumWords acc b n) (rd16 b (2 * n)) := by
  unfold csumWords
  rw [List.range_succ, List.foldl_append]
  rfl

theorem csumWords_reduced (h : Reduced acc) (b : Buf) : ∀ n, Reduced (csumWords acc b n)
  | 0 => h
  | n + 1 => by
    rw [csumWords_succ]
    exact (csumAdd_spec (csumWords_reduced h b n) _).1

/-- One word differs: the sums are the same up to it, and then `d` apart. -/
theorem csumWords_ahead {d j : ℕ} (h : Reduced acc) (hd : d < 65535)
    (heq : ∀ i, i ≠ j → rd16 b' (2 * i) = rd16 b (2 * i))
    (hj : (rd16 b' (2 * j)).toNat = (rd16 b (2 * j)).toNat + d) : ∀ n,
    (n ≤ j → csumWords acc b' n = csumWords acc b n) ∧
      (j < n → Ahead d (csumWords acc b n) (csumWords acc b' n))
  | 0 => ⟨fun _ => rfl, fun hn => absurd hn (Nat.not_lt_zero j)⟩
  | n + 1 => by
    obtain ⟨ih1, ih2⟩ := csumWords_ahead h hd heq hj n
    rw [csumWords_succ, csumWords_succ]
    constructor
    · intro hn
      rw [ih1 (by omega), heq n (by omega)]
    · intro hn
      by_cases hjn : j = n
      · subst hjn
        rw [ih1 le_rfl]
        have hred := csumWords_reduced h b j
        obtain ⟨⟨h1, h2⟩, h3⟩ := csumAdd_spec hred (rd16 b (2 * j))
        obtain ⟨⟨h4, h5⟩, h6⟩ := csumAdd_spec hred (rd16 b' (2 * j))
        unfold Ahead
        omega
      · rw [heq n (Ne.symm hjn)]
        exact csumAdd_ahead (csumWords_reduced h b n) (csumWords_reduced h b' n) hd
          (ih2 (by omega)) _

/-- The word with the byte that is 0 in `b` and 1 in `b'`. -/
theorem rd16_bump {k : ℕ} (heq : ∀ i, i ≠ k → b' i = b i) (h0 : b k = 0) (h1 : b' k = 1) :
    ∃ d, 0 < d ∧ d < 65535 ∧ (rd16 b' (2 * (k / 2))).toNat = (rd16 b (2 * (k / 2))).toNat + d := by
  have hrd : ∀ c : Buf, ∀ i, (rd16 c i).toNat = (c i).toNat + 256 * (c (i + 1)).toNat := by
    intro c i
    have := (c i).toNat_lt
    have := (c (i + 1)).toNat_lt
    rw [rd16, UInt16.toNat_ofNat', Nat.mod_eq_of_lt (by omega)]
  have h0 : (b k).toNat = 0 := by rw [h0]; rfl
  have h1 : (b' k).toNat = 1 := by rw [h1]; rfl
  rw [hrd, hrd]
  rcases Nat.even_or_odd' k with ⟨c, rfl | rfl⟩
  · rw [Nat.mul_div_cancel_left c (by decide), heq (2 * c + 1) (by omega)]
    exact ⟨1, by decide, by decide, by omega⟩
  · rw [show (2 * c + 1) / 2 = c by omega, heq (2 * c) (by omega)]
    exact ⟨256, by decide, by decide, by omega⟩

theorem reduced_init : Reduced 0xffff := by
  constructor <;> decide

/-! ### The odd byte -/

theorem csumBytes_reduced (h : Reduced acc) (b : Buf) (n : ℕ) : Reduced (csumBytes acc b n) := by
  unfold csumBytes
  dsimp only
  split_ifs
  · exact (csumAdd_spec (csumWords_reduced h b _) _).1
  · exact csumWords_reduced h b _

/-- One of the whole words differs. -/
theorem csumBytes_ahead {d j n : ℕ} (h : Reduced acc) (hd : d < 65535)
    (heq : ∀ i, i ≠ j → rd16 b' (2 * i) = rd16 b (2 * i))
    (hj : (rd16 b' (2 * j)).toNat = (rd16 b (2 * j)).toNat + d) (hn : 2 * j + 2 ≤ n)
    (hlast : n % 2 = 1 → b' (n - 1) = b (n - 1)) :
    Ahead d (csumBytes acc b n) (csumBytes acc b' n) := by
  have hahead := (csumWords_ahead h hd heq hj (n / 2)).2 (by omega)
  unfold csumBytes
  dsimp only
  split_ifs with hodd
  · rw [hlast hodd]
    exact csumAdd_ahead (csumWords_reduced h b _) (csumWords_reduced h b' _) hd hahead _
  · exact hahead

/-- The complement of a sum, as the checksum functions return it. -/
theorem toNat_not_reduced (h : Reduced acc) : (~~~ acc).toUInt16.toNat = 65535 - acc.toNat := by
  obtain ⟨h0, h1⟩ := h
  have hsize : UInt32.size = 2 ^ 32 := rfl
  rw [UInt32.toNat_toUInt16, UInt32.toNat_not]
  omega

/-- `ip_checksum` as a number. -/
theorem toNat_ipChecksum (b : Buf) (n : ℕ) :
    (ipChecksum b n).toNat = 65535 - (csumBytes 0xffff b n).toNat :=
  toNat_not_reduced (csumBytes_reduced reduced_init b n)

/-- **A changed byte changes the checksum** of an even number of bytes. -/
theorem ipChecksum_ne {n k : ℕ} (hn : n % 2 = 0) (hk : k < n) (heq : ∀ i, i ≠ k → b' i = b i)
    (h0 : b k = 0) (h1 : b' k = 1) : ipChecksum b n ≠ ipChecksum b' n := by
  obtain ⟨d, hd0, hd, hword⟩ := rd16_bump heq h0 h1
  have hother : ∀ i, i ≠ k / 2 → rd16 b' (2 * i) = rd16 b (2 * i) := by
    intro i hi
    unfold rd16
    rw [heq (2 * i) (by omega), heq (2 * i + 1) (by omega)]
  have hahead := csumBytes_ahead (n := n) reduced_init hd hother hword (by omega) (by omega)
  obtain ⟨h2, h3⟩ := csumBytes_reduced reduced_init b n
  obtain ⟨h4, h5⟩ := csumBytes_reduced reduced_init b' n
  intro he
  have he := congrArg UInt16.toNat he
  rw [toNat_ipChecksum, toNat_ipChecksum] at he
  unfold Ahead at hahead
  omega

/-! ### A string that verifies -/

section

variable {n o : ℕ}

theorem rd16_put_self (b : Buf) (o : ℕ) (x : UInt16) : rd16 (put b o (le16 x)) o = x := rd16_put [] []

/-- A store into one word leaves the others alone. -/
theorem rd16_put_other (b : Buf) (x : UInt16) (ho : o % 2 = 0) :
    ∀ i, i ≠ o / 2 → rd16 (put b o (le16 x)) (2 * i) = rd16 b (2 * i) := by
  intro i hi
  unfold rd16
  rw [put_outside (by simp; omega), put_outside (by simp; omega)]

theorem put_last (b : Buf) (x : UInt16) (ho : o % 2 = 0) (hn : o + 2 ≤ n) :
    n % 2 = 1 → put b o (le16 x) (n - 1) = b (n - 1) := fun hodd =>
  put_outside (Or.inr (by simp; omega))

/-- With the checksum of the rest in its place the words add up to 65535. -/
theorem not_csumBytes_put (h : Reduced acc) (ho : o % 2 = 0) (hn : o + 2 ≤ n) (h0 : b o = 0)
    (h1 : b (o + 1) = 0) :
    (~~~ csumBytes acc (put b o (le16 (~~~ csumBytes acc b n).toUInt16)) n).toUInt16 = 0 := by
  have hnat := toNat_not_reduced (csumBytes_reduced h b n)
  set csum := (~~~ csumBytes acc b n).toUInt16 with hcsum
  obtain ⟨h2, h3⟩ := csumBytes_reduced h b n
  have hhalf : 2 * (o / 2) = o := by omega
  have hword : (rd16 (put b o (le16 csum)) (2 * (o / 2))).toNat =
      (rd16 b (2 * (o / 2))).toNat + csum.toNat := by
    have hold : rd16 b o = 0 := by
      unfold rd16
      rw [h0, h1]
      rfl
    rw [hhalf, hold, rd16_put_self, UInt16.toNat_zero, Nat.zero_add]
  have hahead := csumBytes_ahead h (by omega) (rd16_put_other b csum ho) hword (by omega)
    (put_last b csum ho hn)
  have hred := csumBytes_reduced h (put b o (le16 csum)) n
  refine UInt16.toNat_inj.mp ?_
  rw [toNat_not_reduced hred]
  obtain ⟨h4, h5⟩ := hred
  unfold Ahead at hahead
  show _ = 0
  omega

theorem ipChecksum_put (ho : o % 2 = 0) (hn : o + 2 ≤ n) (h0 : b o = 0) (h1 : b (o + 1) = 0) :
    ipChecksum (put b o (le16 (ipChecksum b n))) n = 0 :=
  not_csumBytes_put reduced_init ho hn h0 h1

/-- A message verifies once the sum over a zeroed field is stored there. -/
theorem ipChecksum_fill (b : Buf) {n o : ℕ} (ho : o % 2 = 0) (hn : o + 2 ≤ n) :
    ipChecksum (put (put b o (le16 0)) o (le16 (ipChecksum (put b o (le16 0)) n))) n = 0 := by
  have hzero : ∀ i < 2, put b o (le16 0) (o + i) = 0 := by
    intro i hi
    rw [put_of_lt (by simpa using hi)]
    interval_cases i
    · rfl
    · rfl
  exact ipChecksum_put ho hn (hzero 0 (by decide)) (hzero 1 (by decide))

/-- Of the two forms of zero, `ip_checksum` returns one. -/
theorem ipChecksum_ne_max (b : Buf) (n : ℕ) : ipChecksum b n ≠ 0xffff := by
  intro heq
  have hnat := toNat_ipChecksum b n
  have hmax : (0xffff : UInt16).toNat = 65535 := rfl
  rw [heq, hmax] at hnat
  obtain ⟨h0, h1⟩ := csumBytes_reduced reduced_init b n
  omega

theorem shift_zero (b : Buf) : shift b 0 = b := by
  funext i
  unfold shift
  rw [Nat.zero_add]

/-- **The header that `ip_hton` writes verifies.** -/
theorem ipHton_verifies (b : Buf) (o : ℕ) {host : IpHdr} (h20 : 20 ≤ ipHdrHlen host) :
    ipChecksum (shift (ipHton b o host) o) (ipHdrHlen host) = 0 := by
  unfold ipHton
  dsimp only
  set c := shift (put b o { ipNtoh host with ipCsum := 0 }.bytes) o with hc
  have hzero : ∀ k, k = 10 ∨ k = 11 → c k = 0 := by
    intro k hk
    have hget := put_of_lt (b := b) (o := o) (l := { ipNtoh host with ipCsum := 0 }.bytes) (i := k)
      (by rw [IpHdr.length_bytes]; omega)
    rw [hc]
    unfold shift
    rw [hget]
    rcases hk with rfl | rfl
    · rfl
    · show UInt8.ofNat ((0 : UInt16).toNat / 256) = 0
      decide
  rw [shift_put_add]
  exact ipChecksum_put (by decide) (by omega) (hzero 10 (by omega)) (hzero 11 (by omega))

theorem shift_ipHton (b : Buf) (o : ℕ) (host : IpHdr) :
    shift (ipHton b o host) o = ipHton (shift b o) 0 host := by
  unfold ipHton
  dsimp only
  rw [shift_put_add, shift_put, shift_zero, Nat.zero_add]

/-- Two messages that verify and differ in one word, with no 65535 there, are the same. -/
theorem word_le_of_verify {j : ℕ} (heq : ∀ i, i ≠ j → rd16 b' (2 * i) = rd16 b (2 * i))
    (hlast : n % 2 = 1 → b' (n - 1) = b (n - 1)) (hn : 2 * j + 2 ≤ n) (h : ipChecksum b n = 0)
    (h' : ipChecksum b' n = 0) (hw : rd16 b' (2 * j) ≠ 0xffff) :
    rd16 b' (2 * j) ≤ rd16 b (2 * j) := by
  have hmax : (rd16 b' (2 * j)).toNat ≠ 65535 := fun hc => hw (UInt16.toNat_inj.mp hc)
  have hlt := (rd16 b' (2 * j)).toNat_lt
  have hsum : ∀ c : Buf, ipChecksum c n = 0 → (csumBytes 0xffff c n).toNat = 65535 := by
    intro c hc
    have hnat := toNat_ipChecksum c n
    obtain ⟨-, hred⟩ := csumBytes_reduced reduced_init c n
    rw [hc, UInt16.toNat_zero] at hnat
    omega
  by_contra hnle
  have hgt := UInt16.lt_iff_toNat_lt.mp (UInt16.not_le.mp hnle)
  have hahead := csumBytes_ahead reduced_init
    (show (rd16 b' (2 * j)).toNat - (rd16 b (2 * j)).toNat < 65535 by omega) heq (by omega) hn hlast
  unfold Ahead at hahead
  rw [hsum b h, hsum b' h'] at hahead
  omega

/-- **A message that verifies has no other checksum,** but for the two forms of zero. -/
theorem csum_unique {csum : UInt16} (ho : o % 2 = 0) (hn : o + 2 ≤ n) (h : ipChecksum b n = 0)
    (h' : ipChecksum (put b o (le16 csum)) n = 0) (hw : rd16 b o ≠ 0xffff) (hw' : csum ≠ 0xffff) :
    csum = rd16 b o := by
  have hhalf : 2 * (o / 2) = o := by omega
  have hother := rd16_put_other b csum ho
  have hlast := put_last b csum ho hn
  have hself := rd16_put_self b o csum
  have hle := word_le_of_verify hother hlast (by omega) h h' (by rw [hhalf, hself]; exact hw')
  have hge := word_le_of_verify (fun i hi => (hother i hi).symm) (fun hodd => (hlast hodd).symm)
    (by omega) h' h (by rw [hhalf]; exact hw)
  rw [hhalf, hself] at hle hge
  exact UInt16.le_antisymm hle hge

end

/-! ### The Internet checksum -/

/-- The sum of two words with the carry added at the other end. -/
def onesAdd (x y : ℕ) : ℕ := if 65535 < x + y then x + y - 65535 else x + y

/-- The words of a string in network order; an odd string is padded with a zero byte. -/
def beWords : List UInt8 → List ℕ
  | [] => []
  | [x] => [256 * x.toNat]
  | x :: y :: data => (256 * x.toNat + y.toNat) :: beWords data

/-- **The one's-complement sum of a string.** -/
def onesSum (data : List UInt8) : ℕ := (beWords data).foldl onesAdd 0

theorem beWords_append {data : List UInt8} (rest : List UInt8) (h : data.length % 2 = 0) :
    beWords (data ++ rest) = beWords data ++ beWords rest := by
  induction data using beWords.induct with
  | case1 => rfl
  | case2 x => simp at h
  | case3 x y data ih =>
    have hdata : data.length % 2 = 0 := by
      rw [List.length_cons, List.length_cons] at h
      omega
    show _ :: beWords (data ++ rest) = _ :: (beWords data ++ beWords rest)
    rw [ih hdata]

theorem beWords_le (data : List UInt8) : ∀ x ∈ beWords data, x ≤ 65535 := by
  induction data using beWords.induct with
  | case1 => simp [beWords]
  | case2 x =>
    have hx := x.toNat_lt
    simp only [beWords, List.mem_singleton, forall_eq]
    omega
  | case3 x y data ih =>
    have hx := x.toNat_lt
    have hy := y.toNat_lt
    rintro z hz
    rcases List.mem_cons.mp hz with rfl | hz
    · omega
    · exact ih z hz

/-- The sum is one modulo 65535, and fits into a word. -/
theorem foldl_onesAdd (l : List ℕ) {x : ℕ} (hx : x ≤ 65535) (hl : ∀ y ∈ l, y ≤ 65535) :
    l.foldl onesAdd x ≤ 65535 ∧ l.foldl onesAdd x ≡ x + l.sum [MOD 65535] := by
  induction l generalizing x with
  | nil => exact ⟨hx, Nat.ModEq.refl x⟩
  | cons y l ih =>
    have hy := hl y List.mem_cons_self
    have hadd : onesAdd x y ≤ 65535 ∧ onesAdd x y ≡ x + y [MOD 65535] := by
      unfold onesAdd Nat.ModEq
      split_ifs
      · omega
      · omega
    obtain ⟨hle, hmod⟩ := ih hadd.1 fun z hz => hl z (List.mem_cons_of_mem y hz)
    refine ⟨hle, hmod.trans ?_⟩
    rw [List.sum_cons, ← Nat.add_assoc]
    exact hadd.2.add_right _

theorem onesSum_spec (data : List UInt8) :
    onesSum data ≤ 65535 ∧ onesSum data ≡ (beWords data).sum [MOD 65535] := by
  have h := foldl_onesAdd (beWords data) (Nat.zero_le 65535) (beWords_le data)
  rwa [Nat.zero_add] at h

theorem csumAdd_modEq (h : Reduced acc) (w : UInt16) :
    (csumAdd acc w).toNat ≡ acc.toNat + w.toNat [MOD 65535] := by
  obtain ⟨-, h | h⟩ := csumAdd_spec h w
  · rw [h]
  · unfold Nat.ModEq
    omega

/-- The loop adds the words in the other order of bytes. -/
theorem csumWords_modEq (b : Buf) (k : ℕ) :
    256 * (csumWords 0xffff b k).toNat ≡ (beWords (slice b (2 * k))).sum [MOD 65535] := by
  induction k with
  | zero => exact (by decide : 256 * (0xffff : UInt32).toNat ≡ 0 [MOD 65535])
  | succ k ih =>
    have hx := (b (2 * k)).toNat_lt
    have hy := (b (2 * k + 1)).toNat_lt
    have hword : 256 * (rd16 b (2 * k)).toNat ≡
        256 * (b (2 * k)).toNat + (b (2 * k + 1)).toNat [MOD 65535] := by
      rw [rd16, UInt16.toNat_ofNat', Nat.mod_eq_of_lt (by omega)]
      unfold Nat.ModEq
      omega
    have hslice : beWords (slice b (2 * (k + 1))) = beWords (slice b (2 * k)) ++
        [256 * (b (2 * k)).toNat + (b (2 * k + 1)).toNat] := by
      rw [Nat.mul_succ, slice_add, beWords_append _ (by rw [slice_length]; omega)]
      rfl
    rw [csumWords_succ, hslice, List.sum_append, List.sum_singleton]
    have hadd := (csumAdd_modEq (csumWords_reduced reduced_init b k) (rd16 b (2 * k))).mul_left 256
    rw [Nat.mul_add] at hadd
    exact hadd.trans (ih.add hword)

theorem csumBytes_modEq (b : Buf) (n : ℕ) :
    256 * (csumBytes 0xffff b n).toNat ≡ (beWords (slice b n)).sum [MOD 65535] := by
  have hwords := csumWords_modEq b (n / 2)
  unfold csumBytes
  dsimp only
  split_ifs with hodd
  · have hn : n = 2 * (n / 2) + 1 := by omega
    have hslice : beWords (slice b n) = beWords (slice b (2 * (n / 2))) ++
        [256 * (b (n - 1)).toNat] := by
      have hlast : n - 1 = 2 * (n / 2) := by omega
      rw [hlast]
      conv_lhs => rw [hn]
      rw [slice_add, beWords_append _ (by rw [slice_length]; omega)]
      rfl
    rw [hslice, List.sum_append, List.sum_singleton]
    have hadd := (csumAdd_modEq (csumWords_reduced reduced_init b (n / 2))
      (b (n - 1)).toUInt16).mul_left 256
    rw [Nat.mul_add, UInt8.toNat_toUInt16] at hadd
    exact hadd.trans (hwords.add_right _)
  · rwa [show 2 * (n / 2) = n by omega] at hwords

theorem swap16_modEq (x : UInt16) : (swap16 x).toNat ≡ 256 * x.toNat [MOD 65535] := by
  rw [toNat_swap16]
  unfold Nat.ModEq
  omega

/-- The two bytes of the result, in network order, are the complement of the sum. -/
theorem ipChecksum_modEq (b : Buf) (n : ℕ) :
    (swap16 (ipChecksum b n)).toNat ≡ 65535 - onesSum (slice b n) [MOD 65535] := by
  obtain ⟨h0, h1⟩ := csumBytes_reduced reduced_init b n
  obtain ⟨hle, hsum⟩ := onesSum_spec (slice b n)
  have hacc : 256 * (csumBytes 0xffff b n).toNat ≡ onesSum (slice b n) [MOD 65535] :=
    (csumBytes_modEq b n).trans hsum.symm
  have hswap := swap16_modEq (ipChecksum b n)
  rw [toNat_ipChecksum] at hswap
  refine Nat.ModEq.add_right_cancel' (onesSum (slice b n)) ?_
  calc (swap16 (ipChecksum b n)).toNat + onesSum (slice b n)
      ≡ 256 * (65535 - (csumBytes 0xffff b n).toNat) + 256 * (csumBytes 0xffff b n).toNat [MOD 65535] :=
        hswap.add hacc.symm
    _ ≡ 65535 - onesSum (slice b n) + onesSum (slice b n) [MOD 65535] := by
        unfold Nat.ModEq
        omega

/-- **`ip_checksum` is the Internet checksum and verifies itself.** -/
theorem internet_checksum (b : Buf) (n : ℕ) :
    (swap16 (ipChecksum b n)).toNat ≡ 65535 - onesSum (slice b n) [MOD 65535] ∧
    (∀ k ≤ n / 2, Reduced (csumWords 0xffff b k)) ∧ Reduced (csumBytes 0xffff b n) ∧
    ipChecksum b n ≠ 0xffff ∧
    (∀ o, o % 2 = 0 → o + 2 ≤ n →
      ipChecksum (put (put b o (le16 0)) o (le16 (ipChecksum (put b o (le16 0)) n))) n = 0) ∧
    (∀ o host, 20 ≤ ipHdrHlen host →
      ipChecksum (shift (ipHton b o host) o) (ipHdrHlen host) = 0) := by
  refine ⟨ipChecksum_modEq b n, fun k _ => csumWords_reduced reduced_init b k,
    csumBytes_reduced reduced_init b n, ipChecksum_ne_max b n, ?_, ?_⟩
  · intro o ho hn
    exact ipChecksum_fill b ho hn
  · intro o host h20
    exact ipHton_verifies b o h20

end Xstack.Ip.Checksum
