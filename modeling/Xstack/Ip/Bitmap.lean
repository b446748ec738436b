import Xstack.Ip.Order

/-! # What the bitmap claims is in the buffer

A payload arrives in genuine fragments, in any order, some of them twice and overlapping, in a buffer
whose bitmap was clear. At every completion test the bytes of a block whose bit is set are in the
buffer, no bit behind the payload is set, and when the test succeeds the whole payload is there.

* `Genuine`: a fragment of the payload. `Start`: the buffer that the datagram has, or gets.
* `tests`: the calls of `ip_fragment_input` up to the one that completes.
* `Holds`: the invariant of the buffer. `Holds.put1`: a genuine fragment keeps it. -/

namespace Xstack.Ip.Bitmap

open Xstack.Config Xstack.Lib.Bytes Xstack.Lib.Lex Xstack.Ip.Header Xstack.Ip.Fragment
open Xstack.Ip.Feed Xstack.Ip.Order

/-- **A genuine fragment** of the payload `data` of the datagram `key`: a slice, with `IP_FLAGS_MF` iff
it does not end where the payload does, and then of whole blocks. -/
structure Genuine (data : List UInt8) (key : IpHdr) (f : Pkt) : Prop where
  key : SameKey f.hdr key
  hlen : ipHdrHlen f.hdr ≤ f.hdr.ipLen.toNat
  inside : fragOff f.hdr + fragSize f.hdr ≤ data.length
  more : moreFragments f.hdr = true ↔ fragOff f.hdr + fragSize f.hdr ≠ data.length
  blocks : moreFragments f.hdr = true → 8 ∣ fragSize f.hdr
  bytes : ∀ k < fragSize f.hdr, f.rx k = data.getD (fragOff f.hdr + k) 0

/-- The buffer of the datagram, with a clear bitmap: it is linked, with nothing noted yet, or
`get_packet_buffer` is going to reserve it. -/
def Start (pool : Pool) (key : IpHdr) (i : Fin 4) : Prop :=
  ((pool.buf i).reserved = true ∧ SameKey (pool.buf i).ipHdr key ∧ (pool.buf i).ipHdr.ipLen = 0 ∧
    Clear (pool.buf i).fragmap) ∨
  ((∀ j, (pool.buf j).reserved = true → ¬ SameKey (pool.buf j).ipHdr key) ∧
    pool.firstFree = some i ∧ Clear (fragmapInit (pool.buf i).fragmap))

/-- The calls of `ip_fragment_input` up to the one that completes, each with the pool at its test. -/
def tests (mc : Memcmp) : Pool → List Pkt → Option (List (FragOutcome × Pool))
  | _, [] => some []
  | pool, f :: fs => do
    match ← ipFragmentStore mc pool f.hdr f.rx with
    | (.complete i, pool) => return [(.complete i, pool)]
    | (outcome, pool) => return (outcome, pool) :: (← tests mc pool fs)

/-- The bytes of block `b` are those of the payload. -/
def HasBlock (data : List UInt8) (p : PacketBuf) (b : ℕ) : Prop :=
  ∀ x, 8 * b ≤ x → x < min (8 * b + 8) data.length → p.payload x = data.getD x 0

/-- **What is true at a completion test** of buffer `i`. -/
structure AtTest (data : List UInt8) (i : Fin 4) (outcome : FragOutcome) (p : PacketBuf) : Prop where
  set : ∀ b < fragMax, fragmapTst p.fragmap b = true → b < (data.length + 7) / 8 ∧ HasBlock data p b
  decided : outcome = if p.complete then .complete i else .stored
  complete : outcome = .complete i →
    p.ipHdr.ipLen.toNat = data.length ∧ slice p.payload data.length = data

variable {mc : Memcmp} {pool : Pool} {l : List (Fin 4)} {i : Fin 4} {f : Pkt} {p : PacketBuf}
  {fs : List Pkt} {data : List UInt8} {key : IpHdr} {b x : ℕ}

/-! ### One buffer -/

/-- **The invariant of the buffer.** -/
structure Holds (data : List UInt8) (p : PacketBuf) : Prop where
  set : ∀ b < fragMax, fragmapTst p.fragmap b = true → b < (data.length + 7) / 8 ∧ HasBlock data p b
  len : p.ipHdr.ipLen = 0 ∨ p.ipHdr.ipLen.toNat = data.length

theorem holds_clear (hlen : p.ipHdr.ipLen = 0) (hc : Clear p.fragmap) : Holds data p := by
  refine ⟨fun b hb h => ?_, Or.inl hlen⟩
  rw [hc b hb] at h
  cases h

theorem Genuine.fits (h : Genuine data key f) (hdata : data.length ≤ 65535) : Fits f.hdr :=
  ⟨h.hlen, h.inside.trans hdata⟩

theorem Genuine.off (f : Pkt) : fragOff f.hdr % 8 = 0 := by
  rw [fragOff_eq]
  omega

/-- The bits of a fragment: its blocks, and all of their bytes that the payload has. -/
theorem Genuine.block (h : Genuine data key f) (h0 : fragOff f.hdr / 8 ≤ b)
    (h1 : b < fragOff f.hdr / 8 + (fragSize f.hdr + 7) / 8) : b < (data.length + 7) / 8 ∧
      ∀ x, 8 * b ≤ x → x < min (8 * b + 8) data.length →
        fragOff f.hdr ≤ x ∧ x < fragOff f.hdr + fragSize f.hdr := by
  have hoff := Genuine.off f
  have hin := h.inside
  refine ⟨by omega, fun x hx hlt => ⟨by omega, ?_⟩⟩
  by_cases hm : moreFragments f.hdr = true
  · obtain ⟨k, hk⟩ := h.blocks hm
    omega
  · have hend : fragOff f.hdr + fragSize f.hdr = data.length := by
      by_contra hne
      exact hm (h.more.mpr hne)
    omega

/-- A byte that is right stays right. -/
theorem Genuine.keeps (h : Genuine data key f) (hx : p.payload x = data.getD x 0) :
    (put1 p f).payload x = data.getD x 0 := by
  rw [put1_payload]
  by_cases hin : fragOff f.hdr ≤ x ∧ x < fragOff f.hdr + fragSize f.hdr
  · obtain ⟨k, rfl⟩ := Nat.exists_eq_add_of_le hin.1
    rw [copy_inside (by omega)]
    exact h.bytes k (by omega)
  · rw [copy_outside (by omega)]
    exact hx

theorem Genuine.writes (h : Genuine data key f) (h0 : fragOff f.hdr ≤ x)
    (h1 : x < fragOff f.hdr + fragSize f.hdr) : (put1 p f).payload x = data.getD x 0 := by
  obtain ⟨k, rfl⟩ := Nat.exists_eq_add_of_le h0
  rw [put1_payload, copy_inside (by omega)]
  exact h.bytes k (by omega)

/-- The length that a fragment leaves. -/
theorem Genuine.noteLen (h : Genuine data key f) (hdata : data.length ≤ 65535) {len : UInt16}
    (hl : len = 0 ∨ len.toNat = data.length) :
    noteLen len f = 0 ∨ (noteLen len f).toNat = data.length := by
  unfold Feed.noteLen
  split_ifs with h0 hm
  · exact Or.inl rfl
  · right
    have hend : fragOff f.hdr + fragSize f.hdr = data.length := by
      by_contra hne
      have hmore := h.more.mpr hne
      simp [hmore] at hm
    rw [UInt16.toNat_ofNat', Nat.mod_eq_of_lt (by omega)]
    omega
  · exact hl

/-- **A genuine fragment keeps the invariant.** -/
theorem Holds.put1 (hp : Holds data p) (h : Genuine data key f) (hdata : data.length ≤ 65535) :
    Holds data (put1 p f) := by
  refine ⟨fun b hb hset => ?_, ?_⟩
  · rw [put1_fragmap, tst_setRange, shiftRight_three, shiftRight_three, Bool.or_eq_true, decide_eq_true_iff] at hset
    rcases hset with ⟨h0, h1⟩ | hold
    · obtain ⟨hlt, hbytes⟩ := h.block h0 h1
      refine ⟨hlt, fun x hx hlt' => ?_⟩
      obtain ⟨h2, h3⟩ := hbytes x hx hlt'
      exact h.writes h2 h3
    · obtain ⟨hlt, hbytes⟩ := hp.set b hb hold
      exact ⟨hlt, fun x hx hlt' => h.keeps (hbytes x hx hlt')⟩
  · rw [put1_len]
    exact h.noteLen hdata hp.len

/-- A test that succeeds: every block of the payload is there. -/
theorem Holds.complete (hp : Holds data p) (hdata : data.length ≤ 65535) (hc : p.complete = true) :
    p.ipHdr.ipLen.toNat = data.length ∧ slice p.payload data.length = data := by
  simp only [PacketBuf.complete, shiftRight_three, Bool.and_eq_true, bne_iff_ne,
    List.all_eq_true, List.mem_range] at hc
  obtain ⟨hne, hall⟩ := hc
  have hlen := hp.len.resolve_left hne
  refine ⟨hlen, List.ext_getElem (slice_length _ _) fun x hx hx' => ?_⟩
  have hmax : fragMax = 8192 := rfl
  obtain ⟨-, hblock⟩ := hp.set (x / 8) (by omega) (hall (x / 8) (by omega))
  have hbyte := hblock x (by omega) (by omega)
  rw [List.getD_eq_getElem _ _ hx'] at hbyte
  simpa [slice] using hbyte

theorem Holds.atTest (hp : Holds data p) (hdata : data.length ≤ 65535) :
    AtTest data i (if p.complete then .complete i else .stored) p := by
  refine ⟨hp.set, rfl, fun h => hp.complete hdata ?_⟩
  by_contra hc
  rw [if_neg hc] at h
  cases h

/-! ### The sequence -/

theorem tests_linked (hdata : data.length ≤ 65535) (hI : pool.Inv l) (hi : i ∈ l)
    (hkey : SameKey (pool.buf i).ipHdr key) (hp : Holds data (pool.buf i))
    (hfs : ∀ f ∈ fs, Genuine data key f) : ∃ ts, tests mc pool fs = some ts ∧
      ∀ t ∈ ts, AtTest data i t.1 (t.2.buf i) := by
  induction fs generalizing pool with
  | nil => exact ⟨[], rfl, fun t ht => absurd ht List.not_mem_nil⟩
  | cons f fs ih =>
    have hf := hfs f List.mem_cons_self
    have hsame := hf.key.trans hkey.symm
    have hp' := hp.put1 hf hdata
    have hat : AtTest data i (if (put1 (pool.buf i) f).complete then .complete i else .stored)
        ((pool.set i (put1 (pool.buf i) f)).buf i) := by
      rw [set_self]
      exact hp'.atTest hdata
    rw [tests, ipFragmentStore_linked mc hI hi hsame (hf.fits hdata)]
    by_cases hc : (put1 (pool.buf i) f).complete = true
    · rw [if_pos hc] at hat ⊢
      exact ⟨_, rfl, fun t ht => by rw [List.mem_singleton.mp ht]; exact hat⟩
    · rw [if_neg hc] at hat ⊢
      have hnext : SameKey ((pool.set i (put1 (pool.buf i) f)).buf i).ipHdr key := by
        rw [set_self]
        exact (put1_key hsame).trans hkey
      obtain ⟨ts, hts, hall⟩ := ih (hI.set put1_reserved (put1_key hsame)) hnext
        (by rwa [set_self]) fun g hg => hfs g (List.mem_cons_of_mem f hg)
      refine ⟨(.stored, pool.set i (put1 (pool.buf i) f)) :: ts, ?_, ?_⟩
      · show (tests mc (pool.set i (Feed.put1 (pool.buf i) f)) fs).bind _ = _
        rw [hts]
        rfl
      · intro t ht
        rcases List.mem_cons.mp ht with rfl | ht
        · exact hat
        · exact hall t ht

/-- **What the bitmap claims is in the buffer:** genuine fragments of a payload, in any order and with
any repetitions, are all stored up to the one that completes, and at the test of each of them every set
bit stands for bytes of the payload, no bit behind its end is set, and when the test succeeds the
recorded length and the bytes are those of the payload. -/
theorem claimed_is_there (mc : Memcmp) {data : List UInt8} (hdata : data.length ≤ 65535) {pool : Pool}
    {l : List (Fin 4)} (hI : pool.Inv l) {key : IpHdr} {i : Fin 4} (hstart : Start pool key i)
    {fs : List Pkt} (hfs : ∀ f ∈ fs, Genuine data key f) :
    ∃ ts, tests mc pool fs = some ts ∧ ∀ t ∈ ts, AtTest data i t.1 (t.2.buf i) := by
  rcases hstart with ⟨hres, hkey, hlen, hclear⟩ | ⟨hnew, hfree, hclear⟩
  · exact tests_linked hdata hI ((hI.reserved i).mpr hres) hkey (holds_clear hlen hclear) hfs
  · obtain _ | ⟨f, fs⟩ := fs
    · exact ⟨[], rfl, fun t ht => absurd ht List.not_mem_nil⟩
    · have hf := (hfs f List.mem_cons_self).key
      obtain ⟨pool', l', h1, h2, h3, -, h5⟩ := ipFragmentStore_reserve mc hI
        (fun j hj hk => hnew j ((hI.reserved j).mp hj) (hk.symm.trans hf)) hfree
      have hbuf : pool'.buf i = (pool.buf i).reserve f.hdr := by rw [h5, Function.update_self]
      have hkey : SameKey (pool'.buf i).ipHdr key := by
        rw [hbuf]
        exact SameKey.trans ⟨rfl, rfl, rfl, rfl⟩ hf
      have heq : tests mc pool (f :: fs) = tests mc pool' (f :: fs) := by
        rw [tests, tests, h1]
      rw [heq]
      refine tests_linked hdata h2 h3 hkey ?_ hfs
      rw [hbuf]
      exact holds_clear rfl hclear

/-- Nine bytes in two fragments. -/
theorem claimed_is_there_two : ∃ ts, tests .ofSign Pool.init [headPkt, tailPkt] = some ts ∧
    ∀ t ∈ ts, AtTest [1, 2, 3, 4, 5, 6, 7, 8, 9] 0 t.1 (t.2.buf 0) := by
  have hstart : Start Pool.init headPkt.hdr 0 := by
    refine Or.inr ⟨fun j hj => ?_, rfl, fun b hb => ?_⟩
    · cases hj
    · rw [tst_init, clear_init 0 b hb, Bool.and_false]
  refine claimed_is_there .ofSign (by decide) inv_init hstart fun f hf => ?_
  rcases List.mem_cons.mp hf with rfl | hf
  · constructor <;> decide +kernel
  · obtain rfl := List.mem_singleton.mp hf
    constructor <;> decide +kernel

end Xstack.Ip.Bitmap
