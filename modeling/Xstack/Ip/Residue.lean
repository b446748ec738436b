import Xstack.Ip.Feed

/-! # What earlier datagrams leave behind

A packet buffer is reused without being cleared: `fragmap_init` clears the first 2048 bits only, and
the payload keeps its bytes. `noResidue_iff`: the outcome of a list of fragments is the same after
all histories iff, when the bits below 2048 say that the datagram is complete for the first time,
its fragments have written every byte of it (and every fragment up to there fits the payload).

* `Due`, `dueAt`: the test as the cleared bits alone decide it.
* `due_of_complete`: no buffer completes earlier; `complete_of_due`: one with all bits set does then.
* `fillOps`: a history that leaves all bits set, and 0xff in every byte. -/

namespace Xstack.Ip.Residue

open Xstack.Config Xstack.Lib.Bytes Xstack.Lib.Lex Xstack.Ip.Header Xstack.Ip.Fragment
open Xstack.Ip.Feed

instance (fs : List Pkt) (b : ℕ) : Decidable (BlockCov fs b) := by unfold BlockCov; infer_instance

instance (fs : List Pkt) (x : ℕ) : Decidable (ByteCov fs x) := by unfold ByteCov; infer_instance

/-- A length is recorded, and of the bits below it those that `fragmap_init` has cleared are set
again. -/
def Due (fs : List Pkt) : Prop :=
  recLen fs ≠ 0 ∧ ∀ b < min (((recLen fs).toNat + 7) / 8) 2048, BlockCov fs b

instance (fs : List Pkt) : Decidable (Due fs) := by unfold Due; infer_instance

/-- The index of the first fragment with which this is so. -/
def dueAt (fs : List Pkt) : Option ℕ :=
  (List.range fs.length).find? fun k => decide (Due (fs.take (k + 1)))

/-- Every byte below the recorded length has been written. -/
def Written (fs : List Pkt) : Prop := ∀ x < (recLen fs).toNat, ByteCov fs x

/-- **The condition:** up to the point where the cleared bits are set again the fragments fit, and
at that point they have written the whole datagram. -/
def Clean (fs : List Pkt) : Prop :=
  match dueAt fs with
  | none => ∀ f ∈ fs, Fits f.hdr
  | some k => (∀ f ∈ fs.take (k + 1), Fits f.hdr) ∧ Written (fs.take (k + 1))

/-- A history after which a buffer is free and none holds the datagram `key`. -/
def Fresh (mc : Memcmp) (key : IpHdr) (ops : List FragOp) (pool : Pool) : Prop :=
  run mc Pool.init ops = some pool ∧ pool.firstFree ≠ none ∧
    ∀ j, (pool.buf j).reserved = true → ¬ SameKey key (pool.buf j).ipHdr

/-- **Nothing from earlier datagrams:** after any two histories the fragments have the same
outcome. -/
def NoResidue (mc : Memcmp) (key : IpHdr) (fs : List Pkt) : Prop :=
  ∀ ops ops' pool pool', Fresh mc key ops pool → Fresh mc key ops' pool' →
    ∃ o, feed mc pool fs = some o ∧ feed mc pool' fs = some o

variable {mc : Memcmp} {key : IpHdr} {fs : List Pkt} {p q : PacketBuf} {h h' : IpHdr} {pool : Pool}

/-! ### The test in a reused buffer -/

theorem reserve_tst (b : ℕ) : fragmapTst (p.reserve h).fragmap b =
    (decide (2048 ≤ b) && fragmapTst p.fragmap b) := tst_init _ _

theorem due_of_complete (hc : (stored (p.reserve h) fs).complete = true) : Due fs := by
  obtain ⟨h1, h2⟩ := (complete_stored rfl).mp hc
  refine ⟨h1, fun b hb => ?_⟩
  refine (h2 b (by omega)).resolve_right ?_
  rw [reserve_tst, decide_eq_false (by omega), Bool.false_and]
  exact Bool.false_ne_true

/-- All bits are set. -/
def Full (p : PacketBuf) : Prop := ∀ b < fragMax, fragmapTst p.fragmap b = true

theorem complete_of_due (hp : Full p) (hd : Due fs) : (stored (p.reserve h) fs).complete = true := by
  obtain ⟨h1, h2⟩ := hd
  refine (complete_stored rfl).mpr ⟨h1, fun b hb => ?_⟩
  by_cases hb' : b < 2048
  · exact Or.inl (h2 b (by omega))
  · have hlt := (recLen fs).toNat_lt
    have hmax : b < fragMax := by unfold fragMax; omega
    right
    rw [reserve_tst, hp b hmax, decide_eq_true (by omega), Bool.true_and]

theorem complete_of_written (h0 : recLen fs ≠ 0) (hw : Written fs) :
    (stored (p.reserve h) fs).complete = true := by
  refine (complete_stored rfl).mpr ⟨h0, fun b hb => Or.inl ?_⟩
  obtain ⟨f, hf, h1, h2⟩ := hw (8 * b) (by omega)
  have ho := fragOff_eq f.hdr
  exact ⟨f, hf, by omega, by omega⟩

/-- What is written is read back, whatever was in the buffer. -/
theorem content_of_written (hw : Written fs) : PacketBuf.content (stored (p.reserve h) fs) =
    PacketBuf.content (stored (q.reserve h') fs) := by
  have hl : (stored (p.reserve h) fs).ipHdr.ipLen = recLen fs := len_stored rfl
  have hl' : (stored (q.reserve h') fs).ipHdr.ipLen = recLen fs := len_stored rfl
  unfold PacketBuf.content
  rw [hl, hl']
  exact Agree.slice fun x hx => payload_covered (Or.inl (hw x hx))

theorem dueAt_some {k : ℕ} (hk : dueAt fs = some k) :
    k < fs.length ∧ Due (fs.take (k + 1)) ∧ ∀ j < k, ¬ Due (fs.take (j + 1)) := by
  obtain ⟨h1, h2, h3⟩ := List.find?_range_eq_some.mp hk
  exact ⟨List.mem_range.mp h2, of_decide_eq_true h1, fun j hj => by simpa using h3 j hj⟩

theorem dueAt_none (hk : dueAt fs = none) : ∀ j < fs.length, ¬ Due (fs.take (j + 1)) :=
  fun j hj => by simpa using List.find?_range_eq_none.mp hk j hj

/-! ### A clean sequence leaves nothing open -/

/-- The outcome of a clean sequence. -/
theorem bufFeed_clean (p q : PacketBuf) (h h' : IpHdr) (hc : Clean fs) :
    bufFeed (p.reserve h) fs = bufFeed (q.reserve h') fs ∧ bufFeed (q.reserve h') fs ≠ none := by
  unfold Clean at hc
  cases hk : dueAt fs with
  | none =>
    rw [hk] at hc
    have hn : ∀ (p : PacketBuf) (h : IpHdr), bufFeed (p.reserve h) fs = some none := fun p h =>
      bufFeed_never hc fun j hj hcomp => dueAt_none hk j hj (due_of_complete hcomp)
    rw [hn, hn]
    exact ⟨rfl, by simp⟩
  | some k =>
    rw [hk] at hc
    obtain ⟨hlt, hdue, hbefore⟩ := dueAt_some hk
    have hs : ∀ (p : PacketBuf) (h : IpHdr), bufFeed (p.reserve h) fs =
        some (some (k, PacketBuf.content (stored (p.reserve h) (fs.take (k + 1))))) := fun p h =>
      bufFeed_complete hlt hc.1 (fun j hj hcomp => hbefore j hj (due_of_complete hcomp))
        (complete_of_written hdue.1 hc.2)
    rw [hs, hs, content_of_written hc.2]
    exact ⟨rfl, by simp⟩

/-- After a fresh history the fragments go to a buffer that `get_packet_buffer` reserves. -/
theorem Fresh.feed_eq {ops : List FragOp} (hF : Fresh mc key ops pool) {f : Pkt} {gs : List Pkt}
    (hkey : ∀ g ∈ f :: gs, SameKey g.hdr key) :
    ∃ i, pool.firstFree = some i ∧
      feed mc pool (f :: gs) = bufFeed ((pool.buf i).reserve f.hdr) (f :: gs) := by
  obtain ⟨hrun, hfree, hnew⟩ := hF
  obtain ⟨l, hI⟩ := run_inv inv_init hrun
  obtain ⟨i, hi⟩ := Option.ne_none_iff_exists'.mp hfree
  have hf := hkey f List.mem_cons_self
  refine ⟨i, hi, Feed.feed_eq mc hI (fun j hj hk => ?_) hi fun g hg => ?_⟩
  · exact hnew j ((hI.reserved j).mp hj) (hf.symm.trans hk)
  · exact (hkey g (List.mem_cons_of_mem f hg)).trans hf.symm

theorem noResidue_of_clean (hkey : ∀ f ∈ fs, SameKey f.hdr key) (hc : Clean fs) :
    NoResidue mc key fs := by
  intro ops ops' pool pool' hF hF'
  cases fs with
  | nil => exact ⟨none, rfl, rfl⟩
  | cons f gs =>
    obtain ⟨i, -, hi⟩ := hF.feed_eq hkey
    obtain ⟨j, -, hj⟩ := hF'.feed_eq hkey
    obtain ⟨h1, h2⟩ := bufFeed_clean (pool.buf i) (pool'.buf j) f.hdr f.hdr hc
    obtain ⟨o, ho⟩ := Option.ne_none_iff_exists'.mp h2
    exact ⟨o, by rw [hi, h1, ho], by rw [hj, ho]⟩

/-! ### A history that fills a buffer -/

/-- Eight bytes 0xff at block `k`, seven at the last one, with `IP_FLAGS_MF`. -/
def fillPkt (k : ℕ) : Pkt where
  hdr := ⟨0x45, 0, if k = 8191 then 27 else 28, 0, UInt16.ofNat (8192 + k), 64, 0, 0, 0, 0⟩
  rx := fun _ => 0xff

/-- A fragment for every block; then the timer gives the datagram up. -/
def fillOps : List FragOp :=
  (List.range fragMax).map (fun k => .input (fillPkt k) .zero fun _ => 0) ++
    [.timer xstackIpFragmentTlb]

theorem fillPkt_foff {k : ℕ} (hk : k < fragMax) : (fillPkt k).hdr.ipFoff.toNat = 2 ^ 13 + k := by
  have hk : k < 8192 := hk
  show (UInt16.ofNat (8192 + k)).toNat = 2 ^ 13 + k
  rw [UInt16.toNat_ofNat']
  omega

theorem fillPkt_off {k : ℕ} (hk : k < fragMax) : fragOff (fillPkt k).hdr = 8 * k := by
  have hmask : (0x1fff : UInt16).toNat = 2 ^ 13 - 1 := rfl
  rw [fragOff_eq, UInt16.toNat_and, fillPkt_foff hk, hmask, Nat.and_two_pow_sub_one_eq_mod]
  have hk : k < 8192 := hk
  omega

theorem fillPkt_more {k : ℕ} (hk : k < fragMax) : moreFragments (fillPkt k).hdr = true := by
  have hbit : (2 ^ 13 + k).testBit 13 = true := by
    rw [Nat.testBit_two_pow_add_eq, Nat.testBit_lt_two_pow hk, Bool.not_false]
  have hmask : (ipFlagsMf).toNat = 2 ^ 13 := rfl
  refine bne_iff_ne.mpr fun h0 => ?_
  have h1 := congrArg UInt16.toNat h0
  rw [UInt16.toNat_and, fillPkt_foff hk, hmask, Nat.and_two_pow, hbit] at h1
  exact absurd h1 (by decide)

theorem fillPkt_hlen (k : ℕ) : ipHdrHlen (fillPkt k).hdr = 20 := by
  show ((0x45 : UInt8) &&& 0x0f).toNat * 4 = 20
  decide

theorem fillPkt_size (k : ℕ) : fragSize (fillPkt k).hdr = if k = 8191 then 7 else 8 := by
  unfold fragSize
  rw [fillPkt_hlen]
  unfold fillPkt
  split_ifs
  · rfl
  · rfl

theorem fillPkt_fits {k : ℕ} (hk : k < fragMax) : Fits (fillPkt k).hdr := by
  have hsize := fillPkt_size k
  have hk' : k < 8192 := hk
  constructor
  · have hh := fillPkt_hlen k
    unfold fragSize at hsize
    split_ifs at hsize <;> omega
  · rw [fillPkt_off hk, hsize]
    unfold ipMaxBytes
    split_ifs <;> omega

/-- Fragments with `IP_FLAGS_MF` only fill the buffer of their datagram. -/
theorem run_more (mc : Memcmp) {l : List (Fin 4)} {i : Fin 4} : ∀ (gs : List Pkt) {pool : Pool},
    pool.Inv l → i ∈ l → (pool.buf i).ipHdr.ipLen = 0 → (∀ f ∈ gs, SameKey f.hdr (pool.buf i).ipHdr) →
    (∀ f ∈ gs, Fits f.hdr) → (∀ f ∈ gs, moreFragments f.hdr = true) →
    ∃ pool', run mc pool (gs.map fun f => .input f .zero fun _ => 0) = some pool' ∧ pool'.Inv l ∧
      pool'.buf i = stored (pool.buf i) gs
  | [], pool, hI, _, _, _, _, _ => ⟨pool, rfl, hI, rfl⟩
  | f :: gs, pool, hI, hi, h0, hk, hf, hm => by
    have hkf := hk f List.mem_cons_self
    have hlen : (put1 (pool.buf i) f).ipHdr.ipLen = 0 := by
      rw [put1_len, h0, noteLen, hm f List.mem_cons_self]
      simp
    have hnc : ¬ (put1 (pool.buf i) f).complete = true := by simp [PacketBuf.complete, hlen]
    have hI' := hI.set (i := i) put1_reserved (put1_key hkf)
    have hstep : step mc pool (.input f .zero fun _ => 0) =
        some (pool.set i (put1 (pool.buf i) f)) := by
      simp [step, ipFragmentStore_linked mc hI hi hkf (hf f List.mem_cons_self), hnc]
    obtain ⟨pool', h1, h2, h3⟩ := run_more mc gs hI' hi (by rw [set_self]; exact hlen)
      (fun g hg => by
        rw [set_self]
        exact (hk g (List.mem_cons_of_mem f hg)).trans (put1_key hkf).symm)
      (fun g hg => hf g (List.mem_cons_of_mem f hg)) (fun g hg => hm g (List.mem_cons_of_mem f hg))
    refine ⟨pool', ?_, h2, ?_⟩
    · rw [List.map_cons, run, hstep]
      exact h1
    · rw [h3, set_self]
      rfl

theorem stored_timer : (stored p fs).timer = p.timer := by
  unfold stored
  induction fs generalizing p with
  | nil => rfl
  | cons f fs ih =>
    rw [List.foldl_cons, ih]
    unfold put1 PacketBuf.noteHdr
    split_ifs <;> rfl

theorem tick_skip {l : List (Fin 4)} {i : Fin 4} {d : ℤ} (hI : pool.Inv l) (hi : i ∉ l) :
    Pool.tick d pool i = some pool := by
  rw [hI.reserved, Bool.not_eq_true] at hi
  simp [Pool.tick, hi]

/-- The timer releases the first buffer if only this one is in use. -/
theorem timer_release (hI : pool.Inv [0]) {d : ℤ} (ht : (pool.buf 0).timer ≤ d) :
    ∃ pool', ipFragmentTimer pool d = some pool' ∧ pool'.Inv [] ∧
      pool'.buf 0 = { (pool.buf 0).age d with reserved := false } := by
  obtain ⟨head, h1, h2⟩ := release_spec (p := (pool.buf 0).age d) hI (List.mem_singleton_self 0)
  rw [List.erase_cons_head] at h2
  have hrel : Pool.tick d pool 0 = some { pool.set 0 { (pool.buf 0).age d with reserved := false }
      with head := head } := by
    have hr := (hI.reserved 0).mp (List.mem_singleton_self 0)
    have ht : ((pool.buf 0).age d).timer ≤ 0 := by
      show (pool.buf 0).timer - d ≤ 0
      omega
    rw [Pool.tick, if_pos hr, if_pos ht, h1]
  have hrest : ∀ js : List (Fin 4), js.foldlM (Pool.tick d)
      { pool.set 0 { (pool.buf 0).age d with reserved := false } with head := head } =
      some { pool.set 0 { (pool.buf 0).age d with reserved := false } with head := head } := by
    intro js
    induction js with
    | nil => rfl
    | cons j js ih =>
      rw [List.foldlM_cons, tick_skip h2 List.not_mem_nil]
      exact ih
  have hself : Function.update pool.buf 0 { (pool.buf 0).age d with reserved := false } 0 =
      { (pool.buf 0).age d with reserved := false } := Function.update_self _ _ _
  refine ⟨_, ?_, h2, hself⟩
  have hall : List.finRange 4 = 0 :: [1, 2, 3] := rfl
  rw [ipFragmentTimer, hall, List.foldlM_cons, hrel]
  exact hrest [1, 2, 3]

/-- Fragments of the byte 0xff leave it in every byte they write. -/
theorem payload_ff {x : ℕ} (hff : ∀ f ∈ fs, f.rx = fun _ => 0xff) (hx : ByteCov fs x) :
    (stored p fs).payload x = 0xff := by
  have hconst : ∀ (fs : List Pkt) (q : PacketBuf), (∀ f ∈ fs, f.rx = fun _ => 0xff) →
      q.payload x = 0xff → (stored q fs).payload x = 0xff := by
    intro fs
    induction fs with
    | nil => exact fun q _ hq => hq
    | cons f fs ih =>
      intro q hff hq
      refine ih (put1 q f) (fun g hg => hff g (List.mem_cons_of_mem f hg)) ?_
      rw [put1_payload, hff f List.mem_cons_self, copy]
      split_ifs
      · rfl
      · exact hq
  rw [payload_covered (q := { p with payload := fun _ => 0xff }) (Or.inl hx)]
  exact hconst fs _ hff rfl

/-- The fragments of `fillOps`. -/
def fillPkts : List Pkt := (List.range fragMax).map fillPkt

theorem fill_blocks {b : ℕ} (hb : b < fragMax) : BlockCov fillPkts b := by
  refine ⟨fillPkt b, List.mem_map.mpr ⟨b, List.mem_range.mpr hb, rfl⟩, ?_⟩
  rw [fillPkt_off hb, fillPkt_size]
  split_ifs <;> omega

theorem fill_bytes {x : ℕ} (hx : x < ipMaxBytes) : ByteCov fillPkts x := by
  have hx : x < 65535 := hx
  have hb : x / 8 < fragMax := by unfold fragMax; omega
  refine ⟨fillPkt (x / 8), List.mem_map.mpr ⟨x / 8, List.mem_range.mpr hb, rfl⟩, ?_⟩
  rw [fillPkt_off hb, fillPkt_size]
  split_ifs <;> omega

/-- **After `fillOps`** all buffers are free, and the first one is full. -/
theorem fresh_fill (mc : Memcmp) (key : IpHdr) : ∃ pool, Fresh mc key fillOps pool ∧
    pool.firstFree = some 0 ∧ Full (pool.buf 0) ∧
    ∀ x < ipMaxBytes, (pool.buf 0).payload x = 0xff := by
  have hmem : ∀ f ∈ fillPkts, ∃ k, k < fragMax ∧ fillPkt k = f := by
    intro f hf
    obtain ⟨k, hk, h⟩ := List.mem_map.mp hf
    exact ⟨k, List.mem_range.mp hk, h⟩
  obtain ⟨gs, hgs⟩ : ∃ gs, fillPkts = fillPkt 0 :: gs :=
    ⟨_, by rw [fillPkts, fragMax, List.range_succ_eq_map, List.map_cons]⟩
  -- the first fragment reserves the first buffer
  obtain ⟨pool0, l, h1, h2, h3, h4, h5⟩ := ipFragmentStore_reserve mc (f := fillPkt 0) inv_init
    (by simp) (show Pool.init.firstFree = some 0 from rfl)
  obtain rfl : l = [0] := List.perm_singleton.mp h4
  have hbuf : pool0.buf 0 = (Pool.init.buf 0).reserve (fillPkt 0).hdr := by
    rw [h5, Function.update_self]
  -- all of them fill it, and then the timer releases it
  obtain ⟨pool1, h6, h7, h8⟩ := run_more mc fillPkts h2 h3 (by rw [hbuf]; rfl)
    (fun f hf => by
      obtain ⟨k, -, rfl⟩ := hmem f hf
      rw [hbuf]
      exact ⟨rfl, rfl, rfl, rfl⟩)
    (fun f hf => by obtain ⟨k, hk, rfl⟩ := hmem f hf; exact fillPkt_fits hk)
    (fun f hf => by obtain ⟨k, hk, rfl⟩ := hmem f hf; exact fillPkt_more hk)
  rw [hbuf] at h8
  obtain ⟨pool2, h9, h10, h11⟩ := timer_release (d := xstackIpFragmentTlb) h7
    (by rw [h8, stored_timer]; exact le_rfl)
  have hrun : run mc Pool.init fillOps = some pool2 := by
    have hsame : run mc Pool.init (fillPkts.map fun f => .input f .zero fun _ => 0) =
        run mc pool0 (fillPkts.map fun f => .input f .zero fun _ => 0) := by
      rw [hgs, List.map_cons, run, run, step, step, h1]
    have hops : fillOps = (fillPkts.map fun f => .input f .zero fun _ => 0) ++
        [.timer xstackIpFragmentTlb] := by
      rw [fillOps, fillPkts, List.map_map]
      rfl
    rw [hops, run_append, hsame, h6]
    simp [run, step, h9]
  have hres : ∀ j, (pool2.buf j).reserved = false := fun j => by
    have := h10.reserved j
    simpa using this
  have hfree : pool2.firstFree = some 0 := by
    have hall : List.finRange 4 = 0 :: [1, 2, 3] := rfl
    rw [Pool.firstFree, hall, List.find?_cons_of_pos (by rw [hres]; rfl)]
  refine ⟨pool2, ⟨hrun, by rw [hfree]; simp, fun j hj => ?_⟩, hfree, ?_, ?_⟩
  · rw [hres j] at hj
    exact absurd hj (by decide)
  · intro b hb
    rw [h11]
    show fragmapTst (pool1.buf 0).fragmap b = true
    rw [h8, tst_stored]
    exact Or.inl (fill_blocks hb)
  · intro x hx
    rw [h11]
    show (pool1.buf 0).payload x = 0xff
    rw [h8]
    refine payload_ff (fun f hf => ?_) (fill_bytes hx)
    obtain ⟨k, -, rfl⟩ := hmem f hf
    rfl

/-! ### Only clean sequences do -/

theorem fresh_init (mc : Memcmp) (key : IpHdr) : Fresh mc key [] Pool.init :=
  ⟨rfl, by decide +kernel, fun j hj => absurd hj (by simp [Pool.init])⟩

/-- In a full buffer the datagram is complete as soon as it is due. -/
theorem bufFeed_full_some {k : ℕ} (hp : Full p) (hk : dueAt fs = some k)
    (hd : bufFeed (p.reserve h) fs ≠ none) : (∀ f ∈ fs.take (k + 1), Fits f.hdr) ∧
      bufFeed (p.reserve h) fs =
        some (some (k, PacketBuf.content (stored (p.reserve h) (fs.take (k + 1))))) := by
  obtain ⟨hlt, hdue, hbefore⟩ := dueAt_some hk
  have hn : ∀ j < k, ¬ (stored (p.reserve h) (fs.take (j + 1))).complete = true :=
    fun j hj hc => hbefore j hj (due_of_complete hc)
  have hfit : ∀ f ∈ fs.take (k + 1), Fits f.hdr := by
    by_contra hf
    push Not at hf
    exact hd (bufFeed_undefined hf hn)
  exact ⟨hfit, bufFeed_complete hlt hfit hn (complete_of_due hp hdue)⟩

theorem bufFeed_none_fits (hk : dueAt fs = none) (hd : bufFeed (p.reserve h) fs ≠ none) :
    ∀ f ∈ fs, Fits f.hdr := by
  by_contra hf
  push Not at hf
  obtain ⟨f, hf, hfit⟩ := hf
  have hall : fs.take (fs.length + 1) = fs := List.take_of_length_le (Nat.le_succ _)
  refine hd (bufFeed_undefined (k := fs.length) ⟨f, by rwa [hall], hfit⟩ fun j hj hc => ?_)
  exact dueAt_none hk j hj (due_of_complete hc)

theorem agree_of_content (hc : PacketBuf.content (stored (p.reserve h) fs) =
    PacketBuf.content (stored (q.reserve h') fs)) :
    Agree (recLen fs).toNat (stored (p.reserve h) fs).payload (stored (q.reserve h') fs).payload := by
  have hl : (stored (p.reserve h) fs).ipHdr.ipLen = recLen fs := len_stored rfl
  have hl' : (stored (q.reserve h') fs).ipHdr.ipLen = recLen fs := len_stored rfl
  unfold PacketBuf.content at hc
  rw [hl, hl'] at hc
  exact agree_of_slice hc

theorem clean_of_noResidue (hkey : ∀ f ∈ fs, SameKey f.hdr key) (hN : NoResidue mc key fs) :
    Clean fs := by
  obtain ⟨pool, hF, hfree, hfull, hff⟩ := fresh_fill mc key
  obtain ⟨o, ho, ho'⟩ := hN _ _ _ _ hF (fresh_init mc key)
  cases fs with
  | nil => exact fun f hf => absurd hf List.not_mem_nil
  | cons f gs =>
    obtain ⟨i, hi, hfeed⟩ := hF.feed_eq hkey
    obtain ⟨j, -, hfeed'⟩ := (fresh_init mc key).feed_eq hkey
    obtain rfl : 0 = i := Option.some.inj (hfree.symm.trans hi)
    rw [hfeed] at ho
    rw [hfeed'] at ho'
    have hdef : bufFeed ((pool.buf 0).reserve f.hdr) (f :: gs) ≠ none := by rw [ho]; simp
    unfold Clean
    cases hk : dueAt (f :: gs) with
    | none => exact bufFeed_none_fits hk hdef
    | some k =>
      obtain ⟨hfit, hcomp⟩ := bufFeed_full_some hfull hk hdef
      refine ⟨hfit, fun x hx => ?_⟩
      by_contra hcov
      rw [← ho, hcomp] at ho'
      have hagree := agree_of_content (bufFeed_content ho') x hx
      rw [payload_uncovered hcov, payload_uncovered hcov] at hagree
      have hmax := (recLen ((f :: gs).take (k + 1))).toNat_lt
      have hx : (pool.buf 0).payload x = 0xff := hff x (by unfold ipMaxBytes; omega)
      have hagree : (pool.buf 0).payload x = 0 := hagree
      rw [hx] at hagree
      exact absurd hagree (by decide)

/-- **The outcome of a sequence of fragments does not depend on earlier datagrams iff the sequence
is clean.** -/
theorem noResidue_iff (mc : Memcmp) (hkey : ∀ f ∈ fs, SameKey f.hdr key) :
    NoResidue mc key fs ↔ Clean fs :=
  ⟨clean_of_noResidue hkey, noResidue_of_clean hkey⟩

/-! ### A fragment that does not fill its last block -/

/-- 28 bytes at offset 0, with `IP_FLAGS_MF`. -/
def shortPkt : Pkt :=
  ⟨⟨0x45, 0, 48, 7, 0x2000, 64, 17, 0, 1, 2⟩, ofBytes (List.replicate 28 1)⟩

/-- The last 26 bytes, at offset 32. -/
def lastPkt : Pkt := ⟨⟨0x45, 0, 46, 7, 4, 64, 17, 0, 1, 2⟩, ofBytes (List.replicate 26 2)⟩

/-- An earlier datagram of 40 bytes in two fragments. Its handler leaves the bytes as they are. -/
def oldOps : List FragOp :=
  [.input ⟨⟨0x45, 0, 52, 6, 0x2000, 64, 17, 0, 3, 2⟩, fun _ => 0xff⟩ .zero fun _ => 0,
    .input ⟨⟨0x45, 0, 28, 6, 4, 64, 17, 0, 3, 2⟩, fun _ => 0xff⟩ .zero (ofBytes (List.replicate 40 0xff))]

theorem noResidue_iff_short :
    (∀ f ∈ [shortPkt, lastPkt], SameKey f.hdr shortPkt.hdr) ∧
      (NoResidue .ofSign shortPkt.hdr [shortPkt, lastPkt] ↔ Clean [shortPkt, lastPkt]) := by
  have hkey : ∀ f ∈ [shortPkt, lastPkt], SameKey f.hdr shortPkt.hdr := by decide
  exact ⟨hkey, noResidue_iff .ofSign hkey⟩

/-- Four bytes of the earlier datagram, which was complete, come out with the later one. -/
theorem stale_bytes :
    (∃ pool, Fresh .ofSign shortPkt.hdr oldOps pool ∧
      feed .ofSign pool [shortPkt, lastPkt] =
        some (some (1, List.replicate 28 1 ++ List.replicate 4 0xff ++ List.replicate 26 2))) ∧
    Fresh .ofSign shortPkt.hdr [] Pool.init ∧
    feed .ofSign Pool.init [shortPkt, lastPkt] =
      some (some (1, List.replicate 28 1 ++ List.replicate 4 0 ++ List.replicate 26 2)) ∧
    ¬ NoResidue .ofSign shortPkt.hdr [shortPkt, lastPkt] := by
  obtain ⟨pool, hrun⟩ : ∃ pool, run .ofSign Pool.init oldOps = some pool :=
    Option.isSome_iff_exists.mp (by decide +kernel)
  have hfree : ((run .ofSign Pool.init oldOps).map
      Pool.firstFree) = some (some 0) := by decide +kernel
  have hres : ((run .ofSign Pool.init oldOps).map
      fun pool => decide (∀ j, (pool.buf j).reserved = false)) = some true := by decide +kernel
  have hold : ((run .ofSign Pool.init oldOps).bind
      fun pool => feed .ofSign pool [shortPkt, lastPkt]) =
      some (some (1, List.replicate 28 1 ++ List.replicate 4 0xff ++ List.replicate 26 2)) := by
    decide +kernel
  rw [hrun] at hfree hres hold
  have hfree : pool.firstFree = some 0 := Option.some.inj hfree
  have hres : ∀ j, (pool.buf j).reserved = false := of_decide_eq_true (Option.some.inj hres)
  have hold : feed .ofSign pool [shortPkt, lastPkt] = _ := hold
  have hF : Fresh .ofSign shortPkt.hdr oldOps pool :=
    ⟨hrun, by rw [hfree]; simp, fun j hj => by simp [hres j] at hj⟩
  have hnew : feed .ofSign Pool.init [shortPkt, lastPkt] =
      some (some (1, List.replicate 28 1 ++ List.replicate 4 0 ++ List.replicate 26 2)) := by
    decide +kernel
  refine ⟨⟨pool, hF, hold⟩, fresh_init _ _, hnew, fun hN => ?_⟩
  obtain ⟨o, h1, h2⟩ := hN _ _ _ _ hF (fresh_init .ofSign shortPkt.hdr)
  rw [hold] at h1
  rw [hnew, ← h1] at h2
  exact absurd h2 (by decide)

end Xstack.Ip.Residue
