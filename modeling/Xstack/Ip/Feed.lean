import Xstack.Ip.Fragment

/-! # Fragments of one datagram, one after the other

* `FragOp`, `Pool.run`: histories of the pool, from start-up; `run_inv`: they keep `Pool.Inv`.
* `feed`: the fragments of a list are given to `ip_fragment_input` until the completion branch is
  taken; the result says at which fragment, and what `payload[0..ip_len)` is then.
* `feed_eq`: when no buffer holds the datagram and one is free, this is what happens in that one
  buffer, `bufFeed`.
* `stored`: the contents of a buffer after a list of fragments, with its bits (`tst_stored`), its
  length (`recLen`) and its bytes (`payload_covered`, `payload_uncovered`). -/

namespace Xstack.Ip.Feed

open Xstack.Config Xstack.Lib.Bytes Xstack.Lib.Lex Xstack.Ip.Header Xstack.Ip.Fragment

/-- A fragment as `ip_fragment_input` gets it: the header in host order, and the data. -/
structure Pkt where
  hdr : IpHdr
  rx : Buf

/-! ### Histories -/

/-- A call from outside. The header and the payload that `ip_input` leaves in a completed buffer
depend on the protocol handler. -/
inductive FragOp
  | input (f : Pkt) (hdrLeft : IpHdr) (payloadLeft : Buf)
  | timer (deltaTime : ℤ)

def step (mc : Memcmp) (pool : Pool) : FragOp → Option Pool
  | .input f hdrLeft payloadLeft => do
    match ← ipFragmentStore mc pool f.hdr f.rx with
    | (.complete i, pool) =>
      (pool.set i { pool.buf i with ipHdr := hdrLeft, payload := payloadLeft }).releasePacketBuffer i
    | (_, pool) => return pool
  | .timer deltaTime => ipFragmentTimer pool deltaTime

/-- The pool after a history. -/
def run (mc : Memcmp) : Pool → List FragOp → Option Pool
  | pool, [] => some pool
  | pool, op :: ops => (step mc pool op).bind fun pool => run mc pool ops

theorem run_append (mc : Memcmp) : ∀ (pool : Pool) (ops ops' : List FragOp),
    run mc pool (ops ++ ops') = (run mc pool ops).bind fun pool => run mc pool ops'
  | pool, [], ops' => rfl
  | pool, op :: ops, ops' => by
    simp only [List.cons_append, run, Option.bind_assoc]
    refine congrArg _ (funext fun pool => ?_)
    exact run_append mc pool ops ops'

variable {mc : Memcmp} {pool pool' : Pool} {l : List (Fin 4)} {i : Fin 4} {f : Pkt}
  {p q : PacketBuf} {fs gs : List Pkt}

/-! ### One fragment -/

/-- The buffer after a fragment that fits. -/
def put1 (p : PacketBuf) (f : Pkt) : PacketBuf := (p.copyIn f.hdr f.rx).noteHdr f.hdr

theorem store_eq (p : PacketBuf) (f : Pkt) :
    p.store f.hdr f.rx = if Fits f.hdr then some (put1 p f) else none := rfl

theorem put1_reserved : (put1 p f).reserved = p.reserved := by
  unfold put1 PacketBuf.noteHdr
  split_ifs <;> rfl

theorem put1_payload : (put1 p f).payload = copy p.payload (fragOff f.hdr) f.rx (fragSize f.hdr) := by
  unfold put1 PacketBuf.noteHdr
  split_ifs <;> rfl

theorem put1_fragmap : (put1 p f).fragmap =
    fragmapSetRange p.fragmap (fragOff f.hdr >>> 3) ((fragSize f.hdr + 7) >>> 3) := by
  unfold put1 PacketBuf.noteHdr
  split_ifs <;> rfl

theorem put1_key (hk : SameKey f.hdr p.ipHdr) : SameKey (put1 p f).ipHdr p.ipHdr := by
  unfold put1 PacketBuf.noteHdr
  split_ifs
  · exact hk
  · exact ⟨rfl, rfl, rfl, rfl⟩
  · exact ⟨rfl, rfl, rfl, rfl⟩

/-- The length that the buffer records, after one more fragment. -/
def noteLen (len : UInt16) (f : Pkt) : UInt16 :=
  if fragOff f.hdr = 0 then 0
  else if !moreFragments f.hdr then UInt16.ofNat (fragSize f.hdr + fragOff f.hdr) else len

theorem put1_len : (put1 p f).ipHdr.ipLen = noteLen p.ipHdr.ipLen f := by
  unfold put1 PacketBuf.noteHdr noteLen
  split_ifs <;> rfl

theorem fragOff_le_max (hdr : IpHdr) : ¬ fragOff hdr > ipMaxBytes := by
  have := fragOff_le hdr
  unfold ipMaxBytes
  omega

/-- A fragment of a datagram that has a buffer. -/
theorem ipFragmentStore_linked (mc : Memcmp) (hI : pool.Inv l) (hi : i ∈ l)
    (hk : SameKey f.hdr (pool.buf i).ipHdr) (hf : Fits f.hdr) :
    ipFragmentStore mc pool f.hdr f.rx =
      some (if (put1 (pool.buf i) f).complete then .complete i else .stored,
        pool.set i (put1 (pool.buf i) f)) := by
  simp [ipFragmentStore, fragOff_le_max, getPacketBuffer_linked mc hI hi hk, store_eq, hf]

theorem ipFragmentStore_unfit (mc : Memcmp) (hI : pool.Inv l) (hi : i ∈ l)
    (hk : SameKey f.hdr (pool.buf i).ipHdr) (hf : ¬ Fits f.hdr) :
    ipFragmentStore mc pool f.hdr f.rx = none := by
  simp [ipFragmentStore, fragOff_le_max, getPacketBuffer_linked mc hI hi hk, store_eq, hf]

/-- The pool in which the datagram has got its buffer. -/
theorem ipFragmentStore_reserve (mc : Memcmp) (hI : pool.Inv l)
    (hk : ∀ i ∈ l, ¬ SameKey f.hdr (pool.buf i).ipHdr) (hf : pool.firstFree = some i) :
    ∃ pool' l', ipFragmentStore mc pool f.hdr f.rx = ipFragmentStore mc pool' f.hdr f.rx ∧
      pool'.Inv l' ∧ i ∈ l' ∧ l'.Perm (i :: l) ∧
      pool'.buf = Function.update pool.buf i ((pool.buf i).reserve f.hdr) := by
  obtain ⟨head, l', h1, h2, h3⟩ := getPacketBuffer_reserve mc hI hk hf
  have hi : i ∈ l' := h3.mem_iff.mpr List.mem_cons_self
  refine ⟨_, l', ?_, h2, hi, h3, rfl⟩
  have hsame : SameKey f.hdr ((pool.set i ((pool.buf i).reserve f.hdr)).buf i).ipHdr := by
    rw [set_self]
    exact ⟨rfl, rfl, rfl, rfl⟩
  have h4 := getPacketBuffer_linked mc h2 hi hsame
  simp [ipFragmentStore, fragOff_le_max, h1, h4]

theorem ipFragmentStore_full (mc : Memcmp) (hI : pool.Inv l)
    (hk : ∀ i ∈ l, ¬ SameKey f.hdr (pool.buf i).ipHdr) (hf : pool.firstFree = none) :
    ipFragmentStore mc pool f.hdr f.rx = some (.nobufs, pool) := by
  simp [ipFragmentStore, fragOff_le_max, getPacketBuffer_full mc hI hk hf]

/-! ### Every history keeps the invariant -/

theorem step_linked_inv {a : IpHdr} {b : Buf} (hI : pool.Inv l) (hi : i ∈ l)
    (hk : SameKey f.hdr (pool.buf i).ipHdr) (hs : step mc pool (.input f a b) = some pool') :
    ∃ l', pool'.Inv l' := by
  by_cases hf : Fits f.hdr
  · have hI' : (pool.set i (put1 (pool.buf i) f)).Inv l := hI.set put1_reserved (put1_key hk)
    simp only [step, ipFragmentStore_linked mc hI hi hk hf] at hs
    by_cases hc : (put1 (pool.buf i) f).complete = true
    · obtain ⟨head, h1, h2⟩ := release_spec
        (p := { put1 (pool.buf i) f with ipHdr := a, payload := b }) hI' hi
      simp only [hc, if_true, Option.bind_eq_bind, Option.bind_some, set_self] at hs
      rw [h1] at hs
      obtain rfl := Option.some.inj hs
      exact ⟨_, h2⟩
    · simp [hc] at hs
      exact ⟨l, hs ▸ hI'⟩
  · simp [step, ipFragmentStore_unfit mc hI hi hk hf] at hs

theorem step_input_inv {a : IpHdr} {b : Buf} (hI : pool.Inv l)
    (hs : step mc pool (.input f a b) = some pool') : ∃ l', pool'.Inv l' := by
  by_cases hk : ∃ i ∈ l, SameKey f.hdr (pool.buf i).ipHdr
  · obtain ⟨i, hi, hk⟩ := hk
    exact step_linked_inv hI hi hk hs
  · have hk : ∀ i ∈ l, ¬ SameKey f.hdr (pool.buf i).ipHdr := fun i hi h => hk ⟨i, hi, h⟩
    cases hf : pool.firstFree with
    | none =>
      simp [step, ipFragmentStore_full mc hI hk hf] at hs
      exact ⟨l, hs ▸ hI⟩
    | some i =>
      obtain ⟨pool1, l1, h1, h2, h3, -, h5⟩ := ipFragmentStore_reserve mc hI hk hf
      have hs1 : step mc pool1 (.input f a b) = some pool' := by rw [← hs, step, step, h1]
      refine step_linked_inv h2 h3 ?_ hs1
      rw [h5, Function.update_self]
      exact ⟨rfl, rfl, rfl, rfl⟩

/-- `ip_fragment_timer` at one buffer: its timer goes down, or it is released. -/
theorem tick_spec (d : ℤ) (hI : pool.Inv l) (i : Fin 4) : ∃ pool' l', Pool.tick d pool i = some pool' ∧
    pool'.Inv l' ∧ (∀ j ∈ l', j ∈ l) ∧ ∀ j, (pool'.buf j).ipHdr = (pool.buf j).ipHdr := by
  have hset : ∀ p : PacketBuf, p.ipHdr = (pool.buf i).ipHdr → ∀ j,
      ((pool.set i p).buf j).ipHdr = (pool.buf j).ipHdr := by
    intro p hp j
    by_cases hj : j = i
    · rw [hj, set_self, hp]
    · rw [set_of_ne hj]
  unfold Pool.tick
  split_ifs with hres hold
  · obtain ⟨head, hrel, hI'⟩ :=
      release_spec (p := (pool.buf i).age d) hI ((hI.reserved i).mpr hres)
    exact ⟨_, _, hrel, hI', fun j hj => List.mem_of_mem_erase hj, hset _ rfl⟩
  · exact ⟨_, l, rfl, hI.set rfl ⟨rfl, rfl, rfl, rfl⟩, fun _ hj => hj, hset _ rfl⟩
  · exact ⟨pool, l, rfl, hI, fun _ hj => hj, fun _ => rfl⟩

theorem ticks_spec (d : ℤ) : ∀ (is : List (Fin 4)) {pool : Pool} {l : List (Fin 4)}, pool.Inv l →
    ∃ pool' l', is.foldlM (Pool.tick d) pool = some pool' ∧ pool'.Inv l' ∧ (∀ j ∈ l', j ∈ l) ∧
      ∀ j, (pool'.buf j).ipHdr = (pool.buf j).ipHdr
  | [], pool, l, hI => ⟨pool, l, rfl, hI, fun _ hj => hj, fun _ => rfl⟩
  | i :: is, pool, l, hI => by
    obtain ⟨pool₁, l₁, h₁, hI₁, hsub₁, hkey₁⟩ := tick_spec d hI i
    obtain ⟨pool₂, l₂, h₂, hI₂, hsub₂, hkey₂⟩ := ticks_spec d is hI₁
    refine ⟨pool₂, l₂, ?_, hI₂, fun j hj => hsub₁ j (hsub₂ j hj), fun j => ?_⟩
    · rw [List.foldlM_cons, h₁]
      exact h₂
    · rw [hkey₂, hkey₁]

/-- **`ip_fragment_timer` returns,** and the buffers that stay linked have the same keys as before. -/
theorem timer_spec (d : ℤ) (hI : pool.Inv l) : ∃ pool' l', ipFragmentTimer pool d = some pool' ∧
    pool'.Inv l' ∧ (∀ j ∈ l', j ∈ l) ∧ ∀ j, (pool'.buf j).ipHdr = (pool.buf j).ipHdr :=
  ticks_spec d _ hI

theorem step_inv {op : FragOp} (hI : pool.Inv l) (hs : step mc pool op = some pool') :
    ∃ l', pool'.Inv l' := by
  cases op with
  | input f a b => exact step_input_inv hI hs
  | timer d =>
    obtain ⟨pool₁, l₁, h₁, hI₁, -⟩ := timer_spec d hI
    obtain rfl := Option.some.inj (h₁.symm.trans hs)
    exact ⟨l₁, hI₁⟩

/-- **The invariant of the pool holds after every history.** -/
theorem run_inv : ∀ {ops : List FragOp} {pool pool' : Pool} {l : List (Fin 4)}, pool.Inv l →
    run mc pool ops = some pool' → ∃ l', pool'.Inv l'
  | [], _, _, l, hI, hs => ⟨l, Option.some.inj hs ▸ hI⟩
  | op :: ops, _, _, _, hI, hs => by
    obtain ⟨pool1, h1, h2⟩ := Option.bind_eq_some_iff.mp hs
    obtain ⟨l1, h3⟩ := step_inv hI h1
    exact run_inv h3 h2

/-! ### Feeding a list of fragments -/

/-- What comes of a list of fragments: the index of the one at which the completion branch is taken
and the bytes `payload[0..ip_len)` at that point, or nothing if it never is. -/
abbrev Outcome := Option (ℕ × List UInt8)

/-- The outcome with one more fragment in front. -/
def Outcome.later (o : Outcome) : Outcome := o.map fun kb => (kb.1 + 1, kb.2)

/-- `payload[0..ip_len)`. -/
def PacketBuf.content (p : PacketBuf) : List UInt8 := slice p.payload p.ipHdr.ipLen.toNat

/-- The fragments go to `ip_fragment_input` until the completion branch is taken. -/
def feed (mc : Memcmp) : Pool → List Pkt → Option Outcome
  | _, [] => some none
  | pool, f :: fs => do
    match ← ipFragmentStore mc pool f.hdr f.rx with
    | (.complete i, pool) => return some (0, PacketBuf.content (pool.buf i))
    | (_, pool) => return Outcome.later (← feed mc pool fs)

/-- The same in the one buffer that they go to. -/
def bufFeed : PacketBuf → List Pkt → Option Outcome
  | _, [] => some none
  | p, f :: fs =>
    if Fits f.hdr then
      if (put1 p f).complete then some (some (0, PacketBuf.content (put1 p f)))
      else (bufFeed (put1 p f) fs).map Outcome.later
    else none

theorem feed_linked (mc : Memcmp) : ∀ {fs : List Pkt} {pool : Pool}, pool.Inv l → i ∈ l →
    (∀ f ∈ fs, SameKey f.hdr (pool.buf i).ipHdr) → feed mc pool fs = bufFeed (pool.buf i) fs
  | [], _, _, _, _ => rfl
  | f :: fs, pool, hI, hi, hk => by
    have hf := hk f List.mem_cons_self
    rw [feed, bufFeed]
    by_cases h : Fits f.hdr
    · rw [ipFragmentStore_linked mc hI hi hf h, if_pos h]
      by_cases hc : (put1 (pool.buf i) f).complete = true
      · simp [hc]
      · have ih := feed_linked mc (hI.set put1_reserved (put1_key hf)) hi fun g hg => by
          rw [set_self]
          exact (hk g (List.mem_cons_of_mem f hg)).trans (put1_key hf).symm
        rw [set_self] at ih
        simp only [hc, if_false, Bool.false_eq_true, Option.bind_eq_bind, Option.bind_some, ih]
        cases bufFeed (put1 (pool.buf i) f) fs <;> rfl
    · rw [ipFragmentStore_unfit mc hI hi hf h, if_neg h]
      rfl

/-- **Feeding is what happens in the first free buffer.** -/
theorem feed_eq (mc : Memcmp) (hI : pool.Inv l) (hk : ∀ i ∈ l, ¬ SameKey f.hdr (pool.buf i).ipHdr)
    (hf : pool.firstFree = some i) (hs : ∀ g ∈ fs, SameKey g.hdr f.hdr) :
    feed mc pool (f :: fs) = bufFeed ((pool.buf i).reserve f.hdr) (f :: fs) := by
  obtain ⟨pool', l', h1, h2, h3, -, h5⟩ := ipFragmentStore_reserve mc hI hk hf
  have hbuf : pool'.buf i = (pool.buf i).reserve f.hdr := by rw [h5, Function.update_self]
  have hkey : ∀ g ∈ f :: fs, SameKey g.hdr (pool'.buf i).ipHdr := by
    intro g hg
    rw [hbuf]
    rcases List.mem_cons.mp hg with rfl | hg
    · exact ⟨rfl, rfl, rfl, rfl⟩
    · exact hs g hg
  rw [← hbuf, ← feed_linked mc h2 h3 hkey, feed, feed, h1]

/-! ### The contents of a buffer -/

/-- The buffer after a list of fragments that fit. -/
def stored (p : PacketBuf) (fs : List Pkt) : PacketBuf := fs.foldl put1 p

/-- The length that is recorded after a list of fragments. -/
def recLen (fs : List Pkt) : UInt16 := fs.foldl noteLen 0

/-- A fragment of the list sets bit `b`. -/
def BlockCov (fs : List Pkt) (b : ℕ) : Prop :=
  ∃ f ∈ fs, fragOff f.hdr / 8 ≤ b ∧ b < fragOff f.hdr / 8 + (fragSize f.hdr + 7) / 8

/-- A fragment of the list writes byte `x`. -/
def ByteCov (fs : List Pkt) (x : ℕ) : Prop :=
  ∃ f ∈ fs, fragOff f.hdr ≤ x ∧ x < fragOff f.hdr + fragSize f.hdr

theorem len_stored (h0 : p.ipHdr.ipLen = 0) : (stored p fs).ipHdr.ipLen = recLen fs := by
  unfold stored recLen
  rw [← h0]
  clear h0
  induction fs generalizing p with
  | nil => rfl
  | cons f fs ih => rw [List.foldl_cons, List.foldl_cons, ih, put1_len]

theorem tst_stored (b : ℕ) : fragmapTst (stored p fs).fragmap b = true ↔
    BlockCov fs b ∨ fragmapTst p.fragmap b = true := by
  unfold stored BlockCov
  induction fs generalizing p with
  | nil => simp
  | cons f fs ih =>
    rw [List.foldl_cons, ih, put1_fragmap, tst_setRange, shiftRight_three, shiftRight_three,
      Bool.or_eq_true, decide_eq_true_iff, ← or_assoc]
    refine or_congr ?_ Iff.rfl
    rw [List.exists_mem_cons_iff, or_comm]

theorem payload_uncovered {x : ℕ} (h : ¬ ByteCov fs x) : (stored p fs).payload x = p.payload x := by
  unfold stored
  induction fs generalizing p with
  | nil => rfl
  | cons f fs ih =>
    rw [List.foldl_cons, ih fun ⟨g, hg, hx⟩ => h ⟨g, List.mem_cons_of_mem f hg, hx⟩, put1_payload]
    refine copy_outside ?_
    by_contra hx
    exact h ⟨f, List.mem_cons_self, by omega⟩

/-- What has been written does not depend on what was in the buffer before. -/
theorem payload_covered {x : ℕ} (h : ByteCov fs x ∨ p.payload x = q.payload x) :
    (stored p fs).payload x = (stored q fs).payload x := by
  unfold stored
  induction fs generalizing p q with
  | nil =>
    rcases h with ⟨f, hf, -⟩ | h
    · exact absurd hf List.not_mem_nil
    · exact h
  | cons f fs ih =>
    rw [List.foldl_cons, List.foldl_cons]
    refine ih ?_
    rw [put1_payload, put1_payload]
    by_cases hx : fragOff f.hdr ≤ x ∧ x < fragOff f.hdr + fragSize f.hdr
    · right
      unfold copy
      rw [if_pos hx, if_pos hx]
    · rcases h with ⟨g, hg, hgx⟩ | h
      · rcases List.mem_cons.mp hg with rfl | hg
        · exact absurd hgx hx
        · exact Or.inl ⟨g, hg, hgx⟩
      · right
        unfold copy
        rw [if_neg hx, if_neg hx, h]

/-- The test at the end of `ip_fragment_input`. -/
theorem complete_stored (h0 : p.ipHdr.ipLen = 0) : (stored p fs).complete = true ↔
    recLen fs ≠ 0 ∧ ∀ b < ((recLen fs).toNat + 7) / 8,
      BlockCov fs b ∨ fragmapTst p.fragmap b = true := by
  simp only [PacketBuf.complete, len_stored h0, shiftRight_three, Bool.and_eq_true, bne_iff_ne,
    List.all_eq_true, List.mem_range, tst_stored]

/-! ### When feeding ends -/

theorem bufFeed_complete {k : ℕ} (hk : k < fs.length) (hf : ∀ f ∈ fs.take (k + 1), Fits f.hdr)
    (hn : ∀ j < k, ¬ (stored p (fs.take (j + 1))).complete = true)
    (hc : (stored p (fs.take (k + 1))).complete = true) :
    bufFeed p fs = some (some (k, PacketBuf.content (stored p (fs.take (k + 1))))) := by
  induction fs generalizing p k with
  | nil => exact absurd hk (Nat.not_lt_zero _)
  | cons f fs ih =>
    have hfit : Fits f.hdr := hf f (by simp)
    rw [bufFeed, if_pos hfit]
    cases k with
    | zero =>
      have hc : (put1 p f).complete = true := hc
      rw [if_pos hc]
      rfl
    | succ k =>
      have h0 : ¬ (put1 p f).complete = true := hn 0 (Nat.succ_pos k)
      rw [if_neg h0, ih (by simpa using hk) (fun g hg => hf g (List.mem_cons_of_mem f hg))
        (fun j hj => hn (j + 1) (by omega)) hc]
      rfl

theorem bufFeed_never (hf : ∀ f ∈ fs, Fits f.hdr)
    (hn : ∀ j < fs.length, ¬ (stored p (fs.take (j + 1))).complete = true) :
    bufFeed p fs = some none := by
  induction fs generalizing p with
  | nil => rfl
  | cons f fs ih =>
    have h0 : ¬ (put1 p f).complete = true := hn 0 (Nat.succ_pos _)
    rw [bufFeed, if_pos (hf f List.mem_cons_self), if_neg h0,
      ih (fun g hg => hf g (List.mem_cons_of_mem f hg))
        (fun j hj => hn (j + 1) (by simpa using hj))]
    rfl

/-- The bytes of an outcome are those in the buffer at that point. -/
theorem bufFeed_content {k : ℕ} {bytes : List UInt8} (h : bufFeed p fs = some (some (k, bytes))) :
    bytes = PacketBuf.content (stored p (fs.take (k + 1))) := by
  induction fs generalizing p k with
  | nil => simp [bufFeed] at h
  | cons f fs ih =>
    rw [bufFeed] at h
    split_ifs at h with h1 h2
    · simp only [Option.some.injEq, Prod.mk.injEq] at h
      obtain ⟨rfl, rfl⟩ := h
      rfl
    · obtain ⟨o, ho, hlater⟩ := Option.map_eq_some_iff.mp h
      obtain ⟨⟨j, c⟩, rfl, hjc⟩ := Option.map_eq_some_iff.mp hlater
      simp only [Prod.mk.injEq] at hjc
      obtain ⟨rfl, rfl⟩ := hjc
      exact ih ho

theorem bufFeed_undefined {k : ℕ} (hf : ∃ f ∈ fs.take (k + 1), ¬ Fits f.hdr)
    (hn : ∀ j < k, ¬ (stored p (fs.take (j + 1))).complete = true) : bufFeed p fs = none := by
  induction fs generalizing p k with
  | nil => simp at hf
  | cons f fs ih =>
    rw [bufFeed]
    by_cases hfit : Fits f.hdr
    · obtain ⟨g, hg, hgf⟩ := hf
      rcases List.mem_cons.mp hg with rfl | hg
      · exact absurd hfit hgf
      · obtain _ | k := k
        · simp at hg
        · have h0 : ¬ (put1 p f).complete = true := hn 0 (Nat.succ_pos k)
          rw [if_pos hfit, if_neg h0, ih ⟨g, hg, hgf⟩ (fun j hj => hn (j + 1) (by omega))]
          rfl
    · rw [if_neg hfit]

end Xstack.Ip.Feed
