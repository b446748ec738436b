import Xstack.Sock.Queue

/-! # What the egress thread sends

The application puts datagrams into the egress queue with `xstack_sendto`, the daemon takes them
out. The slot has a field for the size, the daemon reads it, and `xstack_sendto` does not write it:
it holds zero since `xstack_init`, until a datagram that is too long for its slot runs over the
header of the next one.

* `leftover xs k`: what the datagrams before the `k`-th leave in the size field of its slot.
* `Inv`: the memory after any number of calls and passes of the daemon.
* `passed_short`: datagrams that stay in their slots keep their destinations, bytes and order, and
  lose their size.
* `delivers_iff`: only empty datagrams arrive as they were sent. -/

namespace Xstack.Sock.Egress

open Xstack.Config Xstack.Lib.Bytes Xstack.Lib.Ring Xstack.Sock.Queue

/-- A call of `xstack_sendto`. -/
structure SendCall where
  buffer : List UInt8
  destAddr : SockAddr

/-- The shared memory, the calls that have returned, and what the daemon has passed to
`proto_send`. -/
structure St where
  mem : Buf
  sent : ℕ
  passed : List XstackDgram

inductive Turn
  | app
  | daemon

/-- The application makes its next call, unless it has to wait for a slot; the daemon makes one
pass. -/
def step (xs : List SendCall) (s : St) : Turn → St
  | .app =>
    match xs[s.sent]? with
    | none => s
    | some x =>
      match xstackSendto s.mem x.buffer x.destAddr with
      | .sent m => { s with mem := m, sent := s.sent + 1 }
      | _ => s
  | .daemon =>
    match egressStep s.mem with
    | (some dgram, m) => { s with mem := m, passed := s.passed ++ [dgram] }
    | (none, m) => { s with mem := m }

def start (pid : UInt32) : St := ⟨xstackInit pid, 0, []⟩

def run (xs : List SendCall) (s : St) (turns : List Turn) : St := turns.foldl (step xs) s

/-- The datagrams that were passed on are those that were sent, in the same order. -/
def Delivers (xs : List SendCall) (passed : List XstackDgram) : Prop :=
  ∀ (k : ℕ) (v : XstackDgram), passed[k]? = some v → ∃ x, xs[k]? = some x ∧
    v.dstaddr = x.destAddr ∧ v.bufSize = x.buffer.length ∧
    ∀ i < v.bufSize, v.buf i = x.buffer.getD i 0

/-! ### What earlier datagrams leave behind -/

/-- Byte `j` of the size field of `slot` after the calls `xs`, numbered from `i`: a datagram in the
slot before it that is long enough runs over the field. -/
def spill (slot j : ℕ) : ℕ → UInt8 → List SendCall → UInt8
  | _, v, [] => v
  | i, v, x :: xs =>
    spill slot j (i + 1)
      (if i % 4 + 1 = slot ∧ 4088 + j < x.buffer.length then x.buffer.getD (4088 + j) 0 else v) xs

/-- The size field of the slot of the `k`-th call, before that call. -/
def leftover (xs : List SendCall) (k : ℕ) : ℕ :=
  (rd64 (fun j => spill (k % 4) j 0 0 (xs.take k)) 0).toNat

/-- The header of a slot as `xstack_sendto` writes it: no source address, the destination. -/
def slotHdr (x : SendCall) : List UInt8 := List.replicate 8 0 ++ x.destAddr.bytes

theorem spill_snoc (slot j : ℕ) (x : SendCall) : ∀ (xs : List SendCall) (i : ℕ) (v : UInt8),
    spill slot j i v (xs ++ [x]) =
      if (i + xs.length) % 4 + 1 = slot ∧ 4088 + j < x.buffer.length then
        x.buffer.getD (4088 + j) 0
      else spill slot j i v xs
  | [], i, v => rfl
  | y :: xs, i, v => by
    rw [List.cons_append, spill, spill_snoc slot j x xs, List.length_cons, spill,
      show i + 1 + xs.length = i + (xs.length + 1) by omega]

theorem spill_take_succ {xs : List SendCall} {k : ℕ} {x : SendCall} (hx : xs[k]? = some x)
    (slot j : ℕ) : spill slot j 0 0 (xs.take (k + 1)) =
      if k % 4 + 1 = slot ∧ 4088 + j < x.buffer.length then x.buffer.getD (4088 + j) 0
      else spill slot j 0 0 (xs.take k) := by
  have hlen : (xs.take k).length = k := by
    have := (List.getElem?_eq_some_iff.mp hx).1
    simp only [List.length_take]
    omega
  rw [List.take_add_one, hx, Option.toList_some, spill_snoc, hlen, Nat.zero_add]

/-- Short datagrams leave nothing behind. -/
theorem leftover_eq_zero {xs : List SendCall} {k : ℕ}
    (h : ∀ x ∈ xs.take k, x.buffer.length ≤ 4088) : leftover xs k = 0 := by
  have hspill : ∀ (ys : List SendCall) (slot j i : ℕ), (∀ x ∈ ys, x.buffer.length ≤ 4088) →
      spill slot j i 0 ys = 0 := by
    intro ys
    induction ys with
    | nil => exact fun _ _ _ _ => rfl
    | cons y ys ih =>
      intro slot j i hy
      have := hy y List.mem_cons_self
      rw [spill, if_neg (by omega)]
      exact ih slot j (i + 1) fun x hx => hy x (List.mem_cons_of_mem y hx)
  have hzero : rd64 (fun j => spill (k % 4) j 0 0 (xs.take k)) 0 = rd64 (fun _ => 0) 0 :=
    rd64_congr fun j _ => hspill (xs.take k) _ _ 0 h
  unfold leftover
  rw [hzero]
  rfl

/-! ### The memory -/

/-- The address of a slot. -/
def slotAddr (s : ℕ) : ℕ := egressDaddr + s * xstackDatagramSizeMax

/-- Byte `j` of the `k`-th datagram in memory when `c` calls were made. -/
def bufByte (xs : List SendCall) (k c : ℕ) (x : SendCall) (j : ℕ) : UInt8 :=
  match xs[k + 1]? with
  | some y =>
    if 4072 ≤ j ∧ j < 4088 ∧ k % 4 ≠ 3 ∧ k + 1 < c then (slotHdr y).getD (j - 4072) 0
    else x.buffer.getD j 0
  | none => x.buffer.getD j 0

/-- **The egress queue after any number of calls and passes.** -/
structure Inv (xs : List SendCall) (s : St) : Prop where
  counts : Counts 4 s.passed.length s.sent
  cb : QueueCb.load s.mem egressQaddr = ⟨4096, 4, s.sent % 4, s.passed.length % 4⟩
  size : ∀ t < 4, ∀ j < 8, s.mem (slotAddr t + 16 + j) = spill t j 0 0 (xs.take s.sent)
  dest : ∀ k x, s.passed.length ≤ k → k < s.sent → xs[k]? = some x →
    ∀ j < 8, s.mem (slotAddr (k % 4) + 8 + j) = x.destAddr.bytes.getD j 0
  buf : ∀ k x, s.passed.length ≤ k → k < s.sent → xs[k]? = some x →
    ∀ j < x.buffer.length, s.mem (slotAddr (k % 4) + 24 + j) = bufByte xs k s.sent x j
  sentLe : s.sent ≤ xs.length

/-- What the daemon passes on as the `k`-th datagram, when `c` calls were made by then. -/
structure PassedAt (xs : List SendCall) (k c : ℕ) (x : SendCall) (v : XstackDgram) : Prop where
  dest : v.dstaddr = x.destAddr
  size : v.bufSize = leftover xs k
  buf : ∀ j < x.buffer.length, v.buf j = bufByte xs k c x j

theorem bufByte_of_not {xs : List SendCall} {k c j : ℕ} {x : SendCall}
    (h : ¬ (4072 ≤ j ∧ j < 4088 ∧ k % 4 ≠ 3 ∧ k + 1 < c)) :
    bufByte xs k c x j = x.buffer.getD j 0 := by
  unfold bufByte
  rcases xs[k + 1]? with _ | y
  · rfl
  · exact if_neg h

/-! ### The application's step -/

/-- The memory of the slots after `xstack_sendto` has filled the slot at `a`. -/
def filled (m : Buf) (a : ℕ) (x : SendCall) : Buf := fun i =>
  if a ≤ i ∧ i < a + 16 then (slotHdr x).getD (i - a) 0
  else if a + 24 ≤ i ∧ i < a + 24 + x.buffer.length then x.buffer.getD (i - (a + 24)) 0
  else m i

theorem exec_sendtoStores (m : Buf) (a : ℕ) (x : SendCall) :
    exec m (sendtoStores a x.buffer x.destAddr) = filled m a x := by
  rw [sendtoStores, exec_append, exec_append, exec_storesAt, exec_storesAt, exec_storesAt]
  funext i
  have h8 : (List.replicate 8 (0 : UInt8)).length = 8 := rfl
  unfold filled
  by_cases h1 : a ≤ i ∧ i < a + 16
  · rw [if_pos h1, put_outside (Or.inl (by unfold dgramHdrSize; omega))]
    by_cases h2 : i < a + 8
    · obtain ⟨j, rfl⟩ : ∃ j, i = a + j := ⟨i - a, by omega⟩
      rw [put_outside (Or.inl h2), put_of_lt (by rw [h8]; omega), Nat.add_sub_cancel_left, slotHdr,
        List.getD_append _ _ _ _ (by rw [h8]; omega)]
    · obtain ⟨j, rfl⟩ : ∃ j, i = a + 8 + j := ⟨i - (a + 8), by omega⟩
      rw [put_of_lt (by rw [length_sockAddr]; omega), slotHdr,
        show a + 8 + j - a = 8 + j by omega,
        List.getD_append_right _ _ _ _ (by rw [h8]; omega), h8, Nat.add_sub_cancel_left]
  · rw [if_neg h1]
    by_cases h2 : a + 24 ≤ i ∧ i < a + 24 + x.buffer.length
    · obtain ⟨j, rfl⟩ : ∃ j, i = a + 24 + j := ⟨i - (a + 24), by omega⟩
      rw [if_pos h2, Nat.add_sub_cancel_left]
      exact put_of_lt (by omega)
    · rw [if_neg h2, put_outside (by unfold dgramHdrSize; omega),
        put_outside (by rw [length_sockAddr]; omega), put_outside (by rw [h8]; omega)]

theorem sendto_spec {m : Buf} {x : SendCall} {c d : ℕ} (hx : x.buffer.length ≤ 4096)
    (hcb : QueueCb.load m egressQaddr = ⟨4096, 4, c % 4, d % 4⟩)
    (hroom : (c % 4 + 1) % 4 ≠ d % 4) :
    ∃ m', xstackSendto m x.buffer x.destAddr = .sent m' ∧
      QueueCb.load m' egressQaddr = ⟨4096, 4, (c + 1) % 4, d % 4⟩ ∧
      ∀ i, egressDaddr ≤ i → m' i = filled m (slotAddr (c % 4)) x i := by
  have halloc : queueAlloc (QueueCb.load m egressQaddr) = some (c % 4 * xstackDatagramSizeMax) := by
    rw [hcb]
    exact if_neg hroom
  have hkept : QueueCb.load (filled m (slotAddr (c % 4)) x) egressQaddr =
      ⟨4096, 4, c % 4, d % 4⟩ := by
    rw [← hcb]
    refine queueCb_load_congr fun i hi => ?_
    have hd : egressDaddr = egressQaddr + 32 := rfl
    unfold filled slotAddr
    rw [if_neg (by omega), if_neg (by omega)]
  have hlen : ¬ x.buffer.length > xstackDatagramSizeMax := not_lt.mpr hx
  refine ⟨QueueCb.store (filled m (slotAddr (c % 4)) x) egressQaddr
    ⟨4096, 4, (c % 4 + 1) % 4, d % 4⟩, ?_, ?_, ?_⟩
  · unfold xstackSendto
    simp only [if_neg hlen, halloc]
    rw [exec_sendtoStores]
    show Sendto.sent (QueueCb.store _ _ (queueCommit
      (QueueCb.load (filled m (slotAddr (c % 4)) x) egressQaddr))) = _
    rw [hkept]
    rfl
  · rw [queueCb_load_store (show 4096 < 2 ^ 64 by decide) (show 4 < 2 ^ 64 by decide)
      (lt_trans (Nat.mod_lt _ (by decide)) (by decide))
      (lt_trans (Nat.mod_lt _ (by decide)) (by decide)), Counts.next]
  · intro i hi
    exact queueCb_store_outside (Or.inr hi)

theorem slotAddr_eq (t : ℕ) : slotAddr t = egressDaddr + t * 4096 := rfl

section Filled
variable {m : Buf} {a i : ℕ} {x : SendCall}

theorem filled_hdr (h : a ≤ i) (h' : i < a + 16) : filled m a x i = (slotHdr x).getD (i - a) 0 :=
  if_pos ⟨h, h'⟩

theorem filled_buf (h : a + 24 ≤ i) (h' : i < a + 24 + x.buffer.length) :
    filled m a x i = x.buffer.getD (i - (a + 24)) 0 := by
  unfold filled
  rw [if_neg (by omega), if_pos ⟨h, h'⟩]

theorem filled_outside (h : i < a ∨ a + 16 ≤ i) (h' : i < a + 24 ∨ a + 24 + x.buffer.length ≤ i) :
    filled m a x i = m i := by
  unfold filled
  rw [if_neg (by omega), if_neg (by omega)]

end Filled

section Sends
variable {xs : List SendCall} {s : St} {x : SendCall}

/-- The size field of a slot changes where the datagram in the slot before it is too long. -/
theorem Inv.filled_size (hi : Inv xs s) (hx : xs[s.sent]? = some x) (hlen : x.buffer.length ≤ 4096)
    {t j : ℕ} (ht : t < 4) (hj : j < 8) :
    filled s.mem (slotAddr (s.sent % 4)) x (slotAddr t + 16 + j) =
      spill t j 0 0 (xs.take (s.sent + 1)) := by
  have hs4 := Nat.mod_lt s.sent (show 0 < 4 by decide)
  rw [spill_take_succ hx]
  by_cases hsp : s.sent % 4 + 1 = t ∧ 4088 + j < x.buffer.length
  · rw [if_pos hsp, filled_buf (by simp only [slotAddr_eq]; omega)
      (by simp only [slotAddr_eq]; omega)]
    congr 1
    simp only [slotAddr_eq]
    omega
  · rw [if_neg hsp, ← hi.size t ht j hj]
    exact filled_outside (by simp only [slotAddr_eq]; omega) (by simp only [slotAddr_eq]; omega)

/-- The destination of a datagram that waits is out of reach. -/
theorem Inv.filled_dest (hi : Inv xs s) (hx : xs[s.sent]? = some x) (hlen : x.buffer.length ≤ 4096)
    (hroom : s.sent + 1 < s.passed.length + 4) {k j : ℕ} {y : SendCall}
    (hk : s.passed.length ≤ k) (hks : k < s.sent + 1) (hy : xs[k]? = some y) (hj : j < 8) :
    filled s.mem (slotAddr (s.sent % 4)) x (slotAddr (k % 4) + 8 + j) =
      y.destAddr.bytes.getD j 0 := by
  by_cases hlast : k = s.sent
  · subst hlast
    rw [Option.some.inj (hy.symm.trans hx), filled_hdr (by omega) (by omega), slotHdr,
      List.getD_append_right _ _ _ _ (by simp only [List.length_replicate]; omega),
      List.length_replicate]
    congr 1
    omega
  · rw [← hi.dest k y hk (by omega) hy j hj]
    exact filled_outside (by simp only [slotAddr_eq]; omega) (by simp only [slotAddr_eq]; omega)

/-- The end of the datagram in the slot before may be in the header that is written. -/
theorem Inv.filled_bufByte (hi : Inv xs s) (hx : xs[s.sent]? = some x)
    (hlen : x.buffer.length ≤ 4096) (hroom : s.sent + 1 < s.passed.length + 4) {k j : ℕ}
    {y : SendCall} (hk : s.passed.length ≤ k) (hks : k < s.sent + 1) (hy : xs[k]? = some y)
    (hleny : y.buffer.length ≤ 4096) (hj : j < y.buffer.length) :
    filled s.mem (slotAddr (s.sent % 4)) x (slotAddr (k % 4) + 24 + j) =
      bufByte xs k (s.sent + 1) y j := by
  by_cases hlast : k = s.sent
  · subst hlast
    rw [Option.some.inj (hy.symm.trans hx)] at hj ⊢
    rw [filled_buf (by omega) (by omega), bufByte_of_not (by omega)]
    congr 1
    omega
  by_cases hover : 4072 ≤ j ∧ j < 4088 ∧ k % 4 ≠ 3 ∧ k + 1 = s.sent
  · obtain ⟨h4, h5, h6, h7⟩ := hover
    rw [filled_hdr (by simp only [slotAddr_eq]; omega) (by simp only [slotAddr_eq]; omega)]
    have hbyte : bufByte xs k (s.sent + 1) y j = (slotHdr x).getD (j - 4072) 0 := by
      unfold bufByte
      rw [h7, hx]
      exact if_pos (by omega)
    have hidx : slotAddr (k % 4) + 24 + j - slotAddr (s.sent % 4) = j - 4072 := by
      simp only [slotAddr_eq]
      omega
    rw [hbyte, hidx]
  · rw [filled_outside (by simp only [slotAddr_eq]; omega) (by simp only [slotAddr_eq]; omega),
      hi.buf k y hk (by omega) hy j hj]
    unfold bufByte
    rcases xs[k + 1]? with _ | z
    · rfl
    · simp only
      congr 1
      rw [eq_iff_iff]
      omega

/-- **`xstack_sendto` keeps the invariant.** The slot it fills and the header behind it belong to no
datagram that is still waiting, except that the header may hold the end of the one before. -/
theorem Inv.sends (hi : Inv xs s) (hall : ∀ x ∈ xs, x.buffer.length ≤ xstackDatagramSizeMax)
    (hx : xs[s.sent]? = some x) (hroom : s.sent + 1 < s.passed.length + 4) :
    Inv xs (step xs s .app) ∧ (step xs s .app).sent = s.sent + 1 ∧
      (step xs s .app).passed = s.passed := by
  have hle := hi.counts.le
  have hlen : x.buffer.length ≤ 4096 := hall x (List.mem_of_getElem? hx)
  have hfull : (s.sent % 4 + 1) % 4 ≠ s.passed.length % 4 := by
    rw [Ne, hi.counts.full_iff]
    omega
  obtain ⟨m', h1, h2, h3⟩ := sendto_spec hlen hi.cb hfull
  have hslot : ∀ t i, m' (slotAddr t + i) =
      filled s.mem (slotAddr (s.sent % 4)) x (slotAddr t + i) := fun t i =>
    h3 _ (by rw [slotAddr_eq]; omega)
  have hstep : step xs s .app = { s with mem := m', sent := s.sent + 1 } := by
    simp only [step, hx, h1]
  rw [hstep]
  refine ⟨⟨⟨Nat.le_succ_of_le hle, hroom⟩, h2, fun t ht j hj => ?_, fun k y hk hks hy j hj => ?_,
    fun k y hk hks hy j hj => ?_, (List.getElem?_eq_some_iff.mp hx).1⟩, rfl, rfl⟩
  · show m' _ = _
    rw [Nat.add_assoc, hslot, ← Nat.add_assoc]
    exact hi.filled_size hx hlen ht hj
  · show m' _ = _
    rw [Nat.add_assoc, hslot, ← Nat.add_assoc]
    exact hi.filled_dest hx hlen hroom hk hks hy hj
  · show m' _ = _
    rw [Nat.add_assoc, hslot, ← Nat.add_assoc]
    exact hi.filled_bufByte hx hlen hroom hk hks hy (hall y (List.mem_of_getElem? hy)) hj

end Sends

/-! ### The daemon's step -/

/-- The calls after the `d`-th do not reach the size field of its slot as long as it waits. -/
theorem spill_window {xs : List SendCall} {d : ℕ} (j : ℕ) : ∀ {c : ℕ}, d ≤ c → c < d + 4 →
    c ≤ xs.length → spill (d % 4) j 0 0 (xs.take c) = spill (d % 4) j 0 0 (xs.take d)
  | 0, h, _, _ => by rw [Nat.le_zero.mp h]
  | c + 1, h, hlt, hlen => by
    by_cases hc : d = c + 1
    · rw [hc]
    · rw [spill_take_succ (List.getElem?_eq_getElem hlen), if_neg (by omega)]
      exact spill_window j (by omega) (by omega) (by omega)

/-- The daemon stores `m_read`: the slots are as before, and the oldest datagram is gone. -/
theorem Inv.discards {xs : List SendCall} {s : St} (hi : Inv xs s) (v : XstackDgram)
    (hlt : s.passed.length < s.sent) :
    Inv xs { s with
      mem := QueueCb.store s.mem egressQaddr ⟨4096, 4, s.sent % 4, (s.passed.length + 1) % 4⟩
      passed := s.passed ++ [v] } := by
  have hc := hi.counts.lt
  have hmem : ∀ i, egressDaddr ≤ i → QueueCb.store s.mem egressQaddr
      ⟨4096, 4, s.sent % 4, (s.passed.length + 1) % 4⟩ i = s.mem i := fun i h =>
    queueCb_store_outside (Or.inr h)
  have hl : (s.passed ++ [v]).length = s.passed.length + 1 := by simp
  refine ⟨?_, ?_, fun t ht j hj => ?_, fun k y hk hks hy j hj => ?_,
    fun k y hk hks hy j hj => ?_, hi.sentLe⟩
  · show Counts 4 (s.passed ++ [v]).length s.sent
    rw [hl]
    exact ⟨hlt, by omega⟩
  · show QueueCb.load _ _ = ⟨4096, 4, s.sent % 4, (s.passed ++ [v]).length % 4⟩
    rw [hl, queueCb_load_store (show 4096 < 2 ^ 64 by decide) (show 4 < 2 ^ 64 by decide)
      (lt_trans (Nat.mod_lt _ (by decide)) (by decide))
      (lt_trans (Nat.mod_lt _ (by decide)) (by decide))]
  · exact (hmem _ (by rw [slotAddr_eq]; omega)).trans (hi.size t ht j hj)
  · have hk' : (s.passed ++ [v]).length ≤ k := hk
    exact (hmem _ (by rw [slotAddr_eq]; omega)).trans (hi.dest k y (by omega) hks hy j hj)
  · have hk' : (s.passed ++ [v]).length ≤ k := hk
    exact (hmem _ (by rw [slotAddr_eq]; omega)).trans (hi.buf k y (by omega) hks hy j hj)

/-- What stands in the slot of the oldest datagram. -/
theorem Inv.passedAt {xs : List SendCall} {s : St} {x : SendCall} (hi : Inv xs s)
    (hlt : s.passed.length < s.sent) (hx : xs[s.passed.length]? = some x) :
    PassedAt xs s.passed.length s.sent x
      (XstackDgram.load s.mem (slotAddr (s.passed.length % 4))) := by
  refine ⟨sockAddr_load_bytes (hi.dest _ x le_rfl hlt hx), ?_,
    fun j hj => hi.buf _ x le_rfl hlt hx j hj⟩
  show (rd64 s.mem (slotAddr (s.passed.length % 4) + 16)).toNat = _
  unfold leftover
  rw [← rd64_shift]
  congr 1
  refine rd64_congr fun j hj => ?_
  rw [Nat.zero_add, ← spill_window j hi.counts.le hi.counts.lt hi.sentLe]
  exact hi.size _ (Nat.mod_lt _ (by decide)) j hj

/-- **A pass of the daemon** takes the oldest datagram, with the size that its slot happens to
hold. -/
theorem Inv.passes {xs : List SendCall} {s : St} (hi : Inv xs s)
    (hlt : s.passed.length < s.sent) :
    ∃ v x, xs[s.passed.length]? = some x ∧ PassedAt xs s.passed.length s.sent x v ∧
      (step xs s .daemon).passed = s.passed ++ [v] ∧ (step xs s .daemon).sent = s.sent ∧
      Inv xs (step xs s .daemon) := by
  have hne : s.passed.length % 4 ≠ s.sent % 4 := by
    rw [Ne, hi.counts.empty_iff]
    omega
  obtain ⟨x, hx⟩ : ∃ x, xs[s.passed.length]? = some x :=
    ⟨_, List.getElem?_eq_getElem (lt_of_lt_of_le hlt hi.sentLe)⟩
  set v := XstackDgram.load s.mem (slotAddr (s.passed.length % 4))
  have hstep : step xs s .daemon = { s with
      mem := QueueCb.store s.mem egressQaddr
        ⟨4096, 4, s.sent % 4, (s.passed.length + 1) % 4⟩
      passed := s.passed ++ [v] } := by
    have hempty : (s.sent % 4 == s.passed.length % 4) = false := by
      simpa using Ne.symm hne
    simp only [step, egressStep, hi.cb, queueIsempty, hempty, queuePeek, if_neg hne, queueDiscard]
    rw [Counts.next]
    rfl
  rw [hstep]
  exact ⟨v, x, hx, hi.passedAt hlt hx, rfl, rfl, hi.discards v hlt⟩

/-! ### Runs -/

theorem inv_start (xs : List SendCall) (pid : UInt32) : Inv xs (start pid) := by
  have hd : egressDaddr = 16456 := rfl
  have hq : egressQaddr = 16424 := rfl
  have hg : ingressQaddr = 8 := rfl
  refine ⟨⟨le_rfl, Nat.succ_pos 3⟩, ?_, fun t _ j _ => ?_, fun k x _ hk => absurd hk (Nat.not_lt_zero k),
    fun k x _ hk => absurd hk (Nat.not_lt_zero k), Nat.zero_le _⟩
  · exact queueCb_load_store (by decide) (by decide) (by decide) (by decide)
  · show xstackInit pid (slotAddr t + 16 + j) = 0
    have ha : 16456 ≤ slotAddr t + 16 + j := by rw [slotAddr_eq]; omega
    unfold xstackInit
    rw [queueCb_store_outside (by omega), queueCb_store_outside (by omega), put_outside]
    simp only [List.length_append, length_le32]
    omega

/-- The invariant of a run: what was passed on so far was taken from such a memory. -/
structure RunInv (xs : List SendCall) (s : St) : Prop where
  inv : Inv xs s
  passed : ∀ (k : ℕ) (v : XstackDgram), s.passed[k]? = some v →
    ∃ x c, xs[k]? = some x ∧ PassedAt xs k c x v

theorem RunInv.snoc {xs : List SendCall} {s s' : St} {v : XstackDgram} {x : SendCall} {c : ℕ}
    (hi : RunInv xs s) (hinv : Inv xs s') (hs : s'.passed = s.passed ++ [v])
    (hx : xs[s.passed.length]? = some x) (hv : PassedAt xs s.passed.length c x v) :
    RunInv xs s' := by
  refine ⟨hinv, fun k w hw => ?_⟩
  rw [hs] at hw
  rcases getElem?_snoc hw with ⟨-, hw⟩ | ⟨rfl, rfl⟩
  · exact hi.passed k w hw
  · exact ⟨x, c, hx, hv⟩

section Runs
variable {xs : List SendCall} (hall : ∀ x ∈ xs, x.buffer.length ≤ xstackDatagramSizeMax)
include hall

theorem step_inv {s : St} (t : Turn) (hi : RunInv xs s) : RunInv xs (step xs s t) := by
  have hle := hi.inv.counts.le
  have hlt := hi.inv.counts.lt
  rcases t with _ | _
  · rcases hx : xs[s.sent]? with _ | x
    · have hstep : step xs s .app = s := by simp only [step, hx]
      rw [hstep]
      exact hi
    · by_cases hroom : s.sent + 1 < s.passed.length + 4
      · obtain ⟨h1, -, h3⟩ := hi.inv.sends hall hx hroom
        exact ⟨h1, fun k v hv => hi.passed k v (by rwa [h3] at hv)⟩
      · have hfull : (s.sent % 4 + 1) % 4 = s.passed.length % 4 :=
          hi.inv.counts.full_iff.mpr (by omega)
        have hlen : ¬ x.buffer.length > xstackDatagramSizeMax :=
          not_lt.mpr (hall x (List.mem_of_getElem? hx))
        have hstep : step xs s .app = s := by
          simp only [step, hx, xstackSendto, if_neg hlen, hi.inv.cb, queueAlloc, if_pos hfull]
        rw [hstep]
        exact hi
  · by_cases hd : s.passed.length < s.sent
    · obtain ⟨v, x, hx, hv, h1, -, h3⟩ := hi.inv.passes hd
      exact hi.snoc h3 h1 hx hv
    · have hempty : (s.sent % 4 == s.passed.length % 4) = true := by
        rw [beq_iff_eq, show s.sent = s.passed.length by omega]
      have hstep : step xs s .daemon = s := by
        simp only [step, egressStep, hi.inv.cb, queueIsempty, hempty, if_true]
      rw [hstep]
      exact hi

theorem run_inv : ∀ (turns : List Turn) {s : St}, RunInv xs s → RunInv xs (run xs s turns)
  | [], _, hi => hi
  | t :: turns, _, hi => run_inv turns (step_inv hall t hi)

/-- Call and pass in turn, `n` times. -/
def inTurn : ℕ → List Turn
  | 0 => []
  | n + 1 => inTurn n ++ [.app, .daemon]

theorem run_inTurn (pid : UInt32) : ∀ {n : ℕ}, n ≤ xs.length →
    (run xs (start pid) (inTurn n)).sent = n ∧ (run xs (start pid) (inTurn n)).passed.length = n
  | 0, _ => ⟨rfl, rfl⟩
  | n + 1, hn => by
    obtain ⟨h1, h2⟩ := run_inTurn pid (n := n) (by omega)
    have hi := (run_inv hall (inTurn n) (s := start pid) ⟨inv_start xs pid, by simp [start]⟩).inv
    rw [inTurn, run, List.foldl_append]
    show (step xs (step xs (run xs (start pid) (inTurn n)) .app) .daemon).sent = _ ∧
      (step xs (step xs (run xs (start pid) (inTurn n)) .app) .daemon).passed.length = _
    set s := run xs (start pid) (inTurn n)
    obtain ⟨x, hx⟩ : ∃ x, xs[s.sent]? = some x := ⟨_, List.getElem?_eq_getElem (by omega)⟩
    obtain ⟨hi1, hs1, hp1⟩ := hi.sends hall hx (by omega)
    obtain ⟨v, y, -, -, hp2, hs2, -⟩ := hi1.passes (by rw [hp1]; omega)
    rw [hs2, hs1, hp2, hp1, List.length_append, List.length_singleton]
    omega

omit hall in
/-- What a pass that delivers the `k`-th datagram says about its length. -/
theorem Inv.delivered {s : St} {k : ℕ} {x : SendCall} (hi : Inv xs s) (hk : s.passed.length = k)
    (hlt : k < s.sent) (hx : xs[k]? = some x) (hd : Delivers xs (step xs s .daemon).passed) :
    x.buffer.length = leftover xs k := by
  subst hk
  obtain ⟨v, y, hy, hv, hp, -, -⟩ := hi.passes hlt
  obtain rfl : y = x := Option.some.inj (hy.symm.trans hx)
  obtain ⟨z, hz, -, hsize, -⟩ := hd s.passed.length v (by rw [hp]; simp)
  obtain rfl : z = y := Option.some.inj (hz.symm.trans hy)
  exact hsize.symm.trans hv.size

/-- A datagram that arrives has the length that its slot happens to hold. -/
theorem length_of_delivers {pid : UInt32}
    (hd : ∀ turns, Delivers xs (run xs (start pid) turns).passed) {k : ℕ} {x : SendCall}
    (hx : xs[k]? = some x) : x.buffer.length = leftover xs k := by
  have hk := (List.getElem?_eq_some_iff.mp hx).1
  obtain ⟨h1, h2⟩ := run_inTurn hall pid hk.le
  have hi := (run_inv hall (inTurn k) (s := start pid) ⟨inv_start xs pid, by simp [start]⟩).inv
  have hd1 := hd (inTurn k ++ [.app, .daemon])
  simp only [run, List.foldl_append, List.foldl_cons, List.foldl_nil] at hd1
  change Delivers xs (step xs (step xs (run xs (start pid) (inTurn k)) .app) .daemon).passed at hd1
  obtain ⟨hi1, hs1, hp1⟩ := hi.sends hall (by rw [h1]; exact hx) (by omega)
  exact hi1.delivered (by rw [hp1, h2]) (by omega) hx hd1

/-- **Only empty datagrams arrive.** A length other than zero would have to be left in the slot by
an earlier datagram, which was itself not empty. -/
theorem empty_of_delivers {pid : UInt32}
    (hd : ∀ turns, Delivers xs (run xs (start pid) turns).passed) (k : ℕ) :
    ∀ x, xs[k]? = some x → x.buffer = [] := by
  induction k using Nat.strong_induction_on with
  | _ k ih =>
    intro x hx
    have hbefore : ∀ y ∈ xs.take k, y.buffer.length ≤ 4088 := by
      intro y hy
      obtain ⟨i, hi, rfl⟩ := List.mem_iff_getElem.mp hy
      have hik : i < k := lt_of_lt_of_le hi (List.length_take_le k xs)
      have hget : xs[i]? = some (xs.take k)[i] := by
        rw [← List.getElem?_take_of_lt hik, List.getElem?_eq_getElem hi]
      rw [ih i hik _ hget]
      exact Nat.zero_le _
    have hlen := length_of_delivers hall hd hx
    rw [leftover_eq_zero hbefore] at hlen
    exact List.eq_nil_of_length_eq_zero hlen

end Runs

/-- **What arrives of datagrams that stay in their slots**: in order, each with its destination and
its bytes, and with the size zero. -/
theorem passed_short {xs : List SendCall} (pid : UInt32) (hshort : ∀ x ∈ xs, x.buffer.length ≤ 4072)
    (turns : List Turn) {k : ℕ} {v : XstackDgram}
    (hv : (run xs (start pid) turns).passed[k]? = some v) :
    ∃ x, xs[k]? = some x ∧ v.dstaddr = x.destAddr ∧ v.bufSize = 0 ∧
      ∀ j < x.buffer.length, v.buf j = x.buffer.getD j 0 := by
  have hall : ∀ x ∈ xs, x.buffer.length ≤ xstackDatagramSizeMax := fun x hx =>
    (hshort x hx).trans (by decide)
  have hi := run_inv hall turns (s := start pid) ⟨inv_start xs pid, by simp [start]⟩
  obtain ⟨x, c, hx, hp⟩ := hi.passed k v hv
  have hlen := hshort x (List.mem_of_getElem? hx)
  refine ⟨x, hx, hp.dest, ?_, fun j hj => ?_⟩
  · rw [hp.size]
    exact leftover_eq_zero fun y hy => (hshort y (List.mem_of_mem_take hy)).trans (by decide)
  · rw [hp.buf j hj]
    exact bufByte_of_not (by omega)

/-- **The egress path delivers what was sent exactly when every datagram is empty.** Nothing writes
the size field, and what could be found there instead only a datagram that is not empty leaves. -/
theorem delivers_iff (xs : List SendCall) (pid : UInt32)
    (hall : ∀ x ∈ xs, x.buffer.length ≤ xstackDatagramSizeMax) :
    (∀ turns, Delivers xs (run xs (start pid) turns).passed) ↔ ∀ x ∈ xs, x.buffer = [] := by
  constructor
  · intro hd x hx
    obtain ⟨k, hk⟩ := List.mem_iff_getElem?.mp hx
    exact empty_of_delivers hall hd k x hk
  · intro hempty turns k v hv
    have hzero : ∀ x ∈ xs, x.buffer.length = 0 := fun x hx => by rw [hempty x hx]; rfl
    obtain ⟨x, hx, hdst, hsize, -⟩ :=
      passed_short pid (fun x hx => by rw [hzero x hx]; exact Nat.zero_le _) turns hv
    refine ⟨x, hx, hdst, hsize.trans (hzero x (List.mem_of_getElem? hx)).symm, fun i hi => ?_⟩
    rw [hsize] at hi
    exact absurd hi (Nat.not_lt_zero i)

/-- Empty datagrams arrive. -/
theorem delivers_iff_empty :
    (∀ x ∈ ([⟨[], ⟨5, 7⟩⟩, ⟨[], ⟨6, 8⟩⟩] : List SendCall), x.buffer.length ≤ xstackDatagramSizeMax) ∧
    ∀ turns, Delivers [⟨[], ⟨5, 7⟩⟩, ⟨[], ⟨6, 8⟩⟩]
      (run [⟨[], ⟨5, 7⟩⟩, ⟨[], ⟨6, 8⟩⟩] (start 1) turns).passed := by
  have hempty : ∀ x ∈ ([⟨[], ⟨5, 7⟩⟩, ⟨[], ⟨6, 8⟩⟩] : List SendCall), x.buffer = [] := by simp
  have hall : ∀ x ∈ ([⟨[], ⟨5, 7⟩⟩, ⟨[], ⟨6, 8⟩⟩] : List SendCall),
      x.buffer.length ≤ xstackDatagramSizeMax := by
    intro x hx
    rw [hempty x hx]
    exact Nat.zero_le _
  exact ⟨hall, (delivers_iff _ 1 hall).mpr hempty⟩

/-- A datagram of three bytes arrives with the size zero. -/
theorem sendto_size_lost : ¬ ∀ (xs : List SendCall) (pid : UInt32),
    (∀ x ∈ xs, x.buffer.length ≤ xstackDatagramSizeMax) →
      ∀ turns, Delivers xs (run xs (start pid) turns).passed := by
  intro h
  have hall : ∀ x ∈ ([⟨[1, 2, 3], ⟨5, 7⟩⟩] : List SendCall),
      x.buffer.length ≤ xstackDatagramSizeMax := by simp [xstackDatagramSizeMax]
  exact absurd (empty_of_delivers hall (h _ 1 hall) 0 _ rfl) (by decide)

end Xstack.Sock.Egress
