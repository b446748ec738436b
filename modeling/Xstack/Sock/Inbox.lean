import Xstack.Lib.Ring
import Xstack.Sock.Fifo

/-! # The datagrams that wait for a client

The ingress queue in shared memory as a list of datagrams, call by call: `xstack_sock_dgram_input` appends
(`Waiting.input`), `xstack_recvfrom` takes the first one (`Waiting.recvfrom`), and the egress half of the
memory is not part of it (`Waiting.congr`, `sendto_below`, `egressStep_below`). -/

namespace Xstack.Sock.Inbox

open Xstack.Config Xstack.Lib.Bytes Xstack.Lib.Ring Xstack.Sock.Queue Xstack.Sock.Fifo

/-- The address of a slot of the ingress queue. -/
def slotAddr (k : ℕ) : ℕ := ingressDaddr + k % 4 * 4096

/-- The bytes of a slot behind the header of the datagram. -/
def dgramMax : ℕ := xstackDatagramSizeMax - dgramHdrSize

/-- **The memory holds the datagrams `l`,** from slot `d` on. -/
structure Waiting (sockAddr : SockAddr) (m : Buf) (d : ℕ) (l : List Input) : Prop where
  counts : Counts 4 d (d + l.length)
  cb : QueueCb.load m ingressQaddr = ⟨4096, 4, (d + l.length) % 4, d % 4⟩
  fits : ∀ x ∈ l, x.buf.length ≤ dgramMax
  dgram : ∀ k x, l[k]? = some x → HoldsAt m (slotAddr (d + k)) (x.bytes sockAddr)

variable {sockAddr srcaddr destAddr : SockAddr} {m m' : Buf} {d : ℕ} {l : List Input} {x : Input}
  {buf buffer : List UInt8} {r : Recvfrom}

theorem length_bytes (x : Input) : (x.bytes sockAddr).length = 24 + x.buf.length :=
  length_dgramBytes _ _ _

/-- A slot is in the ingress half of the memory. -/
theorem slotAddr_bounds (k : ℕ) : 40 ≤ slotAddr k ∧ slotAddr k + 4096 ≤ egressQaddr := by
  have hmod := Nat.mod_lt k (show 0 < 4 by decide)
  have hg : ingressDaddr = 40 := rfl
  have he : egressQaddr = 16424 := rfl
  unfold slotAddr
  omega

theorem waiting_init (sockAddr : SockAddr) (pid : UInt32) : Waiting sockAddr (xstackInit pid) 0 [] where
  counts := ⟨le_rfl, Nat.succ_pos 3⟩
  cb := by
    have hout : QueueCb.load (xstackInit pid) ingressQaddr = QueueCb.load (QueueCb.store
        (put (fun _ => 0) 0 (le32 pid ++ le32 0)) ingressQaddr
        (queueCreate xstackDatagramSizeMax xstackDatagramBufSize)) ingressQaddr :=
      queueCb_load_congr fun i hi => queueCb_store_outside (Or.inl (by
        have he : egressQaddr = 16424 := rfl
        have hg : ingressQaddr = 8 := rfl
        omega))
    rw [hout]
    exact queueCb_load_store (by decide) (by decide) (by decide) (by decide)
  fits := by simp
  dgram := by simp

/-- Only the ingress half of the memory matters. -/
theorem Waiting.congr (h : Waiting sockAddr m d l) (hm : ∀ i < egressQaddr, m' i = m i) :
    Waiting sockAddr m' d l where
  counts := h.counts
  cb := by
    rw [← h.cb]
    have he : egressQaddr = 16424 := rfl
    have hg : ingressQaddr = 8 := rfl
    exact queueCb_load_congr fun i hi => hm _ (by omega)
  fits := h.fits
  dgram k x hx j hj := by
    have hslot := slotAddr_bounds (d + k)
    have hfit := h.fits x (List.mem_of_getElem? hx)
    have hlen : (x.bytes sockAddr).length = 24 + x.buf.length := length_bytes x
    have hmax : dgramMax = 4072 := rfl
    rw [hm _ (by omega)]
    exact h.dgram k x hx j hj

/-- What `queue_commit` and `queue_discard` leave. -/
theorem load_store (m : Buf) (c d : ℕ) :
    QueueCb.load (QueueCb.store m ingressQaddr ⟨4096, 4, c % 4, d % 4⟩) ingressQaddr =
      ⟨4096, 4, c % 4, d % 4⟩ :=
  queueCb_load_store (show 4096 < 2 ^ 64 by decide) (show 4 < 2 ^ 64 by decide)
    (lt_trans (Nat.mod_lt _ (by decide)) (by decide)) (lt_trans (Nat.mod_lt _ (by decide)) (by decide))

/-- A control block is before the slots. -/
theorem store_cb_slot {cb : QueueCb} {k j : ℕ} :
    QueueCb.store m ingressQaddr cb (slotAddr k + j) = m (slotAddr k + j) := by
  have hslot := (slotAddr_bounds k).1
  have hg : ingressQaddr = 8 := rfl
  exact queueCb_store_outside (Or.inr (by omega))

/-- **`xstack_sock_dgram_input`** appends a datagram that fits its slot. -/
theorem Waiting.input (h : Waiting sockAddr m d l) (hfit : buf.length ≤ dgramMax)
    (hrun : xstackSockDgramInput m sockAddr srcaddr buf = some m') :
    Waiting sockAddr m' d (l ++ [⟨srcaddr, buf⟩]) := by
  have hmax : dgramMax = 4072 := rfl
  unfold xstackSockDgramInput at hrun
  obtain ⟨index, halloc, hrun⟩ := Option.bind_eq_some_iff.mp hrun
  rw [h.cb] at halloc
  unfold queueAlloc at halloc
  split_ifs at halloc with hfull
  obtain rfl : (d + l.length) % 4 * 4096 = index := Option.some.inj halloc
  have hroom : ¬ d + l.length + 1 = d + 4 := fun heq => hfull (h.counts.full_iff.mpr heq)
  have hlt := h.counts.lt
  set bytes := dgramBytes srcaddr sockAddr buf with hbytes
  have hblen : bytes.length = 24 + buf.length := length_dgramBytes _ _ _
  rw [exec_storesAt] at hrun
  have hslot := slotAddr_bounds (d + l.length)
  have hcb : QueueCb.load (put m (slotAddr (d + l.length)) bytes) ingressQaddr =
      ⟨4096, 4, (d + l.length) % 4, d % 4⟩ := by
    rw [← h.cb]
    have hg : ingressQaddr = 8 := rfl
    exact queueCb_load_congr fun i hi => put_outside (Or.inl (by omega))
  obtain rfl : QueueCb.store (put m (slotAddr (d + l.length)) bytes) ingressQaddr
      (queueCommit (QueueCb.load (put m (slotAddr (d + l.length)) bytes) ingressQaddr)) = m' :=
    Option.some.inj hrun
  have hcommit : queueCommit ⟨4096, 4, (d + l.length) % 4, d % 4⟩ =
      ⟨4096, 4, (d + l.length + 1) % 4, d % 4⟩ := by
    unfold queueCommit
    rw [Counts.next]
  rw [hcb, hcommit]
  refine ⟨?_, ?_, ?_, fun k x hx j hj => ?_⟩
  · rw [List.length_append, List.length_singleton]
    exact ⟨by omega, by omega⟩
  · rw [load_store, List.length_append, List.length_singleton, ← Nat.add_assoc]
  · simp only [List.mem_append, List.mem_singleton]
    rintro x (hx | rfl)
    · exact h.fits x hx
    · exact hfit
  · rw [store_cb_slot]
    rcases getElem?_snoc hx with ⟨hk, hx⟩ | ⟨rfl, rfl⟩
    · -- the slot of a datagram that waits is another one
      have hne : (d + k) % 4 ≠ (d + l.length) % 4 := slot_ne (by omega) (by omega)
      have hfits := h.fits x (List.mem_of_getElem? hx)
      have hlen : (x.bytes sockAddr).length = 24 + x.buf.length := length_bytes x
      have hdisj := slot_disjoint hne 4096
      rw [put_outside (by unfold slotAddr; omega)]
      exact h.dgram k x hx j hj
    · exact put_of_lt hj

/-- A full queue does not take a datagram. -/
theorem Waiting.full_iff (h : Waiting sockAddr m d l) :
    xstackSockDgramInput m sockAddr srcaddr buf = none ↔ l.length = 3 := by
  have hlt := h.counts.lt
  have hfull := h.counts.full_iff
  unfold xstackSockDgramInput
  rw [h.cb]
  unfold queueAlloc
  by_cases hc : ((d + l.length) % 4 + 1) % 4 = d % 4
  · rw [if_pos hc]
    have := hfull.mp hc
    exact iff_of_true rfl (by omega)
  · rw [if_neg hc]
    refine iff_of_false (fun hnone => by cases hnone) fun hlen => hc (hfull.mpr (by omega))

/-- The datagram in the first slot. -/
theorem Waiting.load (h : Waiting sockAddr m d (x :: l)) :
    (XstackDgram.load m (slotAddr d)).srcaddr = x.srcaddr ∧
    (XstackDgram.load m (slotAddr d)).bufSize = x.buf.length ∧
    ∀ n ≤ x.buf.length, slice (XstackDgram.load m (slotAddr d)).buf n = x.buf.take n := by
  have hmax : dgramMax = 4072 := rfl
  have hfit := h.fits x List.mem_cons_self
  have hd : HoldsAt m (slotAddr d) (x.bytes sockAddr) := h.dgram 0 x rfl
  refine ⟨?_, ?_, fun n hn => ?_⟩
  · exact sockAddr_load_bytes fun j hj => srcaddr_byte hd hj
  · have hrd : rd64 m (slotAddr d + 16) = UInt64.ofNat x.buf.length := by
      rw [← rd64_shift, ← rd64_le64 (UInt64.ofNat x.buf.length)]
      refine rd64_congr fun i hi => ?_
      rw [Nat.zero_add, ofBytes_of_lt (by rwa [length_le64])]
      exact bufSize_byte hd hi
    show (rd64 m (slotAddr d + 16)).toNat = x.buf.length
    rw [hrd, UInt64.toNat_ofNat', Nat.mod_eq_of_lt (by omega)]
  · refine List.ext_getElem (by rw [slice_length, List.length_take]; omega) fun i hi _ => ?_
    rw [slice_length] at hi
    have hbyte : m (slotAddr d + 24 + i) = x.buf.getD i 0 := buf_byte hd (by omega)
    rw [List.getElem_take]
    simp only [slice, List.getElem_map, List.getElem_range]
    show m (slotAddr d + 24 + i) = _
    rw [hbyte, List.getD_eq_getElem _ _ (by omega)]

/-- `xstack_recvfrom` waits for a datagram. -/
theorem Waiting.recvfrom_nil (h : Waiting sockAddr m d []) : xstackRecvfrom m r = none := by
  have hpeek : queuePeek (QueueCb.load m ingressQaddr) = none := by
    rw [h.cb]
    exact if_pos rfl
  unfold xstackRecvfrom
  dsimp only
  rw [hpeek]
  rfl

/-- **`xstack_recvfrom`** returns the first datagram, and takes it unless it peeks. -/
theorem Waiting.recvfrom (h : Waiting sockAddr m d (x :: l)) : ∃ m', xstackRecvfrom m r = some (answer r x, m') ∧
    ∃ d', Waiting sockAddr m' d' (if r.peek then x :: l else l) := by
  have hlt := h.counts.lt
  have hne : d % 4 ≠ (d + (x :: l).length) % 4 := fun heq => by
    have := h.counts.empty_iff.mp heq
    simp at this
  have hpeek : queuePeek (QueueCb.load m ingressQaddr) = some (d % 4 * 4096) := by
    rw [h.cb]
    exact if_neg hne
  obtain ⟨hsrc, hsize, hbuf⟩ := h.load
  have hmax : dgramMax = 4072 := rfl
  have hfit := h.fits x List.mem_cons_self
  have hmin : smin r.length (XstackDgram.load m (slotAddr d)).bufSize = min r.length x.buf.length := by
    rw [hsize]
    unfold smin
    rw [Nat.mod_eq_of_lt (by omega)]
  have hanswer : (⟨if r.address then some (XstackDgram.load m (slotAddr d)).srcaddr else none,
      slice (XstackDgram.load m (slotAddr d)).buf (smin r.length (XstackDgram.load m (slotAddr d)).bufSize)⟩ :
      Received) = answer r x := by
    rw [hmin, hsrc, hbuf _ (min_le_right _ _), ← List.take_eq_take_min]
    rfl
  have hdiscard : (queueDiscard ⟨4096, 4, (d + (x :: l).length) % 4, d % 4⟩ 1).1 =
      ⟨4096, 4, (d + (x :: l).length) % 4, (d + 1) % 4⟩ := by
    unfold queueDiscard
    rw [if_neg hne]
    exact congrArg (QueueCb.mk 4096 4 _) (Counts.next d)
  have hrun : xstackRecvfrom m r = some (answer r x, if r.peek then m else
      QueueCb.store m ingressQaddr ⟨4096, 4, (d + (x :: l).length) % 4, (d + 1) % 4⟩) := by
    unfold xstackRecvfrom
    dsimp only
    rw [hpeek, Option.bind_eq_bind, Option.bind_some, h.cb, hdiscard]
    show (if r.peek = true then _ else _) = _
    rw [← hanswer]
    split_ifs <;> rfl
  refine ⟨_, hrun, ?_⟩
  by_cases hp : r.peek
  · rw [if_pos hp, if_pos hp]
    exact ⟨d, h⟩
  · rw [if_neg hp, if_neg hp]
    have hlen : d + (x :: l).length = d + 1 + l.length := by
      rw [List.length_cons]
      omega
    rw [hlen]
    refine ⟨d + 1, ⟨by omega, by omega⟩, load_store _ _ _, fun y hy => h.fits y (List.mem_cons_of_mem x hy),
      fun k y hy j hj => ?_⟩
    rw [store_cb_slot, Nat.add_assoc, Nat.add_comm 1 k]
    exact h.dgram (k + 1) y hy j hj

/-! ### The egress half -/

/-- `xstack_sendto` stores nothing below its queue. -/
theorem sendto_below (h : xstackSendto m buffer destAddr = .sent m') : ∀ i < egressQaddr, m' i = m i := by
  intro i hi
  have hd : egressDaddr = egressQaddr + 32 := rfl
  unfold xstackSendto at h
  split_ifs at h
  rcases halloc : queueAlloc (QueueCb.load m egressQaddr) with _ | index
  · simp only [halloc] at h
    cases h
  · simp only [halloc] at h
    rw [← Sendto.sent.inj h, queueCb_store_outside (Or.inl hi)]
    refine exec_outside fun p hp hpi => ?_
    unfold sendtoStores at hp
    simp only [List.mem_append] at hp
    rcases hp with (hp | hp) | hp
    · have := (mem_storesAt hp).1
      omega
    · have := (mem_storesAt hp).1
      omega
    · have := (mem_storesAt hp).1
      omega

/-- So does the egress thread. -/
theorem egressStep_below (m : Buf) : ∀ i < egressQaddr, (egressStep m).2 i = m i := by
  intro i hi
  unfold egressStep
  dsimp only
  split_ifs
  · rfl
  · rcases queuePeek (QueueCb.load m egressQaddr) with _ | index
    · rfl
    · exact queueCb_store_outside (Or.inl hi)

end Xstack.Sock.Inbox
