import Xstack.Udp.Bind

/-! # Datagrams and their slots

A slot has `XSTACK_DATAGRAM_SIZE_MAX` bytes and holds the header of the datagram too, so the bytes
themselves have 24 bytes less. `xstack_sendto` compares the length with the size of the whole slot;
`udp_input` does not compare it at all.

* `DgramCall.stores`: the slot that a call gets from `queue_alloc`, and its stores to memory.
* `sendto_stores`, `udpInput_stores`: they are what the modelled functions store.
* `InSlot`: the stores stay in the slot, so nothing else in memory changes.
* `inSlot_iff`: exactly the datagrams of at most 4072 bytes stay in their slot. -/

namespace Xstack.Sock.Slot

open Xstack.Config Xstack.Lib.Bytes Xstack.Lib.Lex Xstack.Ip.Header Xstack.Sock.Queue Xstack.Udp

/-- The calls that put a datagram into a queue. -/
inductive DgramCall
  /-- `xstack_sendto`. -/
  | sendto (buffer : List UInt8) (destAddr : SockAddr)
  /-- `udp_input` of `bsize` bytes from the address `ipSrc`, which calls
  `xstack_sock_dgram_input`. -/
  | udpInput (ipSrc : InAddr) (payload : Buf) (bsize : ℕ)

/-- The size of the datagram without its headers. -/
def DgramCall.size : DgramCall → ℕ
  | .sendto buffer _ => buffer.length
  | .udpInput _ _ bsize => bsize - udpHdrSize

/-- What `udp_input` passes to `xstack_sock_dgram_input`: the source address and the bytes. -/
def udpDgram (ipSrc : InAddr) (payload : Buf) (bsize : ℕ) : SockAddr × List UInt8 :=
  (⟨ipSrc, (udpNtoh (UdpHdr.load payload)).udpSport.toUInt32⟩,
    slice (shift payload udpHdrSize) (bsize - udpHdrSize))

/-- The address of the slot and the stores for the datagram; `none` when the call returns an error
or still waits. -/
def DgramCall.stores (m : Buf) (sockAddr : SockAddr) : DgramCall → Option (ℕ × List (ℕ × UInt8))
  | .sendto buffer destAddr =>
    if buffer.length > xstackDatagramSizeMax then none
    else (queueAlloc (QueueCb.load m egressQaddr)).map fun index =>
      (egressDaddr + index, sendtoStores (egressDaddr + index) buffer destAddr)
  | .udpInput ipSrc payload bsize =>
    if bsize < udpHdrSize then none
    else (queueAlloc (QueueCb.load m ingressQaddr)).map fun index =>
      (ingressDaddr + index, storesAt (ingressDaddr + index)
        (dgramBytes (udpDgram ipSrc payload bsize).1 sockAddr (udpDgram ipSrc payload bsize).2))

/-- The stores are those of the modelled functions. -/
theorem sendto_stores {m : Buf} {sockAddr : SockAddr} {buffer : List UInt8} {destAddr : SockAddr}
    {slot : ℕ} {st : List (ℕ × UInt8)}
    (h : (DgramCall.sendto buffer destAddr).stores m sockAddr = some (slot, st)) :
    xstackSendto m buffer destAddr = .sent (QueueCb.store (exec m st) egressQaddr
      (queueCommit (QueueCb.load (exec m st) egressQaddr))) := by
  simp only [DgramCall.stores] at h
  by_cases hlen : buffer.length > xstackDatagramSizeMax
  · rw [if_pos hlen] at h
    exact absurd h (by simp)
  · rw [if_neg hlen] at h
    obtain ⟨index, hindex, hst⟩ := Option.map_eq_some_iff.mp h
    obtain ⟨-, rfl⟩ := Prod.mk.inj hst
    unfold xstackSendto
    simp only [if_neg hlen, hindex]

theorem dgramInput_stores {m : Buf} {sockAddr : SockAddr} {ipSrc : InAddr} {payload : Buf}
    {bsize slot : ℕ} {st : List (ℕ × UInt8)}
    (h : (DgramCall.udpInput ipSrc payload bsize).stores m sockAddr = some (slot, st)) :
    udpHdrSize ≤ bsize ∧ xstackSockDgramInput m sockAddr (udpDgram ipSrc payload bsize).1
        (udpDgram ipSrc payload bsize).2 =
      some (QueueCb.store (exec m st) ingressQaddr
        (queueCommit (QueueCb.load (exec m st) ingressQaddr))) := by
  simp only [DgramCall.stores] at h
  by_cases hlen : bsize < udpHdrSize
  · rw [if_pos hlen] at h
    exact absurd h (by simp)
  · rw [if_neg hlen] at h
    obtain ⟨index, hindex, hst⟩ := Option.map_eq_some_iff.mp h
    obtain ⟨-, rfl⟩ := Prod.mk.inj hst
    refine ⟨not_lt.mp hlen, ?_⟩
    unfold xstackSockDgramInput
    rw [hindex]
    rfl

/-- `udp_input` hands `xstack_sock_dgram_input` what the bytes at the offset `o` say. -/
theorem udpDgram_shift (ipHdr : IpHdr) (b : Buf) (o bsize : ℕ) :
    udpDgram ipHdr.ipSrc (shift b o) bsize = (Bind.srcOf ipHdr b o, Bind.dataOf b o bsize) := by
  rw [Bind.dataOf_eq]
  rfl

/-- `udp_input` for the socket that it finds: the queue of that socket gets these stores. -/
theorem udpInput_stores {mc : Memcmp} {t : UdpTable} {ipHdr : IpHdr} {b : Buf} {o bsize i slot : ℕ}
    {st : List (ℕ × UInt8)} (hsize : bsize - udpHdrSize ≤ ipMaxBytes)
    (hfind : t.findUdpSocket mc (Bind.dstOf ipHdr b o) = some (some i))
    (h : (DgramCall.udpInput ipHdr.ipSrc (shift b o) bsize).stores (t.sock i).shmem
      (t.sock i).sockAddr = some (slot, st)) :
    t.udpInput mc ipHdr b o bsize = some (0,
      { t with sock := Function.update t.sock i { t.sock i with
        shmem := QueueCb.store (exec (t.sock i).shmem st) ingressQaddr
          (queueCommit (QueueCb.load (exec (t.sock i).shmem st) ingressQaddr)) } },
      Bind.swapped b o) := by
  obtain ⟨hhdr, hin⟩ := dgramInput_stores h
  rw [udpDgram_shift] at hin
  rw [Bind.udpInput_found hhdr hfind, Bind.handTo, if_neg (not_lt.mpr hsize), hin, Option.map_some]

/-- **The datagram stays in its slot**: every byte is stored inside it, and the stores change
nothing else. -/
def InSlot (m : Buf) (slot : ℕ) (st : List (ℕ × UInt8)) : Prop :=
  (∀ p ∈ st, slot ≤ p.1 ∧ p.1 < slot + xstackDatagramSizeMax) ∧
    ∀ a, a < slot ∨ slot + xstackDatagramSizeMax ≤ a → exec m st a = m a

theorem inSlot_of_mem {m : Buf} {slot : ℕ} {st : List (ℕ × UInt8)}
    (h : ∀ p ∈ st, slot ≤ p.1 ∧ p.1 < slot + xstackDatagramSizeMax) : InSlot m slot st := by
  refine ⟨h, fun a ha => exec_outside fun p hp heq => ?_⟩
  have := h p hp
  omega

theorem last_mem_storesAt : ∀ {l : List UInt8} {o : ℕ}, l ≠ [] →
    ∃ x, (o + l.length - 1, x) ∈ storesAt o l
  | [], _, h => absurd rfl h
  | [x], o, _ => ⟨x, by simp [storesAt]⟩
  | x :: y :: l, o, _ => by
    obtain ⟨z, hz⟩ := last_mem_storesAt (l := y :: l) (o := o + 1) (by simp)
    refine ⟨z, List.mem_cons_of_mem _ ?_⟩
    have hlen : o + (x :: y :: l).length - 1 = o + 1 + (y :: l).length - 1 := by
      simp only [List.length_cons]
      omega
    rw [hlen]
    exact hz

theorem mem_sendtoStores {dgram : ℕ} {buffer : List UInt8} {destAddr : SockAddr} {p : ℕ × UInt8}
    (h : p ∈ sendtoStores dgram buffer destAddr) :
    dgram ≤ p.1 ∧ (p.1 < dgram + 16 ∨ p.1 < dgram + dgramHdrSize + buffer.length) := by
  simp only [sendtoStores, List.mem_append] at h
  rcases h with (h | h) | h
  · have := mem_storesAt h
    rw [List.length_replicate] at this
    omega
  · have := mem_storesAt h
    rw [length_sockAddr] at this
    omega
  · have := mem_storesAt h
    unfold dgramHdrSize at this ⊢
    omega

theorem size_le_of_inSlot {m : Buf} {sockAddr : SockAddr} {c : DgramCall} {slot : ℕ}
    {st : List (ℕ × UInt8)} (h : c.stores m sockAddr = some (slot, st)) (hin : InSlot m slot st) :
    dgramHdrSize + c.size ≤ xstackDatagramSizeMax := by
  have hmax : xstackDatagramSizeMax = 4096 := rfl
  have hhdr : dgramHdrSize = 24 := rfl
  rcases c with ⟨buffer, destAddr⟩ | ⟨ipSrc, payload, bsize⟩ <;> simp only [DgramCall.stores] at h
  · split_ifs at h
    obtain ⟨index, -, hst⟩ := Option.map_eq_some_iff.mp h
    obtain ⟨rfl, rfl⟩ := Prod.mk.inj hst
    by_cases hb : buffer = []
    · rw [hb]
      show dgramHdrSize + 0 ≤ xstackDatagramSizeMax
      omega
    · obtain ⟨x, hx⟩ := last_mem_storesAt (o := egressDaddr + index + dgramHdrSize) hb
      have := (hin.1 _ (List.mem_append_right _ hx)).2
      show dgramHdrSize + buffer.length ≤ xstackDatagramSizeMax
      simp only at this
      omega
  · split_ifs at h
    obtain ⟨index, -, hst⟩ := Option.map_eq_some_iff.mp h
    obtain ⟨rfl, rfl⟩ := Prod.mk.inj hst
    have hlen := length_dgramBytes (udpDgram ipSrc payload bsize).1 sockAddr
      (udpDgram ipSrc payload bsize).2
    have hsize : (udpDgram ipSrc payload bsize).2.length = bsize - 8 := by
      simp [udpDgram, slice, udpHdrSize]
    obtain ⟨x, hx⟩ := last_mem_storesAt (o := ingressDaddr + index)
      (List.ne_nil_of_length_pos (by rw [hlen]; omega))
    have := (hin.1 _ hx).2
    show dgramHdrSize + (bsize - 8) ≤ xstackDatagramSizeMax
    simp only at this
    omega

theorem inSlot_of_size_le {m : Buf} {sockAddr : SockAddr} {c : DgramCall} {slot : ℕ}
    {st : List (ℕ × UInt8)} (h : c.stores m sockAddr = some (slot, st))
    (hs : dgramHdrSize + c.size ≤ xstackDatagramSizeMax) : InSlot m slot st := by
  have hmax : xstackDatagramSizeMax = 4096 := rfl
  rcases c with ⟨buffer, destAddr⟩ | ⟨ipSrc, payload, bsize⟩ <;> simp only [DgramCall.stores] at h
  · split_ifs at h
    obtain ⟨index, -, hst⟩ := Option.map_eq_some_iff.mp h
    obtain ⟨rfl, rfl⟩ := Prod.mk.inj hst
    refine inSlot_of_mem fun p hp => ?_
    have := mem_sendtoStores hp
    have hs' : dgramHdrSize + buffer.length ≤ xstackDatagramSizeMax := hs
    omega
  · split_ifs at h
    obtain ⟨index, -, hst⟩ := Option.map_eq_some_iff.mp h
    obtain ⟨rfl, rfl⟩ := Prod.mk.inj hst
    refine inSlot_of_mem fun p hp => ?_
    have := mem_storesAt hp
    have hsize : (udpDgram ipSrc payload bsize).2.length = bsize - 8 := by
      simp [udpDgram, slice, udpHdrSize]
    rw [length_dgramBytes, hsize] at this
    have hs' : dgramHdrSize + (bsize - 8) ≤ xstackDatagramSizeMax := hs
    omega

/-- **A datagram stays in its slot exactly when its bytes and the header fit together.** -/
theorem inSlot_iff (m : Buf) (sockAddr : SockAddr) (c : DgramCall) (slot : ℕ)
    (st : List (ℕ × UInt8)) (h : c.stores m sockAddr = some (slot, st)) :
    InSlot m slot st ↔ dgramHdrSize + c.size ≤ xstackDatagramSizeMax :=
  ⟨size_le_of_inSlot h, inSlot_of_size_le h⟩

theorem alloc_init : queueAlloc (QueueCb.load (xstackInit 1) egressQaddr) = some 0 := by
  decide +kernel

/-- A datagram of three bytes in the first slot. -/
theorem inSlot_iff_three : (DgramCall.sendto [1, 2, 3] ⟨5, 7⟩).stores (xstackInit 1) ⟨1, 10⟩ =
      some (egressDaddr, sendtoStores egressDaddr [1, 2, 3] ⟨5, 7⟩) ∧
    InSlot (xstackInit 1) egressDaddr (sendtoStores egressDaddr [1, 2, 3] ⟨5, 7⟩) := by
  have h : (DgramCall.sendto [1, 2, 3] ⟨5, 7⟩).stores (xstackInit 1) ⟨1, 10⟩ =
      some (egressDaddr, sendtoStores egressDaddr [1, 2, 3] ⟨5, 7⟩) := by
    simp only [DgramCall.stores, alloc_init]
    rfl
  exact ⟨h, (inSlot_iff _ _ _ _ _ h).mpr (by decide)⟩

/-- A datagram of the greatest length that `xstack_sendto` accepts reaches into the next slot. -/
theorem sendto_spills : ¬ ∀ (m : Buf) (sockAddr : SockAddr) (c : DgramCall) (slot : ℕ)
    (st : List (ℕ × UInt8)), c.stores m sockAddr = some (slot, st) → InSlot m slot st := by
  intro hall
  have hlen : ¬ (List.replicate 4096 (0 : UInt8)).length > xstackDatagramSizeMax := by
    rw [List.length_replicate]
    decide
  have h : (DgramCall.sendto (List.replicate 4096 0) ⟨5, 7⟩).stores (xstackInit 1) ⟨1, 10⟩ =
      some (egressDaddr, sendtoStores egressDaddr (List.replicate 4096 0) ⟨5, 7⟩) := by
    simp only [DgramCall.stores, if_neg hlen, alloc_init]
    rfl
  have hsize := size_le_of_inSlot h (hall _ _ _ _ _ h)
  simp only [DgramCall.size, List.length_replicate] at hsize
  exact absurd hsize (by decide)

end Xstack.Sock.Slot
