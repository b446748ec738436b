import Xstack.Tree.Map
import Xstack.Udp

/-! # Bound UDP sockets

`xstack_udp_bind` and `udp_input` as operations on a map from addresses to sockets. The tree compares
the raw bytes of the addresses, which is a linear order, so it holds exactly the sockets that were
bound (`run_bound`), and a datagram goes to the one with its address. -/

namespace Xstack.Udp.Bind

open Xstack.Config Xstack.Lib.Bytes Xstack.Lib.Lex Xstack.Ip.Header Xstack.Sock.Queue
open Xstack.Tree.Macros Xstack.Tree.Find Xstack.Tree.Map

/-- Calls on the table of sockets. -/
inductive Op
  | bind (i : ℕ)
  | input (ipHdr : IpHdr) (b : Buf) (o bsize : ℕ)

/-- The table, and the sockets whose bind has returned 0. -/
structure History where
  table : UdpTable
  bound : List ℕ

/-- One call; a bind that fails changes nothing. -/
def step (mc : Memcmp) (s : History) : Op → Option History
  | .bind i => do
    match ← s.table.xstackUdpBind mc i with
    | .bound t => return ⟨t, i :: s.bound⟩
    | .einval => return s
    | .eaddrinuse => return s
  | .input ipHdr b o bsize => do
    let (_, t, _) ← s.table.udpInput mc ipHdr b o bsize
    return { s with table := t }

def run (mc : Memcmp) (s : History) (ops : List Op) : Option History := ops.foldlM (step mc) s

/-- The given sockets before any bind. -/
def start (socks : List UdpSock) : History :=
  ⟨⟨fun i => socks.getD i ⟨⟨0, 0⟩, fun _ => 0⟩, socks.length, Rb.init⟩, []⟩

/-- The socket of a bind. -/
def Op.socket? : Op → Option ℕ
  | .bind i => some i
  | .input _ _ _ _ => none

/-- The binds are of distinct sockets, of the first `n`. -/
def Distinct (n : ℕ) (ops : List Op) : Prop :=
  (ops.filterMap Op.socket?).Nodup ∧ ∀ i ∈ ops.filterMap Op.socket?, i < n

/-- The address of socket `i`. -/
def addr (t : UdpTable) (i : ℕ) : SockAddr := (t.sock i).sockAddr

/-- The port is above the limit. -/
def PortTooLarge (t : UdpTable) (i : ℕ) : Prop := (addr t i).port.toBitVec.toInt > xstackSockPortMax

/-- A socket bound earlier has the address. -/
def InUse (s : History) (i : ℕ) : Prop := ∃ j ∈ s.bound, addr s.table j = addr s.table i

/-! ### The order of the addresses -/

/-- `udp_socket_cmp` on addresses. -/
def addrBytesCmp (mc : Memcmp) (a b : SockAddr) : ℤ := mc.fn a.bytes b.bytes

theorem compares_addr (mc : Memcmp) : Compares (addrBytesCmp mc) Set.univ :=
  compares_memcmp mc sockAddr_bytes_injective fun _ _ => rfl

/-! ### The invariant -/

/-- **The tree is a map** of the sockets bound so far. -/
structure Inv (mc : Memcmp) (s : History) : Prop where
  holds : ∃ l, Holds (addrBytesCmp mc) Set.univ (addr s.table) s.table.head l ∧ l.Perm s.bound
  lt : ∀ i ∈ s.bound, i < s.table.count

variable {mc : Memcmp} {s s' : History} {t : UdpTable} {i j : ℕ}

theorem Inv.length_lt (hI : Inv mc s) : s.bound.length < s.table.fuel := by
  obtain ⟨l, hl, hp⟩ := hI.holds
  have hsub : s.bound ⊆ List.range s.table.count := fun i hi => List.mem_range.mpr (hI.lt i hi)
  have hnd : s.bound.Nodup := hp.nodup_iff.mp hl.valid.nodup
  have := (List.subperm_of_subset hnd hsub).length_le
  rw [List.length_range] at this
  unfold UdpTable.fuel
  omega

/-- **The search finds the socket bound to an address.** -/
theorem Inv.find (hI : Inv mc s) (a : SockAddr) : ∃ r, s.table.findUdpSocket mc a = some r ∧
    ∀ i, r = some i ↔ i ∈ s.bound ∧ addr s.table i = a := by
  obtain ⟨l, hl, hp⟩ := hI.holds
  obtain ⟨r, h1, h2⟩ := hl.find (compares_addr mc) (hp.length_eq ▸ hI.length_lt) (Set.mem_univ a)
  refine ⟨r, h1, fun i => ?_⟩
  rw [h2, hp.mem_iff]

theorem Inv.find_some (hI : Inv mc s) {a : SockAddr} (hi : i ∈ s.bound) (ha : addr s.table i = a) :
    s.table.findUdpSocket mc a = some (some i) := by
  obtain ⟨r, h1, h2⟩ := hI.find a
  rw [h1, (h2 i).mpr ⟨hi, ha⟩]

theorem Inv.find_none (hI : Inv mc s) {a : SockAddr} (hn : ∀ i ∈ s.bound, addr s.table i ≠ a) :
    s.table.findUdpSocket mc a = some none := by
  obtain ⟨r, h1, h2⟩ := hI.find a
  obtain _ | i := r
  · exact h1
  · obtain ⟨hi, ha⟩ := (h2 i).mp rfl
    exact absurd ha (hn i hi)

theorem Inv.inj (hI : Inv mc s) (hi : i ∈ s.bound) (hj : j ∈ s.bound)
    (ha : addr s.table i = addr s.table j) : i = j := by
  have h := (hI.find_some hi ha).symm.trans (hI.find_some hj rfl)
  simpa using h

/-! ### `xstack_udp_bind` -/

theorem bind_einval (hp : PortTooLarge t i) : t.xstackUdpBind mc i = some .einval := by
  have hp : (t.sock i).sockAddr.port.toBitVec.toInt > xstackSockPortMax := hp
  unfold UdpTable.xstackUdpBind
  dsimp only
  rw [if_pos hp]
  rfl

theorem Inv.bind_eaddrinuse (hI : Inv mc s) (hp : ¬ PortTooLarge s.table i) (hu : InUse s i) :
    s.table.xstackUdpBind mc i = some .eaddrinuse := by
  obtain ⟨j, hj, ha⟩ := hu
  have hf : s.table.findUdpSocket mc (s.table.sock i).sockAddr = some (some j) :=
    hI.find_some hj ha
  have hp : ¬ (s.table.sock i).sockAddr.port.toBitVec.toInt > xstackSockPortMax := hp
  unfold UdpTable.xstackUdpBind
  dsimp only
  rw [if_neg hp, hf]
  rfl

theorem Inv.bind_bound (hI : Inv mc s) (hp : ¬ PortTooLarge s.table i) (hu : ¬ InUse s i)
    (hi : i ∉ s.bound) (hlt : i < s.table.count) : ∃ head,
      s.table.xstackUdpBind mc i = some (.bound { s.table with head := head }) ∧
      Inv mc ⟨{ s.table with head := head }, i :: s.bound⟩ := by
  obtain ⟨l, hl, hperm⟩ := hI.holds
  have hne : ∀ j ∈ l, addr s.table j ≠ addr s.table i := fun j hj ha =>
    hu ⟨j, hperm.mem_iff.mp hj, ha⟩
  have hf : s.table.findUdpSocket mc (s.table.sock i).sockAddr = some none :=
    hI.find_none fun j hj => hne j (hperm.mem_iff.mpr hj)
  obtain ⟨head, l', h1, h2, h3⟩ := hl.insert (compares_addr mc) (hperm.length_eq ▸ hI.length_lt)
    (fun h => hi (hperm.mem_iff.mp h)) (Set.mem_univ _) hne
  have h1 : s.table.head.rbInsert s.table.fuel
      (s.table.udpSocketCmp mc (s.table.sock i).sockAddr) i = some (head, none) := h1
  refine ⟨head, ?_, ⟨l', h2, h3.trans (hperm.cons i)⟩, fun j hj => ?_⟩
  · have hp : ¬ (s.table.sock i).sockAddr.port.toBitVec.toInt > xstackSockPortMax := hp
    unfold UdpTable.xstackUdpBind
    dsimp only
    rw [if_neg hp, hf]
    simp [h1]
  · rcases List.mem_cons.mp hj with rfl | hj
    · exact hlt
    · exact hI.lt j hj

/-! ### `udp_input` -/

section

variable (ipHdr : IpHdr) (b : Buf) (o bsize : ℕ)

/-- The header of the datagram at offset `o`, in host order. -/
def hdrAt : UdpHdr := udpNtoh (UdpHdr.load (shift b o))

/-- The address and the port that the datagram is for. -/
def dstOf : SockAddr := ⟨ipHdr.ipDst, (hdrAt b o).udpDport.toUInt32⟩

/-- The address and the port that it comes from. -/
def srcOf : SockAddr := ⟨ipHdr.ipSrc, (hdrAt b o).udpSport.toUInt32⟩

/-- The buffer once the header is in host order. -/
def swapped : Buf := put b o (hdrAt b o).bytes

/-- The bytes after the header. -/
def dataOf : List UInt8 := slice (shift (swapped b o) (o + udpHdrSize)) (bsize - udpHdrSize)

/-- **The call of `xstack_sock_dgram_input` for socket `i`,** and the return from `udp_input`. No
other socket is touched. -/
def handTo (t : UdpTable) (i : ℕ) : Option (ℤ × UdpTable × Buf) :=
  if bsize - udpHdrSize > ipMaxBytes then none
  else
    (xstackSockDgramInput (t.sock i).shmem (t.sock i).sockAddr (srcOf ipHdr b o)
      (dataOf b o bsize)).map fun shmem =>
        (0, { t with sock := Function.update t.sock i { t.sock i with shmem := shmem } },
          swapped b o)

/-- The stores to the header do not reach the bytes after it. -/
theorem dataOf_eq : dataOf b o bsize =
    slice (shift (shift b o) udpHdrSize) (bsize - udpHdrSize) := by
  unfold dataOf
  rw [shift_shift]
  refine congrArg (slice · (bsize - udpHdrSize)) (funext fun k => ?_)
  exact put_outside (Or.inr (by
    rw [UdpHdr.length_bytes]
    unfold udpHdrSize
    omega))

variable {ipHdr b o bsize}

theorem udpInput_short (hb : bsize < udpHdrSize) :
    t.udpInput mc ipHdr b o bsize = some (-EBADMSG, t, b) := by
  unfold UdpTable.udpInput
  rw [if_pos hb]
  rfl

theorem udpInput_found (hb : udpHdrSize ≤ bsize)
    (hf : t.findUdpSocket mc (dstOf ipHdr b o) = some (some i)) :
    t.udpInput mc ipHdr b o bsize = handTo ipHdr b o bsize t i := by
  have hf : t.findUdpSocket mc
      ⟨ipHdr.ipDst, (udpNtoh (UdpHdr.load (shift b o))).udpDport.toUInt32⟩ = some (some i) := hf
  unfold UdpTable.udpInput
  rw [if_neg (by omega)]
  simp only [hf]
  unfold handTo
  by_cases hs : bsize - udpHdrSize > ipMaxBytes
  · simp [hs]
  · simp [hs, srcOf, dataOf, swapped, hdrAt, Option.map_eq_bind]

theorem udpInput_absent (hb : udpHdrSize ≤ bsize) (hf : t.findUdpSocket mc (dstOf ipHdr b o) = some none) :
    t.udpInput mc ipHdr b o bsize = some (-ENOTSOCK, t, swapped b o) := by
  have hf : t.findUdpSocket mc
      ⟨ipHdr.ipDst, (udpNtoh (UdpHdr.load (shift b o))).udpDport.toUInt32⟩ = some none := hf
  unfold UdpTable.udpInput
  rw [if_neg (by omega)]
  simp only [hf]
  rfl

end

/-! ### Runs -/

/-- A delivery changes the memory of one socket and no address. -/
theorem Inv.handTo (hI : Inv mc s) {ipHdr : IpHdr} {b b' : Buf} {o bsize : ℕ} {retval : ℤ}
    (h : handTo ipHdr b o bsize s.table i = some (retval, t, b')) :
    Inv mc { s with table := t } ∧ t.count = s.table.count := by
  unfold Bind.handTo at h
  split_ifs at h
  obtain ⟨shmem, -, h⟩ := Option.map_eq_some_iff.mp h
  obtain rfl : _ = t := (Prod.ext_iff.mp (Prod.ext_iff.mp h).2).1
  obtain ⟨l, hl, hp⟩ := hI.holds
  refine ⟨⟨⟨l, hl.congr fun j _ => ?_, hp⟩, hI.lt⟩, rfl⟩
  by_cases hj : j = i
  · subst hj
    simp [addr]
  · simp [addr, Function.update_of_ne hj]

theorem Inv.input (hI : Inv mc s) {ipHdr : IpHdr} {b b' : Buf} {o bsize : ℕ} {retval : ℤ}
    (h : s.table.udpInput mc ipHdr b o bsize = some (retval, t, b')) :
    Inv mc { s with table := t } ∧ t.count = s.table.count := by
  by_cases hb : bsize < udpHdrSize
  · rw [udpInput_short hb] at h
    obtain rfl : s.table = t := (Prod.ext_iff.mp (Prod.ext_iff.mp (Option.some.inj h)).2).1
    exact ⟨hI, rfl⟩
  · obtain ⟨r, h1, -⟩ := hI.find (dstOf ipHdr b o)
    obtain _ | i := r
    · rw [udpInput_absent (by omega) h1] at h
      obtain rfl : s.table = t := (Prod.ext_iff.mp (Prod.ext_iff.mp (Option.some.inj h)).2).1
      exact ⟨hI, rfl⟩
    · rw [udpInput_found (by omega) h1] at h
      exact hI.handTo h

theorem step_inv (hI : Inv mc s) {op : Op} (hop : ∀ i, op.socket? = some i → i ∉ s.bound ∧
      i < s.table.count) (h : step mc s op = some s') :
    Inv mc s' ∧ s'.table.count = s.table.count ∧
      ∀ j ∈ s'.bound, j ∈ s.bound ∨ op.socket? = some j := by
  cases op with
  | bind i =>
    obtain ⟨hi, hlt⟩ := hop i rfl
    by_cases hp : PortTooLarge s.table i
    · obtain rfl : s = s' := by simpa [step, bind_einval hp] using h
      exact ⟨hI, rfl, fun j hj => Or.inl hj⟩
    · by_cases hu : InUse s i
      · obtain rfl : s = s' := by simpa [step, hI.bind_eaddrinuse hp hu] using h
        exact ⟨hI, rfl, fun j hj => Or.inl hj⟩
      · obtain ⟨head, h1, h2⟩ := hI.bind_bound hp hu hi hlt
        obtain rfl : (⟨{ s.table with head := head }, i :: s.bound⟩ : History) = s' := by
          simpa [step, h1] using h
        refine ⟨h2, rfl, fun j hj => ?_⟩
        rcases List.mem_cons.mp hj with rfl | hj
        · exact Or.inr rfl
        · exact Or.inl hj
  | input ipHdr b o bsize =>
    rcases hin : s.table.udpInput mc ipHdr b o bsize with _ | ⟨retval, t, b'⟩
    · simp [step, hin] at h
    · obtain rfl : { s with table := t } = s' := by simpa [step, hin] using h
      exact ⟨(hI.input hin).1, (hI.input hin).2, fun j hj => Or.inl hj⟩

theorem inv_start (mc : Memcmp) (socks : List UdpSock) : Inv mc (start socks) :=
  ⟨⟨[], holds_init, .nil⟩, by simp [start]⟩

theorem run_inv {socks : List UdpSock} {ops : List Op} (hd : Distinct socks.length ops)
    (h : run mc (start socks) ops = some s) :
    Inv mc s ∧ s.table.count = socks.length ∧ ∀ j ∈ s.bound, j ∈ ops.filterMap Op.socket? := by
  induction ops using List.reverseRecOn generalizing s with
  | nil =>
    obtain rfl : start socks = s := by simpa [run] using h
    exact ⟨inv_start mc socks, rfl, by simp [start]⟩
  | append_singleton ops op ih =>
    obtain ⟨hnd, hlt⟩ := hd
    rw [List.filterMap_append] at hnd hlt
    rw [run, List.foldlM_append] at h
    obtain ⟨r, h1, h2⟩ := Option.bind_eq_some_iff.mp h
    have h2 : step mc r op = some s := by simpa using h2
    obtain ⟨hI, hc, hsub⟩ := ih ⟨hnd.of_append_left, fun i hi => hlt i (by simp [hi])⟩ h1
    have hop : ∀ i, op.socket? = some i → i ∉ r.bound ∧ i < r.table.count := by
      intro i hi
      have hlast : i ∈ [op].filterMap Op.socket? := by simp [hi]
      refine ⟨fun hb => ?_, hc ▸ hlt i (List.mem_append_right _ hlast)⟩
      exact List.disjoint_of_nodup_append hnd (hsub i hb) hlast
    obtain ⟨hI', hc', hsub'⟩ := step_inv hI hop h2
    refine ⟨hI', hc'.trans hc, fun j hj => ?_⟩
    rw [List.filterMap_append]
    rcases hsub' j hj with hj | hj
    · exact List.mem_append_left _ (hsub j hj)
    · exact List.mem_append_right _ (by simp [hj])

/-- **The UDP sockets are a map from addresses to sockets.** After any calls, with binds of distinct
sockets: a bind of another socket fails exactly if its port is too large or its address is in use,
and a datagram goes to the one socket with its address, or is refused if there is none. -/
theorem sockets_are_map (mc : Memcmp) (socks : List UdpSock) (ops : List Op) (s : History)
    (hd : Distinct socks.length ops) (hrun : run mc (start socks) ops = some s) :
    (∀ i < socks.length, Op.bind i ∉ ops →
      (PortTooLarge s.table i → s.table.xstackUdpBind mc i = some .einval) ∧
      (¬ PortTooLarge s.table i → InUse s i → s.table.xstackUdpBind mc i = some .eaddrinuse) ∧
      (¬ PortTooLarge s.table i → ¬ InUse s i →
        ∃ t, s.table.xstackUdpBind mc i = some (.bound t))) ∧
    ∀ ipHdr b o bsize, udpHdrSize ≤ bsize →
      (∀ i ∈ s.bound, addr s.table i = dstOf ipHdr b o →
        s.table.udpInput mc ipHdr b o bsize = handTo ipHdr b o bsize s.table i ∧
          ∀ j ∈ s.bound, addr s.table j = dstOf ipHdr b o → j = i) ∧
      ((∀ i ∈ s.bound, addr s.table i ≠ dstOf ipHdr b o) →
        s.table.udpInput mc ipHdr b o bsize = some (-ENOTSOCK, s.table, swapped b o)) := by
  obtain ⟨hI, hc, hsub⟩ := run_inv hd hrun
  refine ⟨fun i hi hnew => ⟨fun hp => bind_einval hp, fun hp hu => hI.bind_eaddrinuse hp hu,
    fun hp hu => ?_⟩, fun ipHdr b o bsize hb => ⟨fun i hi ha => ⟨?_, fun j hj hja => ?_⟩, fun hn => ?_⟩⟩
  · have hib : i ∉ s.bound := by
      intro hib
      obtain ⟨op, hop, hsome⟩ := List.mem_filterMap.mp (hsub i hib)
      cases op with
      | bind j => exact hnew (Option.some.inj hsome ▸ hop)
      | input => cases hsome
    obtain ⟨head, h1, -⟩ := hI.bind_bound hp hu hib (hc ▸ hi)
    exact ⟨_, h1⟩
  · exact udpInput_found hb (hI.find_some hi ha)
  · exact hI.inj hj hi (hja.trans ha.symm)
  · exact udpInput_absent hb (hI.find_none hn)

/-- Two sockets with one address: the second bind fails. -/
theorem sockets_are_map_same_address : ∃ s, run .ofSign
    (start [⟨⟨1, 53⟩, fun _ => 0⟩, ⟨⟨1, 53⟩, fun _ => 0⟩]) [.bind 0] = some s ∧ s.bound = [0] ∧
      s.table.xstackUdpBind .ofSign 1 = some .eaddrinuse := by
  have hsome : (run .ofSign (start [⟨⟨1, 53⟩, fun _ => 0⟩, ⟨⟨1, 53⟩, fun _ => 0⟩])
      [.bind 0]).isSome := by decide +kernel
  obtain ⟨s, hs⟩ := Option.isSome_iff_exists.mp hsome
  have hbound : (run .ofSign (start [⟨⟨1, 53⟩, fun _ => 0⟩, ⟨⟨1, 53⟩, fun _ => 0⟩])
      [.bind 0]).map (fun s => (s.bound, addr s.table 0, addr s.table 1)) =
        some ([0], ⟨1, 53⟩, ⟨1, 53⟩) := by decide +kernel
  rw [hs] at hbound
  obtain ⟨h1, h2, h3⟩ : s.bound = [0] ∧ addr s.table 0 = ⟨1, 53⟩ ∧ addr s.table 1 = ⟨1, 53⟩ := by
    simpa using hbound
  have h := sockets_are_map .ofSign _ _ s ⟨by decide, by decide⟩ hs
  refine ⟨s, hs, h1, (h.1 1 (by decide) (by simp)).2.1 ?_ ⟨0, by simp [h1], h2.trans h3.symm⟩⟩
  unfold PortTooLarge
  rw [h3]
  decide

end Xstack.Udp.Bind
