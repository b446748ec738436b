import Mathlib.Data.Nat.Bitwise
import Xstack.Ip.Header
import Xstack.Tree.Find

/-! # Reassembly buffers

`ip_fragment.c` up to the completion branch: four static packet buffers, the bitmaps that say which
8-byte blocks have arrived, and the tree of the buffers in use.

* `fragmapInit`, `fragmapSet`, `fragmapTst`: the bitmap in words. `fragmap_init` clears
  `FRAG_MAP_SIZE` bytes, which are the bits below 2048 (`tst_init`).
* `getPacketBuffer`, `releasePacketBuffer`, `ipFragmentTimer`: the pool.
* `ipFragmentStore`: `ip_fragment_input` until it has decided whether the datagram is complete.
  It has no result if `memcpy` would write outside the payload.
* `Pool.Inv`: a buffer is reserved iff it is linked, and the tree is in the order of the keys. -/

namespace Xstack.Ip.Fragment

open Xstack.Config Xstack.Lib.Bytes Xstack.Lib.Lex Xstack.Ip.Header
open Xstack.Tree.Macros Xstack.Tree.Insert Xstack.Tree.Find

/-! ### The bitmap -/

/-- `struct fragment_map`, by words. -/
abbrev Fragmap := ℕ → UInt32

def fragMax : ℕ := 8192

/-- `FRAG_MAP_SIZE`, the number of words. -/
def fragMapSize : ℕ := fragMax / 32

/-- `fragmap_init`: `memset` of `FRAG_MAP_SIZE` bytes. -/
def fragmapInit (map : Fragmap) : Fragmap := fun w => if 4 * w < fragMapSize then 0 else map w

/-- `1 << FRAG_MAP_BI(i)`. -/
def fragMapBit (i : ℕ) : UInt32 := 1 <<< UInt32.ofNat (i &&& 0x1f)

/-- `fragmap_set`. -/
def fragmapSet (map : Fragmap) (i : ℕ) : Fragmap :=
  Function.update map (i >>> 5) (map (i >>> 5) ||| fragMapBit i)

/-- `fragmap_tst`. -/
def fragmapTst (map : Fragmap) (i : ℕ) : Bool := (map (i >>> 5) &&& fragMapBit i) != 0

/-- The block of a byte. -/
theorem shiftRight_three (n : ℕ) : n >>> 3 = n / 8 := Nat.shiftRight_eq_div_pow n 3

/-- The word of a bit. -/
theorem shiftRight_five (n : ℕ) : n >>> 5 = n / 32 := Nat.shiftRight_eq_div_pow n 5

theorem toNat_fragMapBit (i : ℕ) : (fragMapBit i).toNat = 2 ^ (i % 32) := by
  have hi : i &&& 0x1f = i % 32 := Nat.and_two_pow_sub_one_eq_mod i 5
  have hlt : 2 ^ (i % 32) < 2 ^ 32 := Nat.pow_lt_pow_right (by decide) (by omega)
  unfold fragMapBit
  rw [hi, UInt32.toNat_shiftLeft, UInt32.toNat_ofNat', Nat.shiftLeft_eq]
  have h1 : i % 32 % 2 ^ 32 % 32 = i % 32 := by omega
  rw [h1, show (1 : UInt32).toNat = 1 from rfl, Nat.one_mul, Nat.mod_eq_of_lt hlt]

theorem tst_eq (map : Fragmap) (i : ℕ) : fragmapTst map i = (map (i / 32)).toNat.testBit (i % 32) := by
  have hz : (map (i / 32) &&& fragMapBit i) = 0 ↔ (map (i / 32)).toNat.testBit (i % 32) = false := by
    rw [← UInt32.toNat_inj, UInt32.toNat_and, toNat_fragMapBit, Nat.and_two_pow]
    cases (map (i / 32)).toNat.testBit (i % 32) <;> simp
  unfold fragmapTst
  rw [shiftRight_five]
  cases hb : (map (i / 32)).toNat.testBit (i % 32) with
  | false => simpa using hz.mpr hb
  | true => simpa [bne_iff_ne] using fun h => by simpa [hb] using hz.mp h

theorem tst_set (map : Fragmap) (i j : ℕ) :
    fragmapTst (fragmapSet map i) j = (decide (i = j) || fragmapTst map j) := by
  rw [tst_eq, tst_eq]
  unfold fragmapSet
  rw [shiftRight_five]
  by_cases h : j / 32 = i / 32
  · rw [h, Function.update_self, UInt32.toNat_or, toNat_fragMapBit, Nat.testBit_or,
      Nat.testBit_two_pow, Bool.or_comm]
    have : (i % 32 = j % 32) ↔ i = j := by omega
    simp only [this]
  · rw [Function.update_of_ne h]
    have : i ≠ j := by rintro rfl; exact h rfl
    simp [this]

/-- **The bits that `fragmap_init` clears.** -/
theorem tst_init (map : Fragmap) (j : ℕ) :
    fragmapTst (fragmapInit map) j = (decide (2048 ≤ j) && fragmapTst map j) := by
  rw [tst_eq, tst_eq]
  unfold fragmapInit fragMapSize fragMax
  split_ifs with h
  · have : ¬ 2048 ≤ j := by omega
    rw [decide_eq_false this, Bool.false_and]
    simp
  · have : 2048 ≤ j := by omega
    rw [decide_eq_true this, Bool.true_and]

/-- The loop that sets the bits of a fragment. -/
def fragmapSetRange (map : Fragmap) (i n : ℕ) : Fragmap := (List.range' i n).foldl fragmapSet map

theorem tst_setRange (map : Fragmap) (i n j : ℕ) :
    fragmapTst (fragmapSetRange map i n) j = (decide (i ≤ j ∧ j < i + n) || fragmapTst map j) := by
  unfold fragmapSetRange
  induction n generalizing i map with
  | zero =>
    have : ¬ (i ≤ j ∧ j < i + 0) := by omega
    rw [decide_eq_false this]
    rfl
  | succ n ih =>
    rw [List.range'_succ, List.foldl_cons, ih, tst_set, ← Bool.or_assoc, ← Bool.decide_or]
    congr 2
    exact propext (by omega)

/-! ### The buffers -/

/-- `struct packet_buf`, without the link fields. -/
structure PacketBuf where
  reserved : Bool
  timer : ℤ
  fragmap : Fragmap
  ipHdr : IpHdr
  payload : Buf

/-- `packet_buffer` and `packet_buffer_head`. -/
structure Pool where
  buf : Fin 4 → PacketBuf
  head : Rb (Fin 4)

/-- The number of payload bytes of a fragment, `ip_len - ip_hdr_hlen(ip_hdr)`. -/
def fragSize (ipHdr : IpHdr) : ℕ := ipHdr.ipLen.toNat - ipHdrHlen ipHdr

/-- The subtraction does not wrap around, and the bytes end inside a payload. -/
def Fits (ipHdr : IpHdr) : Prop :=
  ipHdrHlen ipHdr ≤ ipHdr.ipLen.toNat ∧ fragOff ipHdr + fragSize ipHdr ≤ ipMaxBytes

instance (ipHdr : IpHdr) : Decidable (Fits ipHdr) := by unfold Fits; infer_instance

namespace PacketBuf

/-- The assignments of `get_packet_buffer` to a buffer that it reserves. -/
def reserve (p : PacketBuf) (hdr : IpHdr) : PacketBuf where
  reserved := true
  timer := xstackIpFragmentTlb
  fragmap := fragmapInit p.fragmap
  ipHdr := { hdr with ipFoff := 0, ipLen := 0 }
  payload := p.payload

/-- The copy of `ip_fragment_input`, and the bits it sets. -/
def copyIn (p : PacketBuf) (ipHdr : IpHdr) (rxPacket : Buf) : PacketBuf :=
  { p with
    payload := copy p.payload (fragOff ipHdr) rxPacket (fragSize ipHdr)
    fragmap := fragmapSetRange p.fragmap (fragOff ipHdr >>> 3) ((fragSize ipHdr + 7) >>> 3) }

/-- What `ip_fragment_input` records of the header. -/
def noteHdr (p : PacketBuf) (ipHdr : IpHdr) : PacketBuf :=
  if fragOff ipHdr = 0 then { p with ipHdr := { ipHdr with ipLen := 0, ipFoff := 0 } }
  else if !moreFragments ipHdr then
    { p with ipHdr := { p.ipHdr with ipLen := UInt16.ofNat (fragSize ipHdr + fragOff ipHdr) } }
  else p

/-- A fragment goes into its buffer. -/
def store (p : PacketBuf) (ipHdr : IpHdr) (rxPacket : Buf) : Option PacketBuf :=
  if Fits ipHdr then some ((p.copyIn ipHdr rxPacket).noteHdr ipHdr) else none

/-- The test of the bits below the recorded length. -/
def complete (p : PacketBuf) : Bool :=
  p.ipHdr.ipLen != 0 &&
    (List.range ((p.ipHdr.ipLen.toNat + 7) >>> 3)).all fun i => fragmapTst p.fragmap i

end PacketBuf

namespace Pool

/-- Static memory at start-up. -/
def init : Pool := ⟨fun _ => ⟨false, 0, fun _ => 0, .zero, fun _ => 0⟩, Rb.init⟩

/-- More steps than a walk down a tree of four buffers can take. -/
def fuel : ℕ := 5

/-- `packet_buf_cmp` of a header with a buffer. -/
def packetBufCmp (mc : Memcmp) (pool : Pool) (hdr : IpHdr) (i : Fin 4) : ℤ :=
  mc.fn (bufid hdr) (bufid (pool.buf i).ipHdr)

def set (pool : Pool) (i : Fin 4) (p : PacketBuf) : Pool :=
  { pool with buf := Function.update pool.buf i p }

/-- `release_packet_buffer`. -/
def releasePacketBuffer (pool : Pool) (i : Fin 4) : Option Pool := do
  let head ← pool.head.rbRemove fuel i
  return { pool with head := head }.set i { pool.buf i with reserved := false }

/-- The first buffer that is not reserved. -/
def firstFree (pool : Pool) : Option (Fin 4) :=
  (List.finRange 4).find? fun i => !(pool.buf i).reserved

/-- `get_packet_buffer`. -/
def getPacketBuffer (mc : Memcmp) (pool : Pool) (hdr : IpHdr) : Option (Option (Fin 4) × Pool) := do
  match ← pool.head.rbFind fuel (pool.packetBufCmp mc hdr) with
  | some p => return (some p, pool)
  | none =>
    match pool.firstFree with
    | none => return (none, pool)
    | some p =>
      let pool := pool.set p ((pool.buf p).reserve hdr)
      let (head, found) ← pool.head.rbInsert fuel (pool.packetBufCmp mc hdr) p
      let pool := { pool with head := head }
      match found with
      | some _ => return (none, ← pool.releasePacketBuffer p)
      | none => return (some p, pool)

end Pool

/-- What `ip_fragment_input` has decided. -/
inductive FragOutcome
  | emsgsize
  | nobufs
  | stored
  /-- The completion branch, for the given buffer. -/
  | complete (p : Fin 4)
  deriving DecidableEq

/-- `ip_fragment_input` up to the completion branch. -/
def ipFragmentStore (mc : Memcmp) (pool : Pool) (ipHdr : IpHdr) (rxPacket : Buf) :
    Option (FragOutcome × Pool) := do
  if fragOff ipHdr > ipMaxBytes then return (.emsgsize, pool)
  match ← pool.getPacketBuffer mc ipHdr with
  | (none, pool) => return (.nobufs, pool)
  | (some i, pool) =>
    let p ← (pool.buf i).store ipHdr rxPacket
    return (if p.complete then .complete i else .stored, pool.set i p)

/-- `p->timer -= delta_time`. -/
def PacketBuf.age (p : PacketBuf) (deltaTime : ℤ) : PacketBuf :=
  { p with timer := p.timer - deltaTime }

/-- The body of the loop of `ip_fragment_timer`. -/
def Pool.tick (deltaTime : ℤ) (pool : Pool) (i : Fin 4) : Option Pool :=
  if (pool.buf i).reserved then
    if ((pool.buf i).age deltaTime).timer ≤ 0 then
      (pool.set i ((pool.buf i).age deltaTime)).releasePacketBuffer i
    else some (pool.set i ((pool.buf i).age deltaTime))
  else some pool

/-- `ip_fragment_timer`. -/
def ipFragmentTimer (pool : Pool) (deltaTime : ℤ) : Option Pool :=
  (List.finRange 4).foldlM (Pool.tick deltaTime) pool

/-! ### The invariant of the pool -/

/-- The order of two buffers in the tree. -/
def Before (buf : Fin 4 → PacketBuf) (i j : Fin 4) : Prop :=
  keyNum (buf i).ipHdr < keyNum (buf j).ipHdr

/-- **The tree holds the reserved buffers**, in the order of their keys. -/
structure Pool.Inv (pool : Pool) (l : List (Fin 4)) : Prop where
  valid : Valid pool.head l
  reserved : ∀ i, i ∈ l ↔ (pool.buf i).reserved = true
  sorted : l.Pairwise (Before pool.buf)

theorem inv_init : Pool.init.Inv [] := ⟨valid_init, by simp [Pool.init], List.Pairwise.nil⟩

section

variable {mc : Memcmp} {pool : Pool} {l : List (Fin 4)} {hdr : IpHdr} {i : Fin 4}

theorem cmp_pos : 0 < pool.packetBufCmp mc hdr i ↔ keyNum (pool.buf i).ipHdr < keyNum hdr :=
  mc.gt_iff rfl

theorem cmp_neg : pool.packetBufCmp mc hdr i < 0 ↔ keyNum hdr < keyNum (pool.buf i).ipHdr :=
  mc.lt_iff rfl

theorem cmp_zero : pool.packetBufCmp mc hdr i = 0 ↔ SameKey hdr (pool.buf i).ipHdr :=
  (mc.eq_iff (a := bufid hdr) (b := bufid (pool.buf i).ipHdr) rfl).trans keyNum_inj

theorem mono_cmp (hs : l.Pairwise (Before pool.buf)) : Mono (pool.packetBufCmp mc hdr) l := by
  refine hs.imp fun {a b} hab => ?_
  have hab : keyNum (pool.buf a).ipHdr < keyNum (pool.buf b).ipHdr := hab
  rw [cmp_pos, cmp_pos, cmp_neg, cmp_neg]
  omega

theorem Pool.Inv.length_lt (hI : pool.Inv l) : l.length < Pool.fuel := by
  have := hI.valid.nodup.length_le_card
  rw [Fintype.card_fin] at this
  unfold Pool.fuel
  omega

theorem Pool.Inv.eq_of_key (hI : pool.Inv l) {j : Fin 4} (hi : i ∈ l) (hj : j ∈ l)
    (hk : SameKey (pool.buf i).ipHdr (pool.buf j).ipHdr) : i = j := by
  by_contra hne
  let R : Fin 4 → Fin 4 → Prop := fun a b => keyNum (pool.buf a).ipHdr ≠ keyNum (pool.buf b).ipHdr
  have : Std.Symm R := ⟨fun a b h => Ne.symm h⟩
  have hR : l.Pairwise R := hI.sorted.imp fun {a b} (h : keyNum _ < keyNum _) => h.ne
  exact hR.forall hi hj hne (keyNum_inj.mpr hk)

/-- The search finds the buffer of a datagram. -/
theorem find_linked (hI : pool.Inv l) (hi : i ∈ l) (hk : SameKey hdr (pool.buf i).ipHdr) :
    pool.head.rbFind Pool.fuel (pool.packetBufCmp mc hdr) = some (some i) := by
  obtain ⟨r, h1, h2, h3⟩ := valid_find (pool.packetBufCmp mc hdr) hI.valid hI.length_lt
  obtain _ | j := r
  · exact absurd rfl (h3 (mono_cmp hI.sorted) ⟨i, hi, cmp_zero.mpr hk⟩)
  · obtain ⟨hj, hj0⟩ := h2 j rfl
    rw [h1, hI.eq_of_key hi hj (hk.symm.trans (cmp_zero.mp hj0))]

theorem find_absent (hI : pool.Inv l) (hk : ∀ i ∈ l, ¬ SameKey hdr (pool.buf i).ipHdr) :
    pool.head.rbFind Pool.fuel (pool.packetBufCmp mc hdr) = some none := by
  obtain ⟨r, h1, h2, -⟩ := valid_find (pool.packetBufCmp mc hdr) hI.valid hI.length_lt
  obtain _ | j := r
  · exact h1
  · exact absurd (cmp_zero.mp (h2 j rfl).2) (hk j (h2 j rfl).1)

theorem getPacketBuffer_linked (mc : Memcmp) (hI : pool.Inv l) (hi : i ∈ l)
    (hk : SameKey hdr (pool.buf i).ipHdr) : pool.getPacketBuffer mc hdr = some (some i, pool) := by
  simp [Pool.getPacketBuffer, find_linked hI hi hk]

theorem getPacketBuffer_full (mc : Memcmp) (hI : pool.Inv l)
    (hk : ∀ i ∈ l, ¬ SameKey hdr (pool.buf i).ipHdr) (hf : pool.firstFree = none) :
    pool.getPacketBuffer mc hdr = some (none, pool) := by
  simp [Pool.getPacketBuffer, find_absent hI hk, hf]

theorem firstFree_spec (h : pool.firstFree = some i) : (pool.buf i).reserved = false := by
  simpa using List.find?_some h

theorem Pool.Inv.not_mem (hI : pool.Inv l) (h : (pool.buf i).reserved = false) : i ∉ l := by
  rw [hI.reserved, h]
  exact Bool.false_ne_true

theorem set_of_ne {j : Fin 4} {p : PacketBuf} (h : j ≠ i) : (pool.set i p).buf j = pool.buf j :=
  Function.update_of_ne h _ _

@[simp] theorem set_self {p : PacketBuf} : (pool.set i p).buf i = p := Function.update_self _ _ _

theorem getPacketBuffer_reserve (mc : Memcmp) (hI : pool.Inv l)
    (hk : ∀ i ∈ l, ¬ SameKey hdr (pool.buf i).ipHdr) (hf : pool.firstFree = some i) :
    ∃ head l', pool.getPacketBuffer mc hdr =
        some (some i, { pool.set i ((pool.buf i).reserve hdr) with head := head }) ∧
      Pool.Inv { pool.set i ((pool.buf i).reserve hdr) with head := head } l' ∧
      l'.Perm (i :: l) := by
  have hi : i ∉ l := hI.not_mem (firstFree_spec hf)
  have hne : ∀ z ∈ l, z ≠ i := fun z hz h => hi (h ▸ hz)
  set pool' := pool.set i ((pool.buf i).reserve hdr) with hp
  have hbuf : ∀ z ∈ l, pool'.buf z = pool.buf z := fun z hz => set_of_ne (hne z hz)
  have hcmp : ∀ z ∈ l, pool'.packetBufCmp mc hdr z ≠ 0 := by
    intro z hz h
    rw [cmp_zero, hbuf z hz] at h
    exact hk z hz h
  have hs : l.Pairwise (Before pool'.buf) := by
    refine hI.sorted.imp_of_mem fun {a b} ha hb hab => ?_
    unfold Before
    rw [hbuf a ha, hbuf b hb]
    exact hab
  obtain ⟨head, a, b, h1, h2, rfl, h4, -⟩ := valid_insert (pool'.packetBufCmp mc hdr)
    (x := i) hI.valid hI.length_lt hi hcmp
  obtain ⟨h5, h6⟩ := h4 (mono_cmp hs)
  have hself : keyNum (pool'.buf i).ipHdr = keyNum hdr := by
    rw [hp, set_self]
    exact keyNum_inj.mpr ⟨rfl, rfl, rfl, rfl⟩
  refine ⟨head, a ++ i :: b, ?_, ⟨h2, fun z => ?_, ?_⟩, List.perm_middle⟩
  · have h1 : pool'.head.rbInsert Pool.fuel (pool'.packetBufCmp mc hdr) i = some (head, none) := h1
    simp [Pool.getPacketBuffer, find_absent hI hk, hf, ← hp, h1]
  · by_cases hz : z = i
    · subst hz
      show _ ↔ (pool'.buf z).reserved = true
      rw [hp, set_self]
      simp [PacketBuf.reserve]
    · show _ ↔ (pool'.buf z).reserved = true
      rw [hp, set_of_ne hz, ← hI.reserved]
      simp [hz]
  · rw [List.pairwise_append, List.pairwise_cons]
    rw [List.pairwise_append] at hs
    refine ⟨hs.1, ⟨fun z hz => ?_, hs.2.1⟩, fun y hy z hz => ?_⟩
    · show keyNum (pool'.buf i).ipHdr < keyNum (pool'.buf z).ipHdr
      rw [hself]
      exact cmp_neg.mp (h6 z hz)
    · rcases List.mem_cons.mp hz with rfl | hz
      · show keyNum (pool'.buf y).ipHdr < keyNum (pool'.buf z).ipHdr
        rw [hself]
        exact cmp_pos.mp (h5 y hy)
      · exact hs.2.2 y hy z hz

/-- A buffer may change as long as its key and its reservation do not. -/
theorem Pool.Inv.set (hI : pool.Inv l) {p : PacketBuf} (hr : p.reserved = (pool.buf i).reserved)
    (hk : SameKey p.ipHdr (pool.buf i).ipHdr) : (pool.set i p).Inv l := by
  have hkey : ∀ z, keyNum ((pool.set i p).buf z).ipHdr = keyNum (pool.buf z).ipHdr := by
    intro z
    by_cases hz : z = i
    · subst hz
      rw [set_self]
      exact keyNum_inj.mpr hk
    · rw [set_of_ne hz]
  refine ⟨hI.valid, fun z => ?_, hI.sorted.imp fun {a b} hab => ?_⟩
  · by_cases hz : z = i
    · subst hz
      rw [set_self, hr, hI.reserved]
    · rw [set_of_ne hz, hI.reserved]
  · unfold Before
    rw [hkey, hkey]
    exact hab

/-- `release_packet_buffer` of a linked buffer, whatever is in it. -/
theorem release_spec {p : PacketBuf} (hI : pool.Inv l) (hi : i ∈ l) :
    ∃ head, (pool.set i p).releasePacketBuffer i =
        some { pool.set i { p with reserved := false } with head := head } ∧
      Pool.Inv { pool.set i { p with reserved := false } with head := head } (l.erase i) := by
  obtain ⟨head, h1, h2, -⟩ := valid_remove hI.valid hI.length_lt.le hi
  have hnd := hI.valid.nodup
  have hset : ∀ h : Rb (Fin 4), { pool.set i p with head := h }.set i { p with reserved := false } =
      { pool.set i { p with reserved := false } with head := h } := by
    intro h
    simp [Pool.set]
  refine ⟨head, ?_, h2, fun z => ?_, ?_⟩
  · have h1 : (pool.set i p).head.rbRemove Pool.fuel i = some head := h1
    simp only [Pool.releasePacketBuffer, h1, set_self]
    exact congrArg some (hset head)
  · rw [hnd.mem_erase_iff]
    by_cases hz : z = i
    · subst hz
      show _ ↔ ((pool.set z _).buf z).reserved = true
      simp
    · show _ ↔ ((pool.set i _).buf z).reserved = true
      rw [set_of_ne hz, hI.reserved]
      simp [hz]
  · refine (hI.sorted.sublist List.erase_sublist).imp_of_mem fun {a b} ha hb hab => ?_
    have ha : a ≠ i := (hnd.mem_erase_iff.mp ha).1
    have hb : b ≠ i := (hnd.mem_erase_iff.mp hb).1
    show keyNum ((pool.set i _).buf a).ipHdr < keyNum ((pool.set i _).buf b).ipHdr
    rw [set_of_ne ha, set_of_ne hb]
    exact hab

end

end Xstack.Ip.Fragment
