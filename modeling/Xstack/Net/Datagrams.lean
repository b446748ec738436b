import Xstack.Lib.Collect
import Xstack.Lib.Hoare
import Xstack.Net.Pool

/-! # Reassembly as a table of datagrams

What the four buffers, their tree and their bitmaps are for: the fragments of each datagram are collected
until they cover its length, apart from those of all others.

* `reassembly`: the table, by the names of the datagrams, without buffers.
* `Refines`: the buffers hold what the table says. `fragmap_init` clears a quarter of the bitmap only, and
  so this is about fragments that end below byte 16384 (`Small`).
* `reassembly_refines`: every run of `ip_fragment_input` and `ip_fragment_timer` is a run of the table.
* `datagrams_independent`: what becomes of a datagram does not depend on the other ones. -/

namespace Xstack.Net.Datagrams

open Xstack.Config Xstack.Lib.Bytes Xstack.Lib.Lex Xstack.Lib.Program Xstack.Lib.Collect Xstack.Ip.Header
open Xstack.Ip.Fragment Xstack.Ip.Feed Xstack.Net.State Xstack.Net.Input Xstack.Net.Answer Xstack.Net.Pool

/-! ### The table -/

/-- The name of a datagram. -/
structure DatagramId where
  src : InAddr
  dst : InAddr
  proto : UInt8
  id : UInt16
  deriving DecidableEq

def datagramId (h : IpHdr) : DatagramId := ⟨h.ipSrc, h.ipDst, h.ipProto, h.ipId⟩

theorem sameKey_iff {h h' : IpHdr} : SameKey h h' ↔ datagramId h = datagramId h' := by
  unfold SameKey datagramId
  rw [DatagramId.mk.injEq]

/-- A datagram that is not whole: its fragments so far, and the time that is left. -/
structure Partial where
  frags : List Pkt
  timer : ℤ

/-- A last fragment has come, and the fragments cover all blocks up to its end. -/
def Whole (fs : List Pkt) : Prop := recLen fs ≠ 0 ∧ ∀ b < ((recLen fs).toNat + 7) / 8, BlockCov fs b

/-- What fragments write, one after the other. -/
def written (fs : List Pkt) : Buf :=
  fs.foldl (fun b f => copy b (fragOff f.hdr) f.rx (fragSize f.hdr)) fun _ => 0

open Classical in
/-- **Reassembly without buffers.** The result of a fragment is the list of all fragments if the datagram is
whole now. -/
noncomputable def reassembly : Collector DatagramId Pkt ℤ Partial (Option (List Pkt)) where
  capacity := 4
  key f := datagramId f.hdr
  start := ⟨[], xstackIpFragmentTlb⟩
  add d f :=
    if Whole (d.frags ++ [f]) then (none, some (d.frags ++ [f])) else (some ⟨d.frags ++ [f], d.timer⟩, none)
  age deltaTime d := if d.timer - deltaTime ≤ 0 then none else some ⟨d.frags, d.timer - deltaTime⟩

/-! ### The buffers -/

/-- What becomes of a fragment. A whole datagram has the recorded length, and what is in its buffer. -/
inductive Reply
  | refused
  | kept
  | whole (len : UInt16) (payload : Buf)

/-- What `ip_fragment_input` makes of a fragment, up to its completion branch. -/
def reply (mc : Memcmp) (pool : Ip.Fragment.Pool) (f : Pkt) : Option Reply :=
  (ipFragmentStore mc pool f.hdr f.rx).map fun x =>
    match x.1 with
    | .emsgsize => .refused
    | .nobufs => .refused
    | .stored => .kept
    | .complete i => .whole (x.2.buf i).ipHdr.ipLen (x.2.buf i).payload

/-- **A result of the buffers shows a result of the table.** A byte of a block may not have been written. -/
inductive Shows : Reply → Option (Option (List Pkt)) → Prop
  | refused : Shows .refused none
  | kept : Shows .kept (some none)
  | whole {fs : List Pkt} {payload : Buf} (h : ∀ x, ByteCov fs x → payload x = written fs x) :
      Shows (.whole (recLen fs) payload) (some (some fs))

/-- The part of the bitmap that is cleared is enough for the fragment. -/
def Small (f : Pkt) : Prop := Fits f.hdr ∧ fragOff f.hdr / 8 + (fragSize f.hdr + 7) / 8 ≤ 2048

instance (f : Pkt) : Decidable (Small f) := by unfold Small; infer_instance

/-- A buffer holds a datagram. -/
structure Holds (p : PacketBuf) (d : Partial) : Prop where
  timer : p.timer = d.timer
  len : p.ipHdr.ipLen = recLen d.frags
  bits : ∀ b, fragmapTst p.fragmap b = true ↔ BlockCov d.frags b
  bytes : ∀ x, ByteCov d.frags x → p.payload x = written d.frags x

/-- No fragment has set the bits that `fragmap_init` forgets. -/
def Clean (pool : Ip.Fragment.Pool) : Prop := ∀ i b, 2048 ≤ b → fragmapTst (pool.buf i).fragmap b = false

/-- **The reserved buffers `l` hold the datagrams of the table.** -/
structure Refines (pool : Ip.Fragment.Pool) (l : List (Fin 4)) (m : DatagramId → Option Partial) : Prop where
  inv : pool.Inv l
  clean : Clean pool
  held : ∀ i ∈ l, ∃ d, m (datagramId (pool.buf i).ipHdr) = some d ∧ Holds (pool.buf i) d
  known : ∀ k d, m k = some d → ∃ i ∈ l, datagramId (pool.buf i).ipHdr = k

variable {pool : Ip.Fragment.Pool} {l : List (Fin 4)} {m : DatagramId → Option Partial} {i : Fin 4}
  {p : PacketBuf} {d : Partial} {f : Pkt} {fs : List Pkt}

theorem refines_init : Refines Ip.Fragment.Pool.init [] fun _ => none where
  inv := inv_init
  clean i b _ := by
    rw [tst_eq]
    exact Nat.zero_testBit _
  held i hi := absurd hi List.not_mem_nil
  known k d hd := by cases hd

/-! ### One buffer -/

theorem blockCov_snoc {b : ℕ} : BlockCov (fs ++ [f]) b ↔
    BlockCov fs b ∨ (fragOff f.hdr / 8 ≤ b ∧ b < fragOff f.hdr / 8 + (fragSize f.hdr + 7) / 8) := by
  unfold BlockCov
  simp only [List.mem_append, List.mem_singleton, or_and_right, exists_or, exists_eq_left]

theorem byteCov_snoc {x : ℕ} : ByteCov (fs ++ [f]) x ↔
    ByteCov fs x ∨ (fragOff f.hdr ≤ x ∧ x < fragOff f.hdr + fragSize f.hdr) := by
  unfold ByteCov
  simp only [List.mem_append, List.mem_singleton, or_and_right, exists_or, exists_eq_left]

theorem recLen_snoc : recLen (fs ++ [f]) = noteLen (recLen fs) f := List.foldl_append

theorem written_snoc : written (fs ++ [f]) = copy (written fs) (fragOff f.hdr) f.rx (fragSize f.hdr) :=
  List.foldl_append

theorem put1_timer : (put1 p f).timer = p.timer := by
  unfold put1 PacketBuf.noteHdr
  split_ifs <;> rfl

/-- A fragment goes into the buffer. -/
theorem Holds.put1 (h : Holds p d) : Holds (put1 p f) ⟨d.frags ++ [f], d.timer⟩ where
  timer := put1_timer.trans h.timer
  len := by rw [put1_len, h.len, recLen_snoc]
  bits b := by
    rw [put1_fragmap, tst_setRange, Bool.or_eq_true, decide_eq_true_iff, h.bits, shiftRight_three,
      shiftRight_three, blockCov_snoc, or_comm]
  bytes x hx := by
    rw [put1_payload, written_snoc]
    by_cases hin : fragOff f.hdr ≤ x ∧ x < fragOff f.hdr + fragSize f.hdr
    · unfold copy
      rw [if_pos hin, if_pos hin]
    · rw [copy_outside (by omega), copy_outside (by omega)]
      exact h.bytes x ((byteCov_snoc.mp hx).resolve_right hin)

theorem Holds.complete (h : Holds p d) : p.complete = true ↔ Whole d.frags := by
  simp only [PacketBuf.complete, Whole, shiftRight_three, Bool.and_eq_true, bne_iff_ne, List.all_eq_true,
    List.mem_range, h.bits, h.len]

/-- A buffer that has just been reserved. -/
theorem holds_reserve (hdr : IpHdr) (hclean : ∀ b, 2048 ≤ b → fragmapTst p.fragmap b = false) :
    Holds (p.reserve hdr) reassembly.start where
  timer := rfl
  len := rfl
  bits b := by
    have hnone : ¬ BlockCov [] b := by simp [BlockCov]
    show fragmapTst (fragmapInit p.fragmap) b = true ↔ BlockCov [] b
    rw [tst_init]
    by_cases hb : 2048 ≤ b
    · simp [hclean b hb, hnone]
    · simp [hb, hnone]
  bytes x hx := absurd hx (by simp [ByteCov, reassembly])

/-- A small fragment leaves the rest of the bitmap alone. -/
theorem clean_put1 (hclean : ∀ b, 2048 ≤ b → fragmapTst p.fragmap b = false) (hf : Small f) :
    ∀ b, 2048 ≤ b → fragmapTst (put1 p f).fragmap b = false := by
  intro b hb
  have hend := hf.2
  have hout : ¬ (fragOff f.hdr / 8 ≤ b ∧ b < fragOff f.hdr / 8 + (fragSize f.hdr + 7) / 8) := by omega
  rw [put1_fragmap, tst_setRange, shiftRight_three, shiftRight_three, hclean b hb, decide_eq_false hout]
  rfl

theorem Clean.set (h : Clean pool) (hp : ∀ b, 2048 ≤ b → fragmapTst p.fragmap b = false) :
    Clean (pool.set i p) := by
  intro j b hb
  by_cases hj : j = i
  · rw [hj, set_self]
    exact hp b hb
  · rw [set_of_ne hj]
    exact h j b hb

/-! ### One fragment -/

/-- **No buffer is free iff the table is full.** -/
theorem Refines.full_iff (h : Refines pool l m) : reassembly.Full m ↔ ∀ i, i ∈ l := by
  have hnd : (l.map fun i => datagramId (pool.buf i).ipHdr).Nodup :=
    h.inv.valid.nodup.map_on fun i hi j hj hij => h.inv.eq_of_key hi hj (sameKey_iff.mpr hij)
  have hlive : {k | (m k).isSome} = ↑(l.map fun i => datagramId (pool.buf i).ipHdr).toFinset := by
    ext k
    rw [Finset.mem_coe, List.mem_toFinset, List.mem_map]
    constructor
    · intro hk
      obtain ⟨d, hd⟩ := Option.isSome_iff_exists.mp hk
      exact h.known k d hd
    · rintro ⟨i, hi, rfl⟩
      obtain ⟨d, hd, -⟩ := h.held i hi
      exact Option.isSome_iff_exists.mpr ⟨d, hd⟩
  have hcard : l.toFinset.card = l.length := List.toFinset_card_of_nodup h.inv.valid.nodup
  unfold Collector.Full
  rw [hlive, Set.ncard_coe_finset, List.toFinset_card_of_nodup hnd, List.length_map, ← hcard]
  constructor
  · intro hfour i
    have huniv : l.toFinset = Finset.univ := by
      refine Finset.eq_univ_of_card _ (le_antisymm (Finset.card_le_univ _) ?_)
      rw [Fintype.card_fin]
      exact hfour
    rw [← List.mem_toFinset, huniv]
    exact Finset.mem_univ i
  · intro hall
    have huniv : l.toFinset = Finset.univ := Finset.eq_univ_iff_forall.mpr fun i => List.mem_toFinset.mpr (hall i)
    rw [huniv, Finset.card_univ, Fintype.card_fin]
    exact le_rfl

theorem firstFree_none (h : pool.Inv l) : pool.firstFree = none ↔ ∀ i, i ∈ l := by
  rw [Ip.Fragment.Pool.firstFree, List.find?_eq_none]
  simp [h.reserved]

variable {env : Env} {s t : Stack} {ret : ℤ} {r : Reply}

/-- The completion branch leaves the bitmaps as they are. -/
theorem completeFragments_clean (h : completeFragments env i s = (some ret, t)) (hclean : Clean s.pool) :
    Clean t.pool := by
  rw [completeFragments_eq] at h
  obtain ⟨a, u, h1, h2⟩ := returned h
  obtain ⟨_, v, h3, h4⟩ := returned h2
  obtain ⟨hdr, payload, hu⟩ := beforeSend_pool h1
  have hv : v.pool = u.pool := by
    have hstep := ipSend_pool env a.dst a.proto a.buf a.bsize u
    rw [h3] at hstep
    exact hstep
  have hclean : Clean v.pool := by
    rw [hv, hu]
    exact hclean.set fun b hb => hclean i b hb
  unfold afterSend at h4
  rw [get_bind] at h4
  obtain ⟨pool, w, h5, h6⟩ := returned h4
  obtain ⟨hrel, rfl⟩ := returned_ofOption h5
  obtain rfl : { w with pool := pool } = t := (Prod.mk.inj h6).2
  obtain ⟨head, -, hpool⟩ := Option.bind_eq_some_iff.mp hrel
  obtain rfl := Option.some.inj hpool
  have hhead : Clean { w.pool with head := head } := hclean
  exact hhead.set fun b hb => hclean i b hb

/-- The buffers but `i` hold the datagrams of the table but `k`, which is the one of buffer `i`. -/
structure Beside (pool : Ip.Fragment.Pool) (l : List (Fin 4)) (m : DatagramId → Option Partial) (i : Fin 4)
    (k : DatagramId) : Prop where
  inv : pool.Inv l
  clean : Clean pool
  mem : i ∈ l
  name : datagramId (pool.buf i).ipHdr = k
  held : ∀ j ∈ l, j ≠ i → ∃ d, m (datagramId (pool.buf j).ipHdr) = some d ∧ Holds (pool.buf j) d
  known : ∀ k' d, m k' = some d → k' ≠ k → ∃ j ∈ l, datagramId (pool.buf j).ipHdr = k'

variable {k : DatagramId} {pool' : Ip.Fragment.Pool}

theorem Refines.beside (h : Refines pool l m) (hi : i ∈ l) :
    Beside pool l m i (datagramId (pool.buf i).ipHdr) :=
  ⟨h.inv, h.clean, hi, rfl, fun j hj _ => h.held j hj, fun k d hd _ => h.known k d hd⟩

/-- The other buffers have other names. -/
theorem Beside.name_ne (h : Beside pool l m i k) {j : Fin 4} (hj : j ∈ l) :
    j ≠ i ↔ datagramId (pool.buf j).ipHdr ≠ k := by
  refine not_congr ⟨fun hji => ?_, fun hjk => ?_⟩
  · rw [hji, h.name]
  · exact h.inv.eq_of_key hj h.mem (sameKey_iff.mpr (hjk.trans h.name.symm))

theorem Beside.set (h : Beside pool l m i k) (hr : p.reserved = (pool.buf i).reserved)
    (hk : SameKey p.ipHdr (pool.buf i).ipHdr) (hp : ∀ b, 2048 ≤ b → fragmapTst p.fragmap b = false) :
    Beside (pool.set i p) l m i k := by
  have hname : ∀ j, datagramId ((pool.set i p).buf j).ipHdr = datagramId (pool.buf j).ipHdr := by
    intro j
    by_cases hj : j = i
    · rw [hj, set_self, sameKey_iff.mp hk]
    · rw [set_of_ne hj]
  refine ⟨h.inv.set hr hk, h.clean.set hp, h.mem, (hname i).trans h.name, fun j hj hji => ?_,
    fun k' d hd hk' => ?_⟩
  · rw [hname, set_of_ne hji]
    exact h.held j hj hji
  · obtain ⟨j, hj, hjk⟩ := h.known k' d hd hk'
    exact ⟨j, hj, (hname j).trans hjk⟩

/-- Buffer `i` holds the datagram. -/
theorem Beside.fill (h : Beside pool l m i k) (hd : Holds (pool.buf i) d) :
    Refines pool l (Function.update m k (some d)) := by
  refine ⟨h.inv, h.clean, fun j hj => ?_, fun k' d' hkd => ?_⟩
  · by_cases hji : j = i
    · rw [hji, h.name, Function.update_self]
      exact ⟨d, rfl, hd⟩
    · rw [Function.update_of_ne ((h.name_ne hj).mp hji)]
      exact h.held j hj hji
  · by_cases hk : k' = k
    · exact ⟨i, h.mem, h.name.trans hk.symm⟩
    · rw [Function.update_of_ne hk] at hkd
      exact h.known k' d' hkd hk

/-- Buffer `i` is released. -/
theorem Beside.drop (h : Beside pool l m i k) (hI : pool'.Inv (l.erase i)) (hclean : Clean pool')
    (hbuf : ∀ j, j ≠ i → pool'.buf j = pool.buf j) : Refines pool' (l.erase i) (Function.update m k none) := by
  have hmem : ∀ j, j ∈ l.erase i ↔ j ≠ i ∧ j ∈ l := fun j => h.inv.valid.nodup.mem_erase_iff
  refine ⟨hI, hclean, fun j hj => ?_, fun k' d' hkd => ?_⟩
  · obtain ⟨hji, hj⟩ := (hmem j).mp hj
    rw [hbuf j hji, Function.update_of_ne ((h.name_ne hj).mp hji)]
    exact h.held j hj hji
  · by_cases hk : k' = k
    · rw [hk, Function.update_self] at hkd
      cases hkd
    · rw [Function.update_of_ne hk] at hkd
      obtain ⟨j, hj, hjk⟩ := h.known k' d' hkd hk
      have hji : j ≠ i := (h.name_ne hj).mpr fun he => hk (hjk.symm.trans he)
      refine ⟨j, (hmem j).mpr ⟨hji, hj⟩, ?_⟩
      rw [hbuf j hji, hjk]

/-- **A fragment in the buffer of its datagram.** -/
theorem into_buffer (h : Beside pool l m i (datagramId f.hdr)) (hf : Small f) (hd : Holds (pool.buf i) d)
    (hstore : ipFragmentStore env.mc s.pool f.hdr f.rx = ipFragmentStore env.mc pool f.hdr f.rx)
    (hr : reply env.mc s.pool f = some r) (hrun : ipFragmentInput env f.hdr f.rx s = (some ret, t)) :
    Shows r (some (reassembly.add d f).2) ∧
      ∃ l', Refines t.pool l' (Function.update m (datagramId f.hdr) (reassembly.add d f).1) := by
  have hk : SameKey f.hdr (pool.buf i).ipHdr := sameKey_iff.mpr h.name.symm
  have hput := hd.put1 (f := f)
  set q := put1 (pool.buf i) f with hq
  have hset : Beside (pool.set i q) l m i (datagramId f.hdr) :=
    h.set put1_reserved (put1_key hk) (clean_put1 (fun b hb => h.clean i b hb) hf)
  rw [ipFragmentStore_linked env.mc h.inv h.mem hk hf.1, ← hq] at hstore
  unfold reply at hr
  rw [hstore] at hr
  by_cases hc : q.complete = true
  · have hadd : reassembly.add d f = (none, some (d.frags ++ [f])) := if_pos (hput.complete.mp hc)
    rw [if_pos hc] at hstore hr
    obtain rfl : Reply.whole q.ipHdr.ipLen q.payload = r := by simpa using hr
    rw [hadd, hput.len]
    refine ⟨.whole hput.bytes, l.erase i, ?_⟩
    rw [ipFragmentInput_complete hstore] at hrun
    rcases completeFragments_spec (s := { s with pool := pool.set i q }) env hset.inv hset.mem with
      ⟨u, hrun', hI, hbuf⟩ | ⟨hnone, -⟩
    · obtain rfl : u = t := (Prod.mk.inj (hrun'.symm.trans hrun)).2
      exact hset.drop hI (completeFragments_clean hrun' hset.clean) hbuf
    · rw [hrun] at hnone
      cases hnone
  · have hadd : reassembly.add d f = (some ⟨d.frags ++ [f], d.timer⟩, none) :=
      if_neg fun hw => hc (hput.complete.mpr hw)
    rw [if_neg hc] at hstore hr
    obtain rfl : Reply.kept = r := by simpa using hr
    rw [hadd]
    refine ⟨.kept, l, ?_⟩
    rw [ipFragmentInput_stored hstore] at hrun
    obtain rfl : { s with pool := pool.set i q } = t := (Prod.mk.inj hrun).2
    refine hset.fill ?_
    rw [set_self]
    exact hput

/-- **One call of `ip_fragment_input`.** -/
theorem Refines.input (h : Refines s.pool l m) (hf : Small f) (hr : reply env.mc s.pool f = some r)
    (hrun : ipFragmentInput env f.hdr f.rx s = (some ret, t)) :
    (∃ a, (reassembly.step m (.event f)).1 = some (datagramId f.hdr, a) ∧ Shows r a) ∧
      ∃ l', Refines t.pool l' (reassembly.step m (.event f)).2 := by
  by_cases hk : ∃ i ∈ l, SameKey f.hdr (s.pool.buf i).ipHdr
  · obtain ⟨i, hi, hk⟩ := hk
    have hname : datagramId (s.pool.buf i).ipHdr = datagramId f.hdr := (sameKey_iff.mp hk).symm
    obtain ⟨d, hm, hd⟩ := h.held i hi
    rw [hname] at hm
    have hb := h.beside hi
    rw [hname] at hb
    have hroom : ¬ ((m (datagramId f.hdr)).isNone ∧ reassembly.Full m) := by simp [hm]
    obtain ⟨h1, h2⟩ := into_buffer hb hf hd rfl hr hrun
    have hstep := Collector.step_taken (c := reassembly) hroom
    rw [show m (reassembly.key f) = some d from hm, Option.getD_some] at hstep
    rw [hstep]
    exact ⟨⟨_, rfl, h1⟩, h2⟩
  · have hk : ∀ i ∈ l, ¬ SameKey f.hdr (s.pool.buf i).ipHdr := fun i hi h => hk ⟨i, hi, h⟩
    have hm : m (datagramId f.hdr) = none := by
      by_contra hne
      obtain ⟨d, hd⟩ := Option.ne_none_iff_exists'.mp hne
      obtain ⟨i, hi, hname⟩ := h.known _ d hd
      exact hk i hi (sameKey_iff.mpr hname.symm)
    cases hfree : s.pool.firstFree with
    | none =>
      have hstore := ipFragmentStore_full env.mc h.inv hk hfree
      have hfull : (m (datagramId f.hdr)).isNone ∧ reassembly.Full m :=
        ⟨by simp [hm], h.full_iff.mpr ((firstFree_none h.inv).mp hfree)⟩
      unfold reply at hr
      rw [hstore] at hr
      obtain rfl : Reply.refused = r := by simpa using hr
      rw [ipFragmentInput_nobufs hstore] at hrun
      obtain rfl : s = t := (Prod.mk.inj hrun).2
      rw [Collector.step_refused (c := reassembly) hfull]
      exact ⟨⟨none, rfl, .refused⟩, l, h⟩
    | some i =>
      obtain ⟨pool', l', hstore, hI, hi, hperm, hbuf⟩ := ipFragmentStore_reserve env.mc h.inv hk hfree
      have hnot : i ∉ l := h.inv.not_mem (firstFree_spec hfree)
      have hself : pool'.buf i = (s.pool.buf i).reserve f.hdr := by rw [hbuf, Function.update_self]
      have hrest : ∀ j, j ≠ i → pool'.buf j = s.pool.buf j := fun j hj => by
        rw [hbuf, Function.update_of_ne hj]
      have hd : Holds (pool'.buf i) reassembly.start := by
        rw [hself]
        exact holds_reserve f.hdr fun b hb => h.clean i b hb
      have hb : Beside pool' l' m i (datagramId f.hdr) := by
        refine ⟨hI, fun j b hb => ?_, hi, ?_, fun j hj hji => ?_, fun k d hkd _ => ?_⟩
        · by_cases hj : j = i
          · rw [hj, hself]
            show fragmapTst (fragmapInit _) b = false
            rw [tst_init, h.clean i b hb, Bool.and_false]
          · rw [hrest j hj]
            exact h.clean j b hb
        · rw [hself]
          rfl
        · rw [hrest j hji]
          exact h.held j ((List.mem_cons.mp (hperm.mem_iff.mp hj)).resolve_left hji)
        · obtain ⟨j, hj, hjk⟩ := h.known k d hkd
          refine ⟨j, hperm.mem_iff.mpr (List.mem_cons_of_mem i hj), ?_⟩
          rw [hrest j fun he => hnot (he ▸ hj), hjk]
      have hroom : ¬ ((m (datagramId f.hdr)).isNone ∧ reassembly.Full m) := fun ⟨_, hfull⟩ =>
        hnot (h.full_iff.mp hfull i)
      obtain ⟨h1, h2⟩ := into_buffer hb hf hd hstore hr hrun
      have hstep := Collector.step_taken (c := reassembly) hroom
      rw [show m (reassembly.key f) = none from hm, Option.getD_none] at hstep
      rw [hstep]
      exact ⟨⟨_, rfl, h1⟩, h2⟩

/-! ### The timer -/

/-- `ip_fragment_timer` at one buffer. -/
theorem tick_buffer (deltaTime : ℤ) (hI : pool.Inv l) (i : Fin 4) : ∃ pool' l',
    Pool.tick deltaTime pool i = some pool' ∧ pool'.Inv l' ∧
      (∀ j, j ∈ l' ↔ j ∈ l ∧ (j = i → 0 < (pool.buf j).timer - deltaTime)) ∧
      (i ∈ l' → pool'.buf i = (pool.buf i).age deltaTime) ∧
      (pool'.buf i).fragmap = (pool.buf i).fragmap ∧ ∀ j, j ≠ i → pool'.buf j = pool.buf j := by
  unfold Pool.tick
  split_ifs with hres hold
  · have hi : i ∈ l := (hI.reserved i).mpr hres
    have hold : (pool.buf i).timer - deltaTime ≤ 0 := hold
    obtain ⟨head, hrel, hI'⟩ := release_spec (p := (pool.buf i).age deltaTime) hI hi
    have hmem : ∀ j, j ∈ l.erase i ↔ j ≠ i ∧ j ∈ l := fun j => hI.valid.nodup.mem_erase_iff
    refine ⟨_, _, hrel, hI', fun j => ?_, fun h => absurd rfl ((hmem i).mp h).1, ?_, fun j hj => set_of_ne hj⟩
    · rw [hmem]
      constructor
      · rintro ⟨hji, hj⟩
        exact ⟨hj, fun he => absurd he hji⟩
      · rintro ⟨hj, hage⟩
        refine ⟨?_, hj⟩
        rintro rfl
        have := hage rfl
        omega
    · show ((pool.set i _).buf i).fragmap = _
      rw [set_self]
      rfl
  · have hold : ¬ (pool.buf i).timer - deltaTime ≤ 0 := hold
    refine ⟨_, l, rfl, hI.set rfl ⟨rfl, rfl, rfl, rfl⟩, fun j => ?_, fun _ => set_self, ?_,
      fun j hj => set_of_ne hj⟩
    · constructor
      · intro hj
        refine ⟨hj, ?_⟩
        rintro rfl
        omega
      · exact fun h => h.1
    · rw [set_self]
      rfl
  · have hi : i ∉ l := fun h => hres ((hI.reserved i).mp h)
    refine ⟨pool, l, rfl, hI, fun j => ?_, fun h => absurd h hi, rfl, fun _ _ => rfl⟩
    constructor
    · intro hj
      refine ⟨hj, ?_⟩
      rintro rfl
      exact absurd hj hi
    · exact fun h => h.1

/-- The loop of `ip_fragment_timer` over some of the buffers. -/
theorem ticks_buffers (deltaTime : ℤ) : ∀ (is : List (Fin 4)), is.Nodup → ∀ {pool : Ip.Fragment.Pool}
    {l : List (Fin 4)}, pool.Inv l → ∃ pool' l', is.foldlM (Pool.tick deltaTime) pool = some pool' ∧
      pool'.Inv l' ∧ (∀ j, j ∈ l' ↔ j ∈ l ∧ (j ∈ is → 0 < (pool.buf j).timer - deltaTime)) ∧
      (∀ j ∈ l', j ∈ is → pool'.buf j = (pool.buf j).age deltaTime) ∧
      (∀ j, j ∉ is → pool'.buf j = pool.buf j) ∧ ∀ j, (pool'.buf j).fragmap = (pool.buf j).fragmap
  | [], _, pool, l, hI => ⟨pool, l, rfl, hI, by simp, by simp, fun _ _ => rfl, fun _ => rfl⟩
  | i :: is, hnd, pool, l, hI => by
    obtain ⟨hnot, hnd⟩ := List.nodup_cons.mp hnd
    obtain ⟨pool₁, l₁, h₁, hI₁, hmem₁, hage₁, hmap₁, hrest₁⟩ := tick_buffer deltaTime hI i
    obtain ⟨pool₂, l₂, h₂, hI₂, hmem₂, hage₂, hrest₂, hmap₂⟩ := ticks_buffers deltaTime is hnd hI₁
    have hne : ∀ j ∈ is, j ≠ i := fun j hj he => hnot (he ▸ hj)
    refine ⟨pool₂, l₂, ?_, hI₂, fun j => ?_, fun j hj hji => ?_, fun j hji => ?_, fun j => ?_⟩
    · rw [List.foldlM_cons, h₁]
      exact h₂
    · rw [hmem₂, hmem₁, and_assoc, List.mem_cons]
      refine and_congr_right fun _ => ⟨fun ⟨h1, h2⟩ => ?_, fun h => ⟨fun he => h (Or.inl he), fun hj => ?_⟩⟩
      · rintro (rfl | hj)
        · exact h1 rfl
        · rw [← hrest₁ j (hne j hj)]
          exact h2 hj
      · rw [hrest₁ j (hne j hj)]
        exact h (Or.inr hj)
    · rcases List.mem_cons.mp hji with rfl | hjs
      · rw [hrest₂ j hnot]
        exact hage₁ ((hmem₂ j).mp hj).1
      · rw [hage₂ j hj hjs, hrest₁ j (hne j hjs)]
    · rw [List.mem_cons, not_or] at hji
      rw [hrest₂ j hji.2, hrest₁ j hji.1]
    · rw [hmap₂]
      by_cases hj : j = i
      · rw [hj, hmap₁]
      · rw [hrest₁ j hj]

/-- **One call of `ip_fragment_timer`.** -/
theorem Refines.timer (h : Refines pool l m) (deltaTime : ℤ) : ∃ pool' l',
    ipFragmentTimer pool deltaTime = some pool' ∧
      Refines pool' l' (reassembly.step m (.tick deltaTime)).2 := by
  obtain ⟨pool', l', hrun, hI, hmem, hage, -, hmap⟩ :=
    ticks_buffers deltaTime _ (List.nodup_finRange 4) h.inv
  have hage : ∀ j ∈ l', pool'.buf j = (pool.buf j).age deltaTime := fun j hj =>
    hage j hj (List.mem_finRange j)
  have hmem : ∀ j, j ∈ l' ↔ j ∈ l ∧ 0 < (pool.buf j).timer - deltaTime := fun j => by
    rw [hmem j]
    exact and_congr_right fun _ => ⟨fun h => h (List.mem_finRange j), fun h _ => h⟩
  refine ⟨pool', l', hrun, hI, fun j b hb => ?_, fun j hj => ?_, fun k d' hkd => ?_⟩
  · rw [hmap]
    exact h.clean j b hb
  · obtain ⟨hjl, htimer⟩ := (hmem j).mp hj
    obtain ⟨d, hm, hd⟩ := h.held j hjl
    refine ⟨⟨d.frags, d.timer - deltaTime⟩, ?_, ?_⟩
    · rw [hage j hj]
      show (m (datagramId (pool.buf j).ipHdr)).bind (reassembly.age deltaTime) = _
      rw [hm, Option.bind_some]
      refine if_neg ?_
      rw [← hd.timer]
      omega
    · rw [hage j hj]
      exact ⟨congrArg (· - deltaTime) hd.timer, hd.len, hd.bits, hd.bytes⟩
  · obtain ⟨d, hm, hd⟩ := Option.bind_eq_some_iff.mp hkd
    obtain ⟨j, hj, hjk⟩ := h.known k d hm
    obtain ⟨d₁, hm₁, hd₁⟩ := h.held j hj
    obtain rfl : d = d₁ := by
      rw [hjk, hm] at hm₁
      exact Option.some.inj hm₁
    have htimer : 0 < (pool.buf j).timer - deltaTime := by
      by_contra hle
      have hnone : reassembly.age deltaTime d = none := if_pos (by rw [← hd₁.timer]; omega)
      rw [hnone] at hd
      cases hd
    have hj' : j ∈ l' := (hmem j).mpr ⟨hj, htimer⟩
    refine ⟨j, hj', ?_⟩
    rw [hage j hj']
    exact hjk

/-! ### Runs -/

/-- One call, with what becomes of the fragment; no result if it does not return. -/
def exec (env : Env) (s : Stack) : Op → Option (Option (DatagramId × Reply) × Stack)
  | .input f => (ipFragmentInput env f.hdr f.rx s).1.bind fun _ =>
    (reply env.mc s.pool f).map fun r => (some (datagramId f.hdr, r), (ipFragmentInput env f.hdr f.rx s).2)
  | .timer deltaTime => (ipFragmentTimer s.pool deltaTime).map fun pool => (none, { s with pool := pool })
  | .other t => some (none, { t with pool := s.pool })

/-- What becomes of the fragments of a run, and the stack after it. -/
def replies (env : Env) (s : Stack) : List Op → Option (List (DatagramId × Reply) × Stack)
  | [] => some ([], s)
  | op :: ops => (exec env s op).bind fun x =>
    (replies env x.2 ops).map fun y => (x.1.toList ++ y.1, y.2)

/-- The call as an input of the table. -/
def toInput : Op → Option (Input Pkt ℤ)
  | .input f => some (.event f)
  | .timer deltaTime => some (.tick deltaTime)
  | .other _ => none

/-- The run as inputs of the table. -/
def inputs (ops : List Op) : List (Input Pkt ℤ) := ops.filterMap toInput

/-- The reply shows the result for the same datagram. -/
def Answers (o : DatagramId × Reply) (a : DatagramId × Option (Option (List Pkt))) : Prop :=
  o.1 = a.1 ∧ Shows o.2 a.2

/-- **One call is one step of the table,** or none. -/
theorem exec_refines {op : Op} {o : Option (DatagramId × Reply)} (h : Refines s.pool l m)
    (hsmall : ∀ f, op = .input f → Small f) (hrun : exec env s op = some (o, t)) :
    List.Forall₂ Answers o.toList (reassembly.run m (toInput op).toList).1 ∧
      ∃ l', Refines t.pool l' (reassembly.run m (toInput op).toList).2 := by
  cases op with
  | input f =>
    obtain ⟨ret, hret, hrun⟩ := Option.bind_eq_some_iff.mp hrun
    obtain ⟨r, hr, heq⟩ := Option.map_eq_some_iff.mp hrun
    obtain ⟨rfl, rfl⟩ := Prod.mk.inj heq
    obtain ⟨⟨a, ha, hshows⟩, h'⟩ := h.input (hsmall f rfl) hr (t := (ipFragmentInput env f.hdr f.rx s).2)
      (Prod.ext hret rfl)
    refine ⟨?_, h'⟩
    simp only [toInput, Option.toList_some, Collector.run, ha, List.append_nil]
    exact .cons ⟨rfl, hshows⟩ .nil
  | timer deltaTime =>
    obtain ⟨pool', l', htimer, h'⟩ := h.timer deltaTime
    obtain ⟨pool, hpool, heq⟩ := Option.map_eq_some_iff.mp hrun
    obtain rfl : pool' = pool := Option.some.inj (htimer.symm.trans hpool)
    obtain ⟨rfl, rfl⟩ := Prod.mk.inj heq
    exact ⟨.nil, l', h'⟩
  | other u =>
    obtain ⟨rfl, rfl⟩ := Prod.mk.inj (Option.some.inj hrun)
    exact ⟨.nil, l, h⟩

theorem run_refines (ops : List Op) {os : List (DatagramId × Reply)} (h : Refines s.pool l m)
    (hsmall : ∀ f, .input f ∈ ops → Small f) (hrun : replies env s ops = some (os, t)) :
    List.Forall₂ Answers os (reassembly.run m (inputs ops)).1 ∧
      ∃ l', Refines t.pool l' (reassembly.run m (inputs ops)).2 := by
  induction ops generalizing s l m os with
  | nil =>
    obtain ⟨rfl, rfl⟩ := Prod.mk.inj (Option.some.inj hrun)
    exact ⟨.nil, l, h⟩
  | cons op ops ih =>
    obtain ⟨⟨o, u⟩, hexec, hrun⟩ := Option.bind_eq_some_iff.mp hrun
    obtain ⟨⟨os', t'⟩, hrest, heq⟩ := Option.map_eq_some_iff.mp hrun
    obtain ⟨rfl, rfl⟩ := Prod.mk.inj heq
    obtain ⟨h1, l₁, h₁⟩ := exec_refines h (fun f hf => hsmall f (hf ▸ List.mem_cons_self)) hexec
    obtain ⟨h2, h3⟩ := ih h₁ (fun f hf => hsmall f (List.mem_cons_of_mem _ hf)) hrest
    have hinputs : inputs (op :: ops) = (toInput op).toList ++ inputs ops := by
      unfold inputs
      rw [List.filterMap_cons]
      cases toInput op <;> rfl
    rw [hinputs, Collector.run_append]
    exact ⟨List.rel_append h1 h2, h3⟩

/-- **Reassembly is a table of datagrams:** every run of calls with small fragments is a run of the table,
with the same results. -/
theorem reassembly_refines (env : Env) (s : Stack) (hs : s.pool = Ip.Fragment.Pool.init) (ops : List Op)
    (hsmall : ∀ f, .input f ∈ ops → Small f) (os : List (DatagramId × Reply)) (t : Stack)
    (hrun : replies env s ops = some (os, t)) :
    List.Forall₂ Answers os (reassembly.run (fun _ => none) (inputs ops)).1 ∧
      ∃ l, Refines t.pool l (reassembly.run (fun _ => none) (inputs ops)).2 := by
  have hinit : Refines s.pool [] fun _ => none := by
    rw [hs]
    exact refines_init
  exact run_refines ops hinit hsmall hrun

/-- A datagram in two fragments, with the first one of another datagram and a tick between them. -/
def interleaved : List Op := [.input ⟨halfHdr ipProtoUdp ipFlagsMf, fun _ => 0⟩,
  .input ⟨halfHdr ipProtoIcmp ipFlagsMf, fun _ => 1⟩, .timer 1, .input ⟨halfHdr ipProtoUdp 3, fun _ => 2⟩]

theorem small_interleaved : ∀ f, Op.input f ∈ interleaved → Small f := by
  intro f hf
  simp only [interleaved, List.mem_cons, Op.input.injEq, reduceCtorEq, List.not_mem_nil, or_false,
    false_or] at hf
  rcases hf with rfl | rfl | rfl
  · decide
  · decide
  · decide

theorem reassembly_refines_interleaved : ∃ os t, os.length = 3 ∧
    replies ⟨.ofSign, fun _ => 42⟩ Udp.RoundTrip.loopback interleaved = some (os, t) ∧
    List.Forall₂ Answers os (reassembly.run (fun _ => none) (inputs interleaved)).1 := by
  have hlen : (replies ⟨.ofSign, fun _ => 42⟩ Udp.RoundTrip.loopback interleaved).map (fun x => x.1.length) =
      some 3 := by decide +kernel
  obtain ⟨⟨os, t⟩, hrun, hos⟩ := Option.map_eq_some_iff.mp hlen
  exact ⟨os, t, hos, hrun, (reassembly_refines _ _ rfl interleaved small_interleaved os t hrun).1⟩

/-! ### One datagram among others -/

/-- Two lists that answer to one. -/
theorem forall₂_join {α β γ : Type} {R : α → γ → Prop} {S : β → γ → Prop} {as : List α} {bs : List β}
    {cs : List γ} (h : List.Forall₂ R as cs) (h' : List.Forall₂ S bs cs) :
    List.Forall₂ (fun a b => ∃ c, R a c ∧ S b c) as bs := by
  induction h generalizing bs with
  | nil =>
    cases h'
    exact .nil
  | @cons a c as cs hac _ ih =>
    obtain _ | ⟨hbc, h'⟩ := h'
    exact .cons ⟨c, hac, hbc⟩ (ih h')

theorem answers_about {os : List (DatagramId × Reply)} {as : List (DatagramId × Option (Option (List Pkt)))}
    (h : List.Forall₂ Answers os as) (k : DatagramId) :
    List.Forall₂ Answers (os.filter fun o => o.1 = k) (Collector.about k as) := by
  refine List.rel_filter (fun o a hoa => ?_) h
  show decide (o.1 = k) = true ↔ decide (a.1 = k) = true
  rw [hoa.1]

/-- What the table refuses, the buffers refuse. -/
theorem answers_refused {os : List (DatagramId × Reply)} {as : List (DatagramId × Option (Option (List Pkt)))}
    (h : List.Forall₂ Answers os as) {k : DatagramId} (hk : (k, none) ∈ as) : (k, .refused) ∈ os := by
  induction h with
  | nil => cases hk
  | @cons o a os as hoa _ ih =>
    rcases List.mem_cons.mp hk with rfl | hk
    · obtain ⟨k', r⟩ := o
      obtain ⟨hname, hshows⟩ := hoa
      obtain rfl : k' = k := hname
      cases hshows
      exact List.mem_cons_self
    · exact List.mem_cons_of_mem _ (ih hk)

/-- **What becomes of a datagram,** when none of its fragments is refused, is what becomes of it alone:
another run with the fragments of this datagram and the ticks only, on any stack, has the same replies. They
differ at most in bytes that no fragment has written. -/
theorem datagrams_independent (env env' : Env) (s s' : Stack) (hs : s.pool = Ip.Fragment.Pool.init)
    (hs' : s'.pool = Ip.Fragment.Pool.init) (k : DatagramId) (ops ops' : List Op)
    (hops : inputs ops' = (inputs ops).filter (reassembly.Concerns k))
    (hsmall : ∀ f, .input f ∈ ops → Small f) (os os' : List (DatagramId × Reply)) (t t' : Stack)
    (hrun : replies env s ops = some (os, t)) (hrun' : replies env' s' ops' = some (os', t'))
    (hroom : (k, .refused) ∉ os) :
    List.Forall₂ (fun o o' => ∃ a, Answers o a ∧ Answers o' a) (os.filter fun o => o.1 = k) os' := by
  have hsmall' : ∀ f, .input f ∈ ops' → Small f := by
    intro f hf
    have hmem : Input.event f ∈ inputs ops' := List.mem_filterMap.mpr ⟨_, hf, rfl⟩
    rw [hops] at hmem
    obtain ⟨op, hop, heq⟩ := List.mem_filterMap.mp (List.mem_of_mem_filter hmem)
    cases op with
    | input g =>
      obtain rfl : g = f := Input.event.inj (Option.some.inj heq)
      exact hsmall g hop
    | timer => cases heq
    | other => cases heq
  obtain ⟨h, -⟩ := reassembly_refines env s hs ops hsmall os t hrun
  obtain ⟨h', -⟩ := reassembly_refines env' s' hs' ops' hsmall' os' t' hrun'
  have halone : Collector.Alone k (fun _ => none : DatagramId → Option Partial) fun _ => none :=
    ⟨rfl, fun _ _ => rfl⟩
  obtain ⟨hsame, -⟩ := Collector.isolated (c := reassembly) (Nat.succ_pos 3) (inputs ops) halone fun hk =>
    hroom (answers_refused h hk)
  rw [hops, hsame] at h'
  exact forall₂_join (answers_about h k) h'

/-- Only the datagram that becomes whole. -/
def lonely : List Op := [.input ⟨halfHdr ipProtoUdp ipFlagsMf, fun _ => 0⟩, .timer 1,
  .input ⟨halfHdr ipProtoUdp 3, fun _ => 2⟩]

/-- The reply is `refused`, `kept` or `whole`. -/
def Reply.kind : Reply → Fin 3
  | .refused => 0
  | .kept => 1
  | .whole _ _ => 2

theorem datagrams_independent_interleaved : ∃ os os' : List (DatagramId × Reply),
    (os'.map fun o => o.2.kind) = [1, 2] ∧ List.Forall₂ (fun o o' => ∃ a, Answers o a ∧ Answers o' a)
      (os.filter fun o => o.1 = datagramId (halfHdr ipProtoUdp 0)) os' := by
  have hkinds : (replies ⟨.ofSign, fun _ => 42⟩ Udp.RoundTrip.loopback interleaved).map
      (fun x => x.1.map fun o => o.2.kind) = some [1, 1, 2] := by decide +kernel
  have hkinds' : (replies ⟨.ofSign, fun _ => 42⟩ Udp.RoundTrip.loopback lonely).map
      (fun x => x.1.map fun o => o.2.kind) = some [1, 2] := by decide +kernel
  obtain ⟨⟨os, t⟩, hrun, hos⟩ := Option.map_eq_some_iff.mp hkinds
  obtain ⟨⟨os', t'⟩, hrun', hos'⟩ := Option.map_eq_some_iff.mp hkinds'
  refine ⟨os, os', hos', datagrams_independent _ _ _ _ rfl rfl _ interleaved lonely rfl small_interleaved
    os os' t t' hrun hrun' fun hmem => ?_⟩
  have hkind : (0 : Fin 3) ∈ os.map fun o => o.2.kind := List.mem_map_of_mem hmem
  rw [show (os.map fun o => o.2.kind) = [1, 1, 2] from hos] at hkind
  exact absurd hkind (by decide)

end Xstack.Net.Datagrams
