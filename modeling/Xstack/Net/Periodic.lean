import Xstack.Ip.Feed
import Xstack.Net.Frame

/-! # The periodic tasks and the reassembly buffers

`run_periodic_tasks` calls what is registered with `XSTACK_PERIODIC_TASK`: `arp_cache_update` and
`ip_defer_handler`. `ip_fragment_timer`, which gives up a datagram that stays incomplete, is not
registered, so no tick changes a reassembly buffer (`run_pool`), and a buffer is free after any time
iff it was free before (`givesUp_iff`). -/

namespace Xstack.Net.Periodic

open Xstack.Config Xstack.Lib.Bytes Xstack.Lib.Lex Xstack.Lib.Program Xstack.Tree.Macros
open Xstack.Ip.Header Xstack.Ip.Fragment Xstack.Ip.Feed Xstack.Net.State Xstack.Net.Send
open Xstack.Net.Frame

variable (env : Env)

/-- The linker set `_xstack_periodic_tasks`. -/
def xstackPeriodicTasks : List (ℤ → Act Unit) :=
  [arpCacheUpdate, fun _ => ipDeferHandler env]

/-- `run_periodic_tasks`. -/
def runPeriodicTasks (deltaTime : ℤ) : Act Unit :=
  (xstackPeriodicTasks env).forM fun task => task deltaTime

/-- The stack after a sequence of ticks. -/
def runTicks (s : Stack) (ticks : List ℤ) : Stack :=
  ticks.foldl (fun s deltaTime => (runPeriodicTasks env deltaTime s).2) s

/-- **Incomplete datagrams are given up:** whenever the ticks amount to `XSTACK_IP_FRAGMENT_TLB`
seconds, the buffers that were reserved are released and unlinked, and a fragment gets a buffer. -/
def GivesUp (s : Stack) : Prop :=
  ∀ ticks : List ℤ, (∀ d ∈ ticks, 0 ≤ d) → xstackIpFragmentTlb ≤ ticks.sum →
    (∀ i, (s.pool.buf i).reserved = true → ((runTicks env s ticks).pool.buf i).reserved = false ∧
      ¬ (runTicks env s ticks).pool.head.Reach i) ∧
    ∀ hdr, ∃ i pool, (runTicks env s ticks).pool.getPacketBuffer env.mc hdr = some (some i, pool)

/-! ### Ticks -/

theorem arpCacheUpdate_pool (deltaTime : ℤ) : Steps (Unchanged Stack.pool) (arpCacheUpdate deltaTime) := by
  intro s
  unfold arpCacheUpdate
  rw [get_bind]
  rcases s.arp.arpCacheUpdate deltaTime with _ | c
  · rfl
  · rfl

theorem ipDeferHandler_pool : Steps (Unchanged Stack.pool) (ipDeferHandler env) := by
  refine (ipDeferHandler_sending env).mono ?_
  rintro s t ⟨_, _, _, _, _, rfl⟩
  rfl

/-- **No task touches the reassembly buffers.** -/
theorem runPeriodicTasks_pool (deltaTime : ℤ) :
    Steps (Unchanged Stack.pool) (runPeriodicTasks env deltaTime) := by
  refine .bind .trans (arpCacheUpdate_pool deltaTime) fun _ => ?_
  exact .bind .trans (ipDeferHandler_pool env) fun _ => .pure .refl _

theorem run_pool (ticks : List ℤ) : ∀ s : Stack, (runTicks env s ticks).pool = s.pool := by
  induction ticks with
  | nil => exact fun _ => rfl
  | cons d ticks ih =>
    intro s
    exact (ih _).trans (runPeriodicTasks_pool env d s)

/-! ### The buffers after any time -/

variable {env} {s : Stack} {ops : List FragOp}

theorem not_reserved_of_givesUp (h : GivesUp env s) (i : Fin 4) :
    (s.pool.buf i).reserved = false := by
  by_contra hi
  rw [Bool.not_eq_false] at hi
  have hrel := ((h [15] (by simp) (by simp [xstackIpFragmentTlb])).1 i hi).1
  rw [run_pool, hi] at hrel
  cases hrel

theorem givesUp_of_not_reserved {l : List (Fin 4)} (hI : s.pool.Inv l)
    (h : ∀ i, (s.pool.buf i).reserved = false) : GivesUp env s := by
  intro ticks _ _
  rw [run_pool]
  refine ⟨fun i hi => absurd hi (by simp [h i]), fun hdr => ?_⟩
  have hfree : s.pool.firstFree = some 0 := by
    simp [Pool.firstFree, List.finRange_succ, h 0]
  have hnew : ∀ i ∈ l, ¬ SameKey hdr (s.pool.buf i).ipHdr := fun i hi =>
    absurd hi (hI.not_mem (h i))
  obtain ⟨head, l', hget, -, -⟩ := getPacketBuffer_reserve env.mc hI hnew hfree
  exact ⟨0, _, hget⟩

/-- **After every history of fragments, the datagrams that stay incomplete are given up iff there are
none.** -/
theorem givesUp_iff (env : Env) (ops : List FragOp) (s : Stack)
    (hreach : run env.mc Pool.init ops = some s.pool) :
    GivesUp env s ↔ ∀ i, (s.pool.buf i).reserved = false := by
  obtain ⟨l, hI⟩ := run_inv inv_init hreach
  exact ⟨not_reserved_of_givesUp, givesUp_of_not_reserved hI⟩

/-- The first eight bytes of a longer datagram from 192.0.2.1. -/
def lost : Pkt :=
  ⟨⟨0x45, 0, 28, 1, 0x2000, 64, 17, 0, 0xc0000201, 0xc0000202⟩, fun _ => 0⟩

theorem lost_fits : Fits lost.hdr := by decide

/-- One fragment whose datagram stays incomplete takes a buffer. -/
theorem run_lost (mc : Memcmp) : ∃ pool, run mc Pool.init [.input lost .zero fun _ => 0] = some pool ∧
    (pool.buf 0).reserved = true := by
  have hfree : Pool.init.firstFree = some 0 := by decide
  obtain ⟨pool, l, hstore, hI, hmem, -, hbuf⟩ :=
    ipFragmentStore_reserve (f := lost) mc inv_init (by simp) hfree
  have hbuf0 : pool.buf 0 = (Pool.init.buf 0).reserve lost.hdr := by
    rw [hbuf, Function.update_self]
  have hkey : SameKey lost.hdr (pool.buf 0).ipHdr := by
    rw [hbuf0]
    exact ⟨rfl, rfl, rfl, rfl⟩
  have hlen : (put1 (pool.buf 0) lost).ipHdr.ipLen = 0 := by
    rw [put1_len]
    rfl
  have hpart : (put1 (pool.buf 0) lost).complete = false := by
    simp [PacketBuf.complete, hlen]
  refine ⟨pool.set 0 (put1 (pool.buf 0) lost), ?_, ?_⟩
  · rw [ipFragmentStore_linked mc hI hmem hkey lost_fits, hpart] at hstore
    simp [run, step, hstore]
  · rw [set_self, put1_reserved, hbuf0]
    rfl

/-- Two fragments of a datagram of sixteen bytes. -/
def whole : List FragOp :=
  [.input ⟨⟨0x45, 0, 28, 2, 0x2000, 64, 17, 0, 0xc0000201, 0xc0000202⟩, fun _ => 1⟩ .zero fun _ => 0,
    .input ⟨⟨0x45, 0, 28, 2, 1, 64, 17, 0, 0xc0000201, 0xc0000202⟩, fun _ => 2⟩ .zero fun _ => 0]

/-- The first of them takes a buffer, and with the second the datagram is complete and the buffer free. -/
theorem givesUp_iff_whole : ∃ pool, run Memcmp.ofSign Pool.init whole = some pool ∧
    (run Memcmp.ofSign Pool.init (whole.take 1)).map (fun pool => (pool.buf 0).reserved) = some true ∧
    GivesUp ⟨.ofSign, fun _ => 0⟩ { Stack.init (fun _ => 0) with pool := pool } := by
  have hfree : (run Memcmp.ofSign Pool.init whole).map (fun pool =>
      decide (∀ i, (pool.buf i).reserved = false)) = some true := by decide +kernel
  obtain ⟨pool, hrun, hfree⟩ := Option.map_eq_some_iff.mp hfree
  exact ⟨pool, hrun, by decide +kernel,
    (givesUp_iff ⟨.ofSign, fun _ => 0⟩ whole _ hrun).mpr (of_decide_eq_true hfree)⟩

/-- One lost fragment, and its buffer is taken for good. -/
theorem buffer_kept : ∃ pool, run Memcmp.ofSign Pool.init [.input lost .zero fun _ => 0] = some pool ∧
    ¬ GivesUp ⟨.ofSign, fun _ => 0⟩ { Stack.init (fun _ => 0) with pool := pool } := by
  obtain ⟨pool, hrun, hres⟩ := run_lost .ofSign
  refine ⟨pool, hrun, fun h => ?_⟩
  have hfree := not_reserved_of_givesUp h 0
  rw [hres] at hfree
  cases hfree

end Xstack.Net.Periodic
