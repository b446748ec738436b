import Xstack.Ip.Feed
import Xstack.Net.Answer
import Xstack.Net.Frame

/-! # The reassembly buffers over whole runs

Calls of `ip_fragment_input` and `ip_fragment_timer`, with anything else happening to the rest of the
stack in between. `ip_input` and `ip_ntoh` rewrite the key of a buffer that is still linked, but nothing
is searched or inserted before it is released.

* `History`: the stack, and which fragments each buffer holds. `step`, `run`.
* `PoolOk`, `CallOk`: what holds after a call, and of the next one.
* `store_cases`: what `ip_fragment_input` does to the pool up to the completion branch;
  `completeFragments_spec`: the completion branch; `timer_spec`.
* `pool_invariant`: whole runs. -/

namespace Xstack.Net.Pool

open Xstack.Config Xstack.Lib.Bytes Xstack.Lib.Lex Xstack.Lib.Program Xstack.Ip.Header
open Xstack.Ip.Fragment Xstack.Ip.Feed Xstack.Net.State Xstack.Net.Send Xstack.Net.Input
open Xstack.Net.Validate Xstack.Net.Frame Xstack.Net.Answer

/-- A call, or a change of the rest of the stack. -/
inductive Op
  | input (f : Pkt)
  | timer (deltaTime : ℤ)
  | other (t : Stack)

/-- The stack, and the fragments that are in the buffers. -/
structure History where
  stack : Stack
  frags : Fin 4 → List Pkt

/-- A buffer that is not reserved holds no fragments. -/
def keep (pool : Pool) (frags : Fin 4 → List Pkt) : Fin 4 → List Pkt :=
  fun i => if (pool.buf i).reserved then frags i else []

/-- A fragment goes into the buffer that `get_packet_buffer` returns for it. -/
def note (mc : Memcmp) (pool : Pool) (f : Pkt) (frags : Fin 4 → List Pkt) : Fin 4 → List Pkt :=
  match pool.getPacketBuffer mc f.hdr with
  | some (some i, _) => Function.update frags i (frags i ++ [f])
  | _ => frags

variable (env : Env)

/-- One call; no result if it does not return. -/
def step (h : History) : Op → Option History
  | .input f =>
    match ipFragmentInput env f.hdr f.rx h.stack with
    | (some _, t) => some ⟨t, keep t.pool (note env.mc h.stack.pool f h.frags)⟩
    | (none, _) => none
  | .timer deltaTime => (ipFragmentTimer h.stack.pool deltaTime).map fun pool =>
    ⟨{ h.stack with pool := pool }, keep pool h.frags⟩
  | .other t => some ⟨{ t with pool := h.stack.pool }, h.frags⟩

def run (h : History) : List Op → Option History
  | [] => some h
  | op :: ops => (step env h op).bind fun h => run h ops

/-! ### The property -/

/-- **After a call.** -/
structure PoolOk (h : History) : Prop where
  reserved : ∀ i, (h.stack.pool.buf i).reserved = true ↔ h.stack.pool.head.Reach i
  distinct : ∀ i j, h.stack.pool.head.Reach i → h.stack.pool.head.Reach j →
    SameKey (h.stack.pool.buf i).ipHdr (h.stack.pool.buf j).ipHdr → i = j
  /-- A linked buffer holds fragments, and they all have its key. -/
  key : ∀ i, h.stack.pool.head.Reach i → h.frags i ≠ [] ∧
    ∀ f ∈ h.frags i, SameKey f.hdr (h.stack.pool.buf i).ipHdr

/-- All buffers are held by other datagrams than that of `hdr`. -/
def AllHeld (pool : Pool) (hdr : IpHdr) : Prop :=
  ∀ i, (pool.buf i).reserved = true ∧ ¬ SameKey hdr (pool.buf i).ipHdr

/-- **The next call of `ip_fragment_input`.** -/
structure CallOk (s : Stack) (f : Pkt) : Prop where
  /-- `RB_INSERT` in `get_packet_buffer` finds no buffer with the same key. -/
  inserts : ∀ i, s.pool.head.rbFind Pool.fuel (s.pool.packetBufCmp env.mc f.hdr) = some none →
    s.pool.firstFree = some i → ∃ head, (s.pool.set i ((s.pool.buf i).reserve f.hdr)).head.rbInsert
      Pool.fuel ((s.pool.set i ((s.pool.buf i).reserve f.hdr)).packetBufCmp env.mc f.hdr) i =
        some (head, none)
  nobufs : ∀ ret t, ipFragmentInput env f.hdr f.rx s = (some ret, t) →
    (ret = -ENOBUFS ↔ AllHeld s.pool f.hdr)
  /-- It returns, if `ip_input` and `ip_send` return for a completed datagram. -/
  returns : (ipFragmentInput env f.hdr f.rx s).1 = none → ∃ i pool,
    ipFragmentStore env.mc s.pool f.hdr f.rx = some (.complete i, pool) ∧
      ((do
        let a ← beforeSend env i
        ipSend env a.dst a.proto a.buf a.bsize : Act ℤ) { s with pool := pool }).1 = none

variable {env} {mc : Memcmp} {pool : Pool} {l : List (Fin 4)} {f : Pkt} {i : Fin 4} {s t : Stack}

/-! ### A fragment -/

theorem allHeld_iff (hI : pool.Inv l) (hdr : IpHdr) : AllHeld pool hdr ↔
    pool.firstFree = none ∧ ∀ i ∈ l, ¬ SameKey hdr (pool.buf i).ipHdr := by
  constructor
  · intro h
    refine ⟨?_, fun i _ => (h i).2⟩
    rw [Pool.firstFree, List.find?_eq_none]
    intro i _
    simp [(h i).1]
  · rintro ⟨hfree, hk⟩ i
    rw [Pool.firstFree, List.find?_eq_none] at hfree
    have hr : (pool.buf i).reserved = true := by simpa using hfree i (List.mem_finRange i)
    exact ⟨hr, hk i ((hI.reserved i).mpr hr)⟩

/-- **What a fragment does to the pool:** it is refused, or it goes into buffer `i`, which is that of its
datagram, and no other buffer changes. -/
theorem store_cases (mc : Memcmp) (hI : pool.Inv l) (hf : Fits f.hdr) :
    (AllHeld pool f.hdr ∧ pool.getPacketBuffer mc f.hdr = some (none, pool) ∧
      ipFragmentStore mc pool f.hdr f.rx = some (.nobufs, pool)) ∨
    ∃ i pool' l', ¬ AllHeld pool f.hdr ∧ pool.getPacketBuffer mc f.hdr = some (some i, pool') ∧
      pool'.Inv l' ∧ SameKey f.hdr (pool'.buf i).ipHdr ∧ (∀ j, j ∈ l' ↔ j = i ∨ j ∈ l) ∧
      (∀ j ∈ l, pool'.buf j = pool.buf j) ∧
      ipFragmentStore mc pool f.hdr f.rx =
        some (if (put1 (pool'.buf i) f).complete then .complete i else .stored,
          pool'.set i (put1 (pool'.buf i) f)) := by
  by_cases hk : ∃ i ∈ l, SameKey f.hdr (pool.buf i).ipHdr
  · obtain ⟨i, hi, hk⟩ := hk
    refine Or.inr ⟨i, pool, l, fun h => (h i).2 hk, getPacketBuffer_linked mc hI hi hk, hI, hk,
      fun j => ?_, fun _ _ => rfl, ipFragmentStore_linked mc hI hi hk hf⟩
    constructor
    · exact fun hj => Or.inr hj
    · rintro (rfl | hj)
      · exact hi
      · exact hj
  · have hk : ∀ i ∈ l, ¬ SameKey f.hdr (pool.buf i).ipHdr := fun i hi h => hk ⟨i, hi, h⟩
    cases hfree : pool.firstFree with
    | none =>
      exact Or.inl ⟨(allHeld_iff hI f.hdr).mpr ⟨hfree, hk⟩, getPacketBuffer_full mc hI hk hfree,
        ipFragmentStore_full mc hI hk hfree⟩
    | some i =>
      obtain ⟨head, l', hget, hI', hperm⟩ := getPacketBuffer_reserve mc hI hk hfree
      have hi : i ∈ l' := hperm.mem_iff.mpr List.mem_cons_self
      have hnot : i ∉ l := hI.not_mem (firstFree_spec hfree)
      have hsame : SameKey f.hdr ((pool.set i ((pool.buf i).reserve f.hdr)).buf i).ipHdr := by
        rw [set_self]
        exact ⟨rfl, rfl, rfl, rfl⟩
      refine Or.inr ⟨i, _, l', fun h => ?_, hget, hI', hsame, fun j => ?_, fun j hj => ?_, ?_⟩
      · have hall := ((allHeld_iff hI f.hdr).mp h).1
        rw [hfree] at hall
        cases hall
      · rw [hperm.mem_iff, List.mem_cons]
      · refine set_of_ne ?_
        rintro rfl
        exact hnot hj
      · simp [ipFragmentStore, fragOff_le_max, hget, store_eq, hf]

/-! ### The completion branch -/

theorem callHandler_pool (env : Env) (proto : Proto) (ip : IpHdr) (b : Buf) (size : ℕ) :
    Steps (Unchanged Stack.pool) (callHandler env proto ip b size) := by
  have hproto : Steps (Unchanged Stack.pool) (protoInput env proto ip b (ipHdrHlen ip) size) := by
    refine (protoInput_handled env proto ip b (ipHdrHlen ip) size).mono ?_
    rintro s t ⟨_, _, rfl⟩
    rfl
  unfold callHandler
  refine .bind .trans (.modify fun s => rfl) fun _ => .bind .trans hproto fun _ => ?_
  exact .ite (fun _ => .pure .refl _) fun _ => .ite (fun _ => .pure .refl _) fun _ => .pure .refl _

/-- `ip_input` of a reassembled datagram does not touch the pool. -/
theorem ipInputWith_pool (env : Env) (b : Buf) (bsize : ℕ) :
    Steps (Unchanged Stack.pool) (ipInputWith env (fun _ _ => stuck) none b bsize) := by
  have hcheck : Steps (Unchanged Stack.pool) (ipCheck none (hdrOf none b) bsize) := by
    refine (ipCheck_learned none (hdrOf none b) bsize).mono ?_
    rintro s t ⟨_, _, rfl⟩
    rfl
  refine .bind .trans hcheck fun call => ?_
  rcases call with _ | ⟨code, size⟩ | size | ⟨proto, size⟩
  · exact .pure .refl _
  · exact .pure .refl _
  · exact .bind .trans (.stuck .refl) fun _ => .pure .refl _
  · exact callHandler_pool env proto _ _ size

theorem ipSend_pool (env : Env) (dst : InAddr) (proto : UInt8) (buf : Buf) (bsize : ℕ) :
    Steps (Unchanged Stack.pool) (ipSend env dst proto buf bsize) := by
  refine (ipSend_sending env dst proto buf bsize).mono ?_
  rintro s t ⟨_, _, _, _, _, rfl⟩
  rfl

/-- What is in the buffer of a completed datagram is rewritten, while it is linked. -/
theorem beforeSend_pool {a : SendArgs} (h : beforeSend env i s = (some a, t)) : ∃ hdr payload,
    t.pool = s.pool.set i { s.pool.buf i with ipHdr := hdr, payload := payload } := by
  unfold beforeSend at h
  rw [get_bind] at h
  have hpool := ipInputWith_pool env (packetMem (s.pool.buf i))
    (s.pool.buf i).ipHdr.ipLen.toNat s
  rcases hrun : ipInputWith env (fun _ _ => stuck) none (packetMem (s.pool.buf i))
    (s.pool.buf i).ipHdr.ipLen.toNat s with ⟨_ | ⟨r, mem⟩, u⟩
  · rw [bind_of_none hrun] at h
    cases h
  · rw [hrun] at hpool
    have hpool : u.pool = s.pool := hpool
    rw [bind_of_some hrun] at h
    cases h
    refine ⟨ipNtoh (IpHdr.load mem), shift mem ipHdrSize, ?_⟩
    rw [← hpool]

/-- **The completion branch releases the buffer,** and returns if `ip_input` and `ip_send` do. -/
theorem completeFragments_spec (env : Env) (hI : s.pool.Inv l) (hi : i ∈ l) :
    (∃ t, completeFragments env i s = (some 0, t) ∧ t.pool.Inv (l.erase i) ∧
      ∀ j, j ≠ i → t.pool.buf j = s.pool.buf j) ∨
    ((completeFragments env i s).1 = none ∧ ((do
      let a ← beforeSend env i
      ipSend env a.dst a.proto a.buf a.bsize : Act ℤ) s).1 = none) := by
  rw [completeFragments_eq]
  rcases hbefore : beforeSend env i s with ⟨_ | a, t⟩
  · right
    rw [bind_of_none hbefore, bind_of_none hbefore]
    exact ⟨rfl, rfl⟩
  obtain ⟨hdr, payload, hpool⟩ := beforeSend_pool hbefore
  rw [bind_of_some hbefore, bind_of_some hbefore]
  have hsend := ipSend_pool env a.dst a.proto a.buf a.bsize t
  rcases hrun : ipSend env a.dst a.proto a.buf a.bsize t with ⟨_ | r, u⟩
  · right
    rw [bind_of_none hrun]
    exact ⟨rfl, rfl⟩
  left
  rw [hrun] at hsend
  have hu : u.pool = s.pool.set i { s.pool.buf i with ipHdr := hdr, payload := payload } :=
    Eq.trans hsend hpool
  rw [bind_of_some hrun]
  obtain ⟨head, hrel, hI'⟩ := release_spec (p := { s.pool.buf i with ipHdr := hdr, payload := payload })
    hI hi
  rw [← hu] at hrel
  refine ⟨{ u with pool := _ }, ?_, hI', fun j hj => set_of_ne hj⟩
  unfold afterSend
  rw [get_bind, hrel]
  rfl

/-! ### A call of `ip_fragment_input` -/

/-- The call after the fragment is stored. -/
theorem ipFragmentInput_stored (h : ipFragmentStore env.mc s.pool f.hdr f.rx = some (.stored, pool)) :
    ipFragmentInput env f.hdr f.rx s = (some 0, { s with pool := pool }) := by
  unfold ipFragmentInput
  rw [get_bind, h]
  rfl

theorem ipFragmentInput_complete
    (h : ipFragmentStore env.mc s.pool f.hdr f.rx = some (.complete i, pool)) :
    ipFragmentInput env f.hdr f.rx s = completeFragments env i { s with pool := pool } := by
  unfold ipFragmentInput
  rw [get_bind, h]
  rfl

theorem ipFragmentInput_nobufs (h : ipFragmentStore env.mc s.pool f.hdr f.rx = some (.nobufs, s.pool)) :
    ipFragmentInput env f.hdr f.rx s = (some (-ENOBUFS), s) := by
  unfold ipFragmentInput
  rw [get_bind, h]
  rfl

/-- The fragment does not complete its datagram, or it does and the datagram is answered. -/
theorem stored_cases (env : Env) {pool' : Pool} (hI : pool'.Inv l) (hi : i ∈ l)
    (hk : SameKey f.hdr (pool'.buf i).ipHdr) (hstore : ipFragmentStore env.mc s.pool f.hdr f.rx =
      some (if (put1 (pool'.buf i) f).complete then .complete i else .stored,
        pool'.set i (put1 (pool'.buf i) f))) :
    (∃ t l', ipFragmentInput env f.hdr f.rx s = (some 0, t) ∧ t.pool.Inv l' ∧ (∀ j ∈ l', j ∈ l) ∧
      ∀ j ∈ l', t.pool.buf j = (pool'.set i (put1 (pool'.buf i) f)).buf j) ∨
    ((ipFragmentInput env f.hdr f.rx s).1 = none ∧ ∃ pool,
      ipFragmentStore env.mc s.pool f.hdr f.rx = some (.complete i, pool) ∧ ((do
        let a ← beforeSend env i
        ipSend env a.dst a.proto a.buf a.bsize : Act ℤ) { s with pool := pool }).1 = none) := by
  have hset : (pool'.set i (put1 (pool'.buf i) f)).Inv l := hI.set put1_reserved (put1_key hk)
  split_ifs at hstore with hc
  · rw [ipFragmentInput_complete hstore]
    rcases completeFragments_spec (s := { s with pool := pool'.set i (put1 (pool'.buf i) f) }) env hset hi
      with ⟨t, hrun, hI', hbuf⟩ | ⟨hnone, hnone'⟩
    · refine Or.inl ⟨t, l.erase i, hrun, hI', fun j hj => List.mem_of_mem_erase hj, fun j hj => ?_⟩
      exact hbuf j (hI.valid.nodup.mem_erase_iff.mp hj).1
    · exact Or.inr ⟨hnone, _, hstore, hnone'⟩
  · rw [ipFragmentInput_stored hstore]
    exact Or.inl ⟨_, l, rfl, hset, fun _ hj => hj, fun _ _ => rfl⟩

/-- `RB_FIND` has found nothing, so no linked buffer has the key. -/
theorem not_sameKey_of_find (hI : pool.Inv l)
    (h : pool.head.rbFind Pool.fuel (pool.packetBufCmp mc f.hdr) = some none) :
    ∀ i ∈ l, ¬ SameKey f.hdr (pool.buf i).ipHdr := by
  intro i hi hk
  rw [find_linked hI hi hk] at h
  cases h

/-- **`RB_INSERT` in `get_packet_buffer` succeeds.** -/
theorem insert_succeeds (hI : pool.Inv l)
    (hfind : pool.head.rbFind Pool.fuel (pool.packetBufCmp mc f.hdr) = some none)
    (hfree : pool.firstFree = some i) : ∃ head, (pool.set i ((pool.buf i).reserve f.hdr)).head.rbInsert
      Pool.fuel ((pool.set i ((pool.buf i).reserve f.hdr)).packetBufCmp mc f.hdr) i =
        some (head, none) := by
  obtain ⟨head, l', hget, -, -⟩ := getPacketBuffer_reserve mc hI (not_sameKey_of_find hI hfind) hfree
  unfold Pool.getPacketBuffer at hget
  rw [hfind] at hget
  simp only [Option.bind_eq_bind, Option.bind_some, hfree] at hget
  -- the failure branch would return no buffer
  rcases hins : (pool.set i ((pool.buf i).reserve f.hdr)).head.rbInsert Pool.fuel
    ((pool.set i ((pool.buf i).reserve f.hdr)).packetBufCmp mc f.hdr) i with _ | ⟨head', _ | y⟩
  · rw [hins] at hget
    cases hget
  · exact ⟨head', rfl⟩
  · rw [hins] at hget
    simp only [Option.bind_some] at hget
    obtain ⟨_, -, hnone⟩ := Option.bind_eq_some_iff.mp hget
    cases hnone

/-- **The next call,** from any state in which the invariant holds. -/
theorem call_ok (hI : s.pool.Inv l) (hf : Fits f.hdr) : CallOk env s f := by
  refine ⟨fun i hfind hfree => insert_succeeds hI hfind hfree, fun ret t hrun => ?_, fun hnone => ?_⟩
  · rcases store_cases env.mc hI hf with ⟨hheld, -, hstore⟩ |
      ⟨i, pool', l', hheld, -, hI', hk, hmem, -, hstore⟩
    · rw [ipFragmentInput_nobufs hstore] at hrun
      cases hrun
      exact iff_of_true rfl hheld
    · have hi : i ∈ l' := (hmem i).mpr (Or.inl rfl)
      refine iff_of_false ?_ hheld
      rcases stored_cases env hI' hi hk hstore with ⟨u, -, hrun', -⟩ | ⟨hnone, -⟩
      · rw [hrun'] at hrun
        cases hrun
        decide
      · rw [hrun] at hnone
        cases hnone
  · rcases store_cases env.mc hI hf with ⟨-, -, hstore⟩ | ⟨i, pool', l', -, -, hI', hk, hmem, -, hstore⟩
    · rw [ipFragmentInput_nobufs hstore] at hnone
      cases hnone
    · have hi : i ∈ l' := (hmem i).mpr (Or.inl rfl)
      rcases stored_cases env hI' hi hk hstore with ⟨u, -, hrun, -⟩ | ⟨-, hstuck⟩
      · rw [hrun] at hnone
        cases hnone
      · exact ⟨i, hstuck⟩

/-! ### Whole runs -/

/-- The invariant of the pool, with the fragments of each buffer. -/
structure Good (h : History) (l : List (Fin 4)) : Prop where
  inv : h.stack.pool.Inv l
  empty : ∀ i, i ∉ l → h.frags i = []
  frags : ∀ i ∈ l, h.frags i ≠ [] ∧ ∀ f ∈ h.frags i, SameKey f.hdr (h.stack.pool.buf i).ipHdr

theorem good_init {s : Stack} (hs : s.pool = Pool.init) : Good ⟨s, fun _ => []⟩ [] := by
  refine ⟨?_, fun _ _ => rfl, fun i hi => absurd hi List.not_mem_nil⟩
  show s.pool.Inv []
  rw [hs]
  exact inv_init

/-- The lists of the buffers that are not linked are emptied. -/
theorem good_keep {frags : Fin 4 → List Pkt} (hI : t.pool.Inv l) (hfrags : ∀ i ∈ l, frags i ≠ [] ∧
    ∀ f ∈ frags i, SameKey f.hdr (t.pool.buf i).ipHdr) : Good ⟨t, keep t.pool frags⟩ l := by
  refine ⟨hI, fun i hi => ?_, fun i hi => ?_⟩
  · have hres : ¬ (t.pool.buf i).reserved = true := fun h => hi ((hI.reserved i).mpr h)
    exact if_neg hres
  · have hkeep : keep t.pool frags i = frags i := if_pos ((hI.reserved i).mp hi)
    dsimp only
    rw [hkeep]
    exact hfrags i hi

/-- The lists after a fragment has gone into buffer `i`. -/
theorem frags_note {h : History} (hg : Good h l) {pool' : Pool} {l' : List (Fin 4)}
    (hget : h.stack.pool.getPacketBuffer mc f.hdr = some (some i, pool'))
    (hk : SameKey f.hdr (pool'.buf i).ipHdr) (hmem : ∀ j, j ∈ l' ↔ j = i ∨ j ∈ l)
    (hbuf : ∀ j ∈ l, pool'.buf j = h.stack.pool.buf j) : ∀ j ∈ l',
      note mc h.stack.pool f h.frags j ≠ [] ∧ ∀ g ∈ note mc h.stack.pool f h.frags j,
        SameKey g.hdr ((pool'.set i (put1 (pool'.buf i) f)).buf j).ipHdr := by
  have hnote : note mc h.stack.pool f h.frags = Function.update h.frags i (h.frags i ++ [f]) := by
    unfold note
    rw [hget]
  intro j hj
  rw [hnote]
  by_cases hji : j = i
  · subst hji
    rw [Function.update_self, set_self]
    refine ⟨by simp, fun g hg' => ?_⟩
    rcases List.mem_append.mp hg' with hold | hnew
    · -- the buffer was linked, since it holds a fragment
      have hl : j ∈ l := by
        by_contra hnot
        rw [hg.empty j hnot] at hold
        exact List.not_mem_nil hold
      have hkey := (hg.frags j hl).2 g hold
      rw [← hbuf j hl] at hkey
      exact hkey.trans (put1_key hk).symm
    · obtain rfl := List.mem_singleton.mp hnew
      exact hk.trans (put1_key hk).symm
  · have hl : j ∈ l := ((hmem j).mp hj).resolve_left hji
    rw [Function.update_of_ne hji, set_of_ne hji, hbuf j hl]
    exact hg.frags j hl

theorem step_input {h : History} {ret : ℤ} (hrun : ipFragmentInput env f.hdr f.rx h.stack = (some ret, t)) :
    step env h (.input f) = some ⟨t, keep t.pool (note env.mc h.stack.pool f h.frags)⟩ := by
  simp only [step, hrun]

theorem step_timer {h : History} {d : ℤ} {pool' : Pool}
    (hrun : ipFragmentTimer h.stack.pool d = some pool') :
    step env h (.timer d) = some ⟨{ h.stack with pool := pool' }, keep pool' h.frags⟩ := by
  show (ipFragmentTimer h.stack.pool d).map _ = _
  rw [hrun]
  rfl

theorem step_input_good {h h' : History} (hg : Good h l) (hf : Fits f.hdr)
    (hs : step env h (.input f) = some h') : ∃ l', Good h' l' := by
  rcases store_cases env.mc hg.inv hf with ⟨-, hget, hstore⟩ |
    ⟨i, pool', l', -, hget, hI', hk, hmem, hbuf, hstore⟩
  · have hnote : note env.mc h.stack.pool f h.frags = h.frags := by
      unfold note
      rw [hget]
    rw [step_input (ipFragmentInput_nobufs hstore), hnote] at hs
    obtain rfl := Option.some.inj hs
    exact ⟨l, good_keep hg.inv hg.frags⟩
  · have hi : i ∈ l' := (hmem i).mpr (Or.inl rfl)
    have hfrags := frags_note hg hget hk hmem hbuf
    rcases stored_cases env hI' hi hk hstore with ⟨t, l'', hrun, hI'', hsub, hbuf'⟩ | ⟨hnone, -⟩
    · rw [step_input hrun] at hs
      obtain rfl := Option.some.inj hs
      refine ⟨l'', good_keep hI'' fun j hj => ?_⟩
      rw [hbuf' j hj]
      exact hfrags j (hsub j hj)
    · rcases hrun : ipFragmentInput env f.hdr f.rx h.stack with ⟨_ | ret, t⟩
      · simp [step, hrun] at hs
      · rw [hrun] at hnone
        cases hnone

/-- **What one call does.** -/
theorem step_good {h h' : History} {op : Op} (hg : Good h l) (hfits : ∀ f, op = .input f → Fits f.hdr)
    (hs : step env h op = some h') : ∃ l', Good h' l' := by
  cases op with
  | input f => exact step_input_good hg (hfits f rfl) hs
  | timer d =>
    obtain ⟨pool', l', htimer, hI, hsub, hkey⟩ := timer_spec d hg.inv
    rw [step_timer htimer] at hs
    obtain rfl := Option.some.inj hs
    refine ⟨l', good_keep (t := { h.stack with pool := pool' }) hI fun i hi => ?_⟩
    rw [hkey i]
    exact hg.frags i (hsub i hi)
  | other t =>
    obtain rfl := Option.some.inj hs
    exact ⟨l, hg.inv, hg.empty, hg.frags⟩

theorem run_good : ∀ (ops : List Op) {h h' : History} {l : List (Fin 4)}, Good h l →
    (∀ f, .input f ∈ ops → Fits f.hdr) → run env h ops = some h' → ∃ l', Good h' l'
  | [], h, _, l, hg, _, hrun => ⟨l, Option.some.inj hrun ▸ hg⟩
  | op :: ops, h, h', l, hg, hfits, hrun => by
    obtain ⟨h₁, hstep, hrest⟩ := Option.bind_eq_some_iff.mp hrun
    obtain ⟨l₁, hg₁⟩ := step_good hg (fun f hf => hfits f (hf ▸ List.mem_cons_self)) hstep
    exact run_good ops hg₁ (fun f hf => hfits f (List.mem_cons_of_mem _ hf)) hrest

theorem poolOk_of_good {h : History} (hg : Good h l) : PoolOk h where
  reserved i := by
    rw [← hg.inv.reserved i, hg.inv.valid.reach]
  distinct i j hi hj hk :=
    hg.inv.eq_of_key ((hg.inv.valid.reach i).mp hi) ((hg.inv.valid.reach j).mp hj) hk
  key i hi := hg.frags i ((hg.inv.valid.reach i).mp hi)

/-- **The pool after every run** of calls with fragments that fit, and the next call. -/
theorem pool_invariant (env : Env) (s : Stack) (hs : s.pool = Pool.init) (ops : List Op)
    (hfits : ∀ f, .input f ∈ ops → Fits f.hdr) (h : History)
    (hrun : run env ⟨s, fun _ => []⟩ ops = some h) : PoolOk h ∧
      (∀ f, Fits f.hdr → CallOk env h.stack f) ∧ ∀ d, (ipFragmentTimer h.stack.pool d).isSome := by
  obtain ⟨l, hg⟩ := run_good ops (good_init hs) hfits hrun
  refine ⟨poolOk_of_good hg, fun f hf => call_ok hg.inv hf, fun d => ?_⟩
  obtain ⟨pool', l', htimer, -⟩ := timer_spec d hg.inv
  rw [htimer]
  rfl

/-- A datagram in two fragments, completed and answered, and the first fragment of another one. -/
def twoDatagrams : List Op := [.input ⟨halfHdr ipProtoUdp ipFlagsMf, fun _ => 0⟩,
  .input ⟨halfHdr ipProtoUdp 3, fun _ => 0⟩, .timer 1, .input ⟨halfHdr ipProtoIcmp ipFlagsMf, fun _ => 0⟩]

theorem pool_invariant_two : ∃ h, run ⟨.ofSign, fun _ => 42⟩ ⟨Udp.RoundTrip.loopback, fun _ => []⟩
    twoDatagrams = some h ∧ PoolOk h ∧ (∀ f, Fits f.hdr → CallOk ⟨.ofSign, fun _ => 42⟩ h.stack f) := by
  have hsome : (run ⟨.ofSign, fun _ => 42⟩ ⟨Udp.RoundTrip.loopback, fun _ => []⟩ twoDatagrams).isSome := by
    decide +kernel
  obtain ⟨h, hrun⟩ := Option.isSome_iff_exists.mp hsome
  have hfits : ∀ f, Op.input f ∈ twoDatagrams → Fits f.hdr := by
    intro f hf
    simp only [twoDatagrams, List.mem_cons, Op.input.injEq, reduceCtorEq, List.not_mem_nil, or_false,
      false_or] at hf
    rcases hf with rfl | rfl | rfl
    · decide
    · decide
    · decide
  obtain ⟨hok, hcall, -⟩ := pool_invariant _ _ rfl twoDatagrams hfits h hrun
  exact ⟨h, hrun, hok, hcall⟩

end Xstack.Net.Pool
