import Xstack.Lib.Ring
import Xstack.Net.Frame

/-! # The queue of deferred packets

`ip_defer_push` and `ip_defer_handler` over whole runs. The ring keeps the packets in order, with
their destination, protocol and bytes, but not their sizes: `buf_size` is never written, so the
handler sends packets of size zero (`Inv`). What it sends is what was pushed iff that had no bytes
(`faithful_iff`), so the queue is a faithful FIFO if it accepts no other packets (`faithful`). -/

namespace Xstack.Net.Defer

open Xstack.Config Xstack.Lib.Bytes Xstack.Lib.Program Xstack.Lib.Ring Xstack.Ether
open Xstack.Net.State Xstack.Net.Send Xstack.Net.Frame

/-- A packet given to `ip_defer_push`. -/
structure Packet where
  dst : InAddr
  proto : UInt8
  data : List UInt8

/-- The stack, and the packets that were pushed with success. -/
structure History where
  stack : Stack
  pushed : List Packet

inductive Op
  | push (dst : InAddr) (proto : UInt8) (buf : Buf) (bsize : ℕ)
  | handler
  /-- Anything else: the rest of the stack is as in `t`. -/
  | other (t : Stack)

def step (env : Env) (h : History) : Op → History
  | .push dst proto buf bsize =>
    let (retval, s) := ipDeferPush dst proto buf bsize h.stack
    ⟨s, if retval = some 0 then h.pushed ++ [⟨dst, proto, slice buf bsize⟩] else h.pushed⟩
  | .handler => { h with stack := (ipDeferHandler env h.stack).2 }
  | .other t => { h with stack := { t with defer := h.stack.defer, deferLog := h.stack.deferLog } }

def run (env : Env) (h : History) (ops : List Op) : History := ops.foldl (step env) h

/-- The queue at start-up. -/
def emptyQueue : DeferQueue := ⟨fun _ => ⟨0, 0, 0, 0, fun _ => 0⟩, 0, 0, false⟩

def start (s : Stack) : History := ⟨{ s with defer := emptyQueue, deferLog := [] }, []⟩

/-- The number of packets that were dropped. -/
def drops : List DeferEvent → ℕ
  | [] => 0
  | .drop :: l => drops l + 1
  | .send _ :: l => drops l

/-- **The handler sends what was pushed, in this order:** the packet sent after `n` drops is the one
that was pushed after `n` others. -/
def Faithful (h : History) : Prop :=
  ∀ pre ipd post, h.stack.deferLog = pre ++ .send ipd :: post →
    ∃ p, h.pushed[drops pre]? = some p ∧ ipd.dst = p.dst ∧ ipd.proto = p.proto ∧
      ipd.bufSize = p.data.length ∧ slice ipd.buf ipd.bufSize = p.data

/-- The packets that come to be sent have no bytes. -/
def SentEmpty (h : History) : Prop :=
  ∀ pre ipd post, h.stack.deferLog = pre ++ .send ipd :: post →
    ∀ p, h.pushed[drops pre]? = some p → p.data = []

/-- The tests of `ip_defer_push`. -/
def Accepts (q : DeferQueue) (bsize : ℕ) : Prop :=
  q.deferInhibit = false ∧ nextSlot q.qWr ≠ q.qRd ∧ bsize ≤ etherAlen

/-- The condition on one call, in the state before it: a packet that is accepted has no bytes. -/
def Harmless (h : History) : Op → Prop
  | .push _ _ _ bsize => Accepts h.stack.defer bsize → bsize = 0
  | _ => True

/-! ### The invariant -/

/-- A slot has the packet, but for its size. -/
structure Carries (ipd : IpDefer) (p : Packet) : Prop where
  dst : ipd.dst = p.dst
  proto : ipd.proto = p.proto
  data : slice ipd.buf p.data.length = p.data
  bufSize : ipd.bufSize = 0

/-- The `k`th slot, counted without end. -/
def slotNr (k : ℕ) : Fin xstackIpDeferMax := Fin.ofNat _ k

/-- **The ring holds the packets that were pushed and not dropped,** and all were sent in order. -/
structure Inv (pushed : List Packet) (q : DeferQueue) (log : List DeferEvent) : Prop where
  counts : Counts xstackIpDeferMax (drops log) pushed.length
  rd : q.qRd = slotNr (drops log)
  wr : q.qWr = slotNr pushed.length
  slots : ∀ k p, drops log ≤ k → pushed[k]? = some p → Carries (q.slot (slotNr k)) p
  sizes : ∀ i, (q.slot i).bufSize = 0
  sent : ∀ pre ipd post, log = pre ++ .send ipd :: post →
    ∃ p, pushed[drops pre]? = some p ∧ Carries ipd p

variable {pushed : List Packet} {q : DeferQueue} {log : List DeferEvent} {s t : Stack}

@[simp] theorem drops_append : ∀ l l' : List DeferEvent, drops (l ++ l') = drops l + drops l'
  | [], l' => (Nat.zero_add _).symm
  | .drop :: l, l' => by
    rw [List.cons_append, drops, drops, drops_append l l']
    omega
  | .send _ :: l, l' => by rw [List.cons_append, drops, drops, drops_append l l']

theorem nextSlot_slotNr (k : ℕ) : nextSlot (slotNr k) = slotNr (k + 1) := by
  apply Fin.ext
  show (k % 20 + 1 % 20) % 20 = (k + 1) % 20
  omega

theorem slotNr_eq_iff {j k : ℕ} : slotNr j = slotNr k ↔ j % xstackIpDeferMax = k % xstackIpDeferMax :=
  Fin.ext_iff

/-- The test of `ip_defer_peek`. -/
theorem Inv.empty_iff (h : Inv pushed q log) : q.qRd = q.qWr ↔ drops log = pushed.length := by
  rw [h.rd, h.wr, slotNr_eq_iff, h.counts.empty_iff]

/-- The test of `ip_defer_push`. -/
theorem Inv.full_iff (h : Inv pushed q log) :
    nextSlot q.qWr = q.qRd ↔ pushed.length + 1 = drops log + xstackIpDeferMax := by
  rw [h.rd, h.wr, nextSlot_slotNr, slotNr_eq_iff, ← h.counts.full_iff, Counts.next]

theorem inv_start : Inv [] emptyQueue [] where
  counts := ⟨le_rfl, by decide⟩
  rd := rfl
  wr := rfl
  slots := by simp
  sizes := fun _ => rfl
  sent := by simp

/-! ### What the operations do -/

theorem Inv.countTry (h : Inv pushed q log) : Inv pushed (DeferQueue.countTry q) log := by
  have hslot : ∀ i, ((DeferQueue.countTry q).slot i).dst = (q.slot i).dst ∧
      ((DeferQueue.countTry q).slot i).proto = (q.slot i).proto ∧
      ((DeferQueue.countTry q).slot i).buf = (q.slot i).buf ∧
      ((DeferQueue.countTry q).slot i).bufSize = (q.slot i).bufSize := by
    intro i
    unfold DeferQueue.countTry
    dsimp only
    by_cases hi : i = q.qRd
    · subst hi
      rw [Function.update_self]
      exact ⟨rfl, rfl, rfl, rfl⟩
    · rw [Function.update_of_ne hi]
      exact ⟨rfl, rfl, rfl, rfl⟩
  refine ⟨h.counts, h.rd, h.wr, fun k p hk hp => ?_, fun i => ?_, h.sent⟩
  · obtain ⟨h1, h2, h3, h4⟩ := h.slots k p hk hp
    obtain ⟨e1, e2, e3, e4⟩ := hslot (slotNr k)
    exact ⟨e1.trans h1, e2.trans h2, by rw [e3, h3], e4.trans h4⟩
  · rw [(hslot i).2.2.2, h.sizes]

/-- The first packet is dropped. -/
theorem Inv.drop (h : Inv pushed q log) (hne : q.qRd ≠ q.qWr) :
    Inv pushed (DeferQueue.drop q) (log ++ [.drop]) := by
  have hlt : drops log < pushed.length := by
    have := h.counts.le
    have := mt h.empty_iff.mpr hne
    omega
  have hd : drops (log ++ [.drop]) = drops log + 1 := drops_append _ _
  have hc := h.counts.lt
  refine ⟨⟨by omega, by omega⟩, ?_, h.wr, fun k p hk hp => ?_, h.sizes, fun pre ipd post heq => ?_⟩
  · show nextSlot q.qRd = _
    rw [h.rd, nextSlot_slotNr, hd]
  · exact h.slots k p (by omega) hp
  · rcases split_snoc heq with ⟨-, he, -⟩ | ⟨post, -, heq⟩
    · cases he
    · exact h.sent pre ipd post heq

/-- The first packet is sent. -/
theorem Inv.send (h : Inv pushed q log) (hne : q.qRd ≠ q.qWr) :
    Inv pushed q (log ++ [.send (q.slot q.qRd)]) := by
  have hlt : drops log < pushed.length := by
    have := h.counts.le
    have := mt h.empty_iff.mpr hne
    omega
  have hd : drops (log ++ [.send (q.slot q.qRd)]) = drops log := drops_append _ _
  refine ⟨by rw [hd]; exact h.counts, by rw [hd]; exact h.rd, h.wr, by rw [hd]; exact h.slots, h.sizes,
    fun pre ipd post heq => ?_⟩
  rcases split_snoc heq with ⟨rfl, he, -⟩ | ⟨post, -, heq⟩
  · obtain rfl : ipd = q.slot q.qRd := DeferEvent.send.inj he
    refine ⟨pushed[drops pre], List.getElem?_eq_getElem hlt, ?_⟩
    rw [h.rd]
    exact h.slots _ _ le_rfl (List.getElem?_eq_getElem hlt)
  · exact h.sent pre ipd post heq

theorem slice_copy (b buf : Buf) (n : ℕ) : slice (copy b 0 buf n) n = slice buf n := by
  refine Agree.slice fun i hi => ?_
  have hcopy : copy b 0 buf n (0 + i) = buf i := copy_inside hi
  rwa [Nat.zero_add] at hcopy

section

variable {dst : InAddr} {proto : UInt8} {buf : Buf} {bsize : ℕ}

theorem push_inhibited (h : q.deferInhibit = true) :
    DeferQueue.ipDeferPush q dst proto buf bsize = (-EALREADY, q) := if_pos h

theorem push_full (h : q.deferInhibit = false) (hf : nextSlot q.qWr = q.qRd) :
    DeferQueue.ipDeferPush q dst proto buf bsize = (-ENOBUFS, q) := by
  unfold DeferQueue.ipDeferPush
  rw [if_neg (by simp [h]), if_pos hf]

theorem push_large (h : q.deferInhibit = false) (hf : nextSlot q.qWr ≠ q.qRd)
    (hb : bsize > etherAlen) : DeferQueue.ipDeferPush q dst proto buf bsize = (-EMSGSIZE, q) := by
  unfold DeferQueue.ipDeferPush
  rw [if_neg (by simp [h]), if_neg hf, if_pos hb]

/-- The queue with one more packet, whose size is what the slot had. -/
def enqueue (q : DeferQueue) (dst : InAddr) (proto : UInt8) (buf : Buf) (bsize : ℕ) : DeferQueue :=
  { q with
    slot := Function.update q.slot q.qWr { q.slot q.qWr with
      tries := 0, dst := dst, proto := proto, buf := copy (q.slot q.qWr).buf 0 buf bsize }
    qWr := nextSlot q.qWr }

theorem push_ok (h : q.deferInhibit = false) (hf : nextSlot q.qWr ≠ q.qRd)
    (hb : ¬ bsize > etherAlen) :
    DeferQueue.ipDeferPush q dst proto buf bsize = (0, enqueue q dst proto buf bsize) := by
  unfold DeferQueue.ipDeferPush
  rw [if_neg (by simp [h]), if_neg hf, if_neg hb]
  rfl

/-- **A packet that fails a test is not pushed.** -/
theorem push_refused (h : ¬ Accepts q bsize) (dst : InAddr) (proto : UInt8) (buf : Buf) :
    ∃ e, e ≠ 0 ∧ DeferQueue.ipDeferPush q dst proto buf bsize = (e, q) := by
  cases h1 : q.deferInhibit with
  | true => exact ⟨_, by decide, push_inhibited h1⟩
  | false =>
    by_cases h2 : nextSlot q.qWr = q.qRd
    · exact ⟨_, by decide, push_full h1 h2⟩
    · have h3 : bsize > etherAlen := by
        by_contra h3
        exact h ⟨h1, h2, by omega⟩
      exact ⟨_, by decide, push_large h1 h2 h3⟩

end

/-- A packet is pushed. -/
theorem Inv.enqueue (h : Inv pushed q log) (h2 : nextSlot q.qWr ≠ q.qRd) (dst : InAddr)
    (proto : UInt8) (buf : Buf) (bsize : ℕ) :
    Inv (pushed ++ [⟨dst, proto, slice buf bsize⟩]) (enqueue q dst proto buf bsize) log := by
  have hfull := mt h.full_iff.mpr h2
  have hlt := h.counts.lt
  have hle := h.counts.le
  refine ⟨⟨by simp; omega, by simp; omega⟩, h.rd, ?_, fun k p hk hp => ?_, fun i => ?_,
    fun pre ipd post heq => ?_⟩
  · show nextSlot q.qWr = _
    rw [h.wr, nextSlot_slotNr, List.length_append, List.length_singleton]
  · show Carries (Function.update q.slot q.qWr _ (slotNr k)) p
    by_cases hkl : k < pushed.length
    · have hne : slotNr k ≠ q.qWr := by
        rw [h.wr, Ne, slotNr_eq_iff]
        exact slot_ne hkl (by omega)
      rw [Function.update_of_ne hne]
      exact h.slots k p hk (by rwa [List.getElem?_append_left hkl] at hp)
    · obtain rfl : k = pushed.length := by
        obtain ⟨hk', -⟩ := List.getElem?_eq_some_iff.mp hp
        rw [List.length_append, List.length_singleton] at hk'
        omega
      obtain rfl : ⟨dst, proto, slice buf bsize⟩ = p := by simpa using hp
      rw [← h.wr, Function.update_self]
      refine ⟨rfl, rfl, ?_, h.sizes _⟩
      have hl : (slice buf bsize).length = bsize := by simp [slice]
      show slice (copy _ 0 buf bsize) (slice buf bsize).length = _
      rw [hl, slice_copy]
  · show (Function.update q.slot q.qWr _ i).bufSize = 0
    by_cases hi : i = q.qWr
    · subst hi
      rw [Function.update_self]
      exact h.sizes _
    · rw [Function.update_of_ne hi]
      exact h.sizes i
  · obtain ⟨p, hp, hc⟩ := h.sent pre ipd post heq
    refine ⟨p, ?_, hc⟩
    obtain ⟨hk, -⟩ := List.getElem?_eq_some_iff.mp hp
    rw [List.getElem?_append_left hk, hp]

/-- **What `ip_defer_push` does:** it fails and changes nothing, or it appends the packet. -/
theorem Inv.push (h : Inv pushed q log) (dst : InAddr) (proto : UInt8) (buf : Buf) (bsize : ℕ) :
    (∃ e, e ≠ 0 ∧ DeferQueue.ipDeferPush q dst proto buf bsize = (e, q)) ∨
    ∃ q', DeferQueue.ipDeferPush q dst proto buf bsize = (0, q') ∧
      Inv (pushed ++ [⟨dst, proto, slice buf bsize⟩]) q' log := by
  by_cases hacc : Accepts q bsize
  · obtain ⟨h1, h2, h3⟩ := hacc
    exact Or.inr ⟨_, push_ok h1 h2 (by omega), h.enqueue h2 dst proto buf bsize⟩
  · exact Or.inl (push_refused hacc dst proto buf)

/-! ### The handler -/

/-- The handler is running: `ip_send` does not push. -/
def Busy (pushed : List Packet) (s : Stack) : Prop :=
  Inv pushed s.defer s.deferLog ∧ s.defer.deferInhibit = true

theorem Busy.quiet (h : Busy pushed s) (hq : Quiet s t) : Busy pushed t := by
  obtain ⟨_, _, _, rfl⟩ := hq
  exact h

theorem Busy.sent (h : Busy pushed s) {dst : InAddr} {proto : UInt8} {buf : Buf} {bsize : ℕ}
    (hs : Sent dst proto buf bsize s t) : Busy pushed t ∧ t.defer = s.defer := by
  rcases hs with hq | ⟨u, hq, hq'⟩
  · refine ⟨h.quiet hq, ?_⟩
    obtain ⟨_, _, _, rfl⟩ := hq
    rfl
  · have hu := h.quiet hq
    rw [push_inhibited hu.2] at hq'
    refine ⟨hu.quiet hq', ?_⟩
    obtain ⟨_, _, _, rfl⟩ := hq
    obtain ⟨_, _, _, rfl⟩ := hq'
    rfl

/-- One turn of the loop after the other. -/
theorem deferLoop_inv (env : Env) : ∀ (fuel : ℕ) (s : Stack), Busy pushed s →
    Busy pushed (deferLoop env fuel s).2
  | 0, _, hs => hs
  | fuel + 1, s, hs => by
    have hdrop : ∀ t : Stack, Busy pushed t → t.defer.qRd ≠ t.defer.qWr →
        Busy pushed ((ipDeferDrop >>= fun _ => deferLoop env fuel) t).2 := fun t ht hne =>
      deferLoop_inv env fuel _ ⟨ht.1.drop hne, ht.2⟩
    unfold deferLoop
    rw [get_bind]
    split_ifs with he
    · exact hs
    · set ipd := s.defer.slot s.defer.qRd
      let s₁ : Stack := { s with defer := DeferQueue.countTry s.defer }
      have hs₁ : Busy pushed s₁ := ⟨hs.1.countTry, hs.2⟩
      show Busy pushed ((if ipd.tries > 3 then _ else _ : Act Unit) s₁).2
      split_ifs with htry
      · exact hdrop s₁ hs₁ he
      · let s₂ : Stack := { s₁ with deferLog := s.deferLog ++ [.send ipd] }
        have hs₂ : Busy pushed s₂ := ⟨(hs.1.send he).countTry, hs.2⟩
        have hsent := ipSend_steps env ipd.dst ipd.proto ipd.buf ipd.bufSize s₂
        rcases hr : ipSend env ipd.dst ipd.proto ipd.buf ipd.bufSize s₂ with ⟨_ | retval, t⟩ <;>
          rw [hr] at hsent
        · have hr : sendDeferred env ipd s₁ = (none, t) := hr
          rw [bind_of_none hr]
          exact (hs₂.sent hsent).1
        · have hr : sendDeferred env ipd s₁ = (some retval, t) := hr
          obtain ⟨ht, hdefer⟩ := hs₂.sent hsent
          rw [bind_of_some hr, get_bind]
          split_ifs
          · exact ⟨ht.1.countTry, ht.2⟩
          · exact hdrop t ht (by rw [hdefer]; exact he)

theorem handler_inv (env : Env) (h : Inv pushed s.defer s.deferLog) :
    Inv pushed (ipDeferHandler env s).2.defer (ipDeferHandler env s).2.deferLog := by
  have hbusy : Busy pushed { s with defer := { s.defer with deferInhibit := true } } :=
    ⟨⟨h.counts, h.rd, h.wr, h.slots, h.sizes, h.sent⟩, rfl⟩
  exact (deferLoop_inv env (xstackIpDeferMax + 1) _ hbusy).1

/-! ### Runs -/

theorem step_inv (env : Env) (h : History) (op : Op)
    (hI : Inv h.pushed h.stack.defer h.stack.deferLog) :
    Inv (step env h op).pushed (step env h op).stack.defer (step env h op).stack.deferLog := by
  cases op with
  | push dst proto buf bsize =>
    have hrun : ipDeferPush dst proto buf bsize h.stack =
        (some (DeferQueue.ipDeferPush h.stack.defer dst proto buf bsize).1, { h.stack with
          defer := (DeferQueue.ipDeferPush h.stack.defer dst proto buf bsize).2 }) := rfl
    rcases hI.push dst proto buf bsize with ⟨e, he, hp⟩ | ⟨q, hp, hq⟩
    · rw [hp] at hrun
      simp only [step, hrun, Option.some.injEq, he, if_false]
      exact hI
    · rw [hp] at hrun
      simp only [step, hrun, if_true]
      exact hq
  | handler => exact handler_inv env hI
  | other t => exact hI

theorem run_inv (env : Env) (ops : List Op) : ∀ h : History,
    Inv h.pushed h.stack.defer h.stack.deferLog →
      Inv (run env h ops).pushed (run env h ops).stack.defer (run env h ops).stack.deferLog := by
  induction ops with
  | nil => exact fun h hI => hI
  | cons op ops ih => exact fun h hI => ih (step env h op) (step_inv env h op hI)

/-- **The deferred packets are sent as they were pushed iff those sent have no bytes.** -/
theorem faithful_iff (env : Env) (s : Stack) (ops : List Op) :
    Faithful (run env (start s) ops) ↔ SentEmpty (run env (start s) ops) := by
  have hI := run_inv env ops (start s) inv_start
  constructor
  · intro h pre ipd post heq p hp
    obtain ⟨p', hp', -, -, hsize, -⟩ := h pre ipd post heq
    obtain ⟨p₁, hp₁, hc⟩ := hI.sent pre ipd post heq
    obtain rfl : p' = p := Option.some.inj (hp'.symm.trans hp)
    rw [hc.bufSize] at hsize
    exact List.length_eq_zero_iff.mp hsize.symm
  · intro h pre ipd post heq
    obtain ⟨p, hp, hc⟩ := hI.sent pre ipd post heq
    have hempty := h pre ipd post heq p hp
    refine ⟨p, hp, hc.dst, hc.proto, ?_, ?_⟩
    · rw [hc.bufSize, hempty]
      rfl
    · rw [hc.bufSize, hempty]
      rfl

theorem step_pushed (env : Env) (h : History) (op : Op) (hop : Harmless h op)
    (hp : ∀ p ∈ h.pushed, p.data = []) : ∀ p ∈ (step env h op).pushed, p.data = [] := by
  cases op with
  | handler => exact hp
  | other t => exact hp
  | push dst proto buf bsize =>
    have hret : (ipDeferPush dst proto buf bsize h.stack).1 =
        some (DeferQueue.ipDeferPush h.stack.defer dst proto buf bsize).1 := rfl
    simp only [step, hret]
    split_ifs with h0
    · -- the packet was accepted, and so it is empty
      have hacc : Accepts h.stack.defer bsize := by
        by_contra hacc
        rcases push_refused hacc dst proto buf with ⟨e, he, hpush⟩
        rw [hpush] at h0
        exact he (Option.some.inj h0)
      obtain rfl := hop hacc
      intro p hmem
      rcases List.mem_append.mp hmem with hmem | hmem
      · exact hp p hmem
      · rw [List.mem_singleton.mp hmem]
        rfl
    · exact hp

/-- **In a run that accepts no packet with bytes, the handler sends what was pushed, in order.** -/
theorem faithful (env : Env) (s : Stack) (ops : List Op)
    (h : ∀ pre op post, ops = pre ++ op :: post → Harmless (run env (start s) pre) op) :
    Faithful (run env (start s) ops) := by
  have hpushed : ∀ pre post, ops = pre ++ post →
      ∀ p ∈ (run env (start s) pre).pushed, p.data = [] := by
    intro pre
    induction pre using List.reverseRecOn with
    | nil => simp [run, start]
    | append_singleton pre op ih =>
      intro post heq
      rw [List.append_assoc] at heq
      have := step_pushed env _ op (h pre op post heq) (ih _ heq)
      simpa [run, List.foldl_append] using this
  refine (faithful_iff env s ops).mpr fun pre ipd post _ p hp => ?_
  exact hpushed ops [] (by simp) p (List.mem_of_getElem? hp)

theorem faithful_empty_packet :
    Faithful (run ⟨.ofSign, fun _ => 0⟩ (start (Stack.init fun _ => 0))
      [.push 0x0a000005 17 (fun _ => 7) 0, .handler]) := by
  refine faithful _ _ _ fun pre op post h => ?_
  have hop : op ∈ [.push 0x0a000005 17 (fun _ => 7) 0, .handler] := by simp [h]
  obtain rfl | rfl : op = .push 0x0a000005 17 (fun _ => 7) 0 ∨ op = .handler := by simpa using hop
  · exact fun _ => rfl
  · trivial

/-- Three bytes are pushed, and the handler sends none. -/
theorem bytes_lost :
    ¬ Faithful (run ⟨.ofSign, fun _ => 0⟩ (start (Stack.init fun _ => 0))
      [.push 0x0a000005 17 (fun _ => 7) 3, .handler]) := by
  intro h
  obtain ⟨p, hp, -, -, hsize, -⟩ := h [] _ [] rfl
  obtain rfl : (⟨0x0a000005, 17, slice (fun _ => 7) 3⟩ : Packet) = p := Option.some.inj hp
  exact absurd hsize (by decide)

end Xstack.Net.Defer
