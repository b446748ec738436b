import Xstack.Lib.Program
import Xstack.Sock.Queue

/-! # Wake-ups between the application and the daemon

A side that puts a datagram into a queue sends `SIGUSR2` to the other process after it. The signal is
one bit there: a second one that finds the first still pending is lost. The side that waits takes one
datagram of a socket for one wake-up, whatever is in its queue.

* `Sender`: `xstack_sendto` and `xstack_sock_dgram_input`, one caller for each socket.
* `Egress`: the egress thread. `Recv`: a process that calls `xstack_recvfrom` for its sockets.
* `Covered`: the invariant. There are no more datagrams in a queue than kills that are still to come,
  signals that are pending and visits that are under way.
* `drained`: with the conditions `EgressOk` and `RecvOk` on the steps, a side that waits without a
  signal has an empty queue. -/

namespace Xstack.Sock.Wakeup

open Xstack.Config Xstack.Lib.Program Xstack.Sock.Queue

/-! ### The two sides -/

/-- A caller of `xstack_sendto` or `xstack_sock_dgram_input`. -/
inductive Sender
  /-- In no call, or in the loop with `queue_alloc`. -/
  | idle
  /-- The slot is filled, and `queue_commit` is next. -/
  | commit
  /-- `kill` is next. -/
  | kill
  deriving DecidableEq

/-- The process that waits, with `n` sockets. -/
structure St (n : ℕ) (T : Type) where
  /-- `SIGUSR2` is pending. -/
  pending : Bool
  q : Fin n → QueueCb
  sender : Fin n → Sender
  thread : T

variable {n : ℕ} {T A : Type}

def senderStep (i : Fin n) (s : St n T) : St n T :=
  match s.sender i with
  | .idle =>
    if (queueAlloc (s.q i)).isSome then { s with sender := Function.update s.sender i .commit } else s
  | .commit =>
    { s with q := Function.update s.q i (queueCommit (s.q i))
             sender := Function.update s.sender i .kill }
  | .kill => { s with pending := true, sender := Function.update s.sender i .idle }

/-- `queue_discard` of one element. -/
def St.discard (s : St n T) (i : Fin n) : St n T :=
  { s with q := Function.update s.q i (queueDiscard (s.q i) 1).1 }

/-- `sigtimedwait` returns with the signal or, if none is pending, after its time; else it waits on. -/
def St.sigtimedwait (s : St n T) (timeout : Bool) (next : T) : St n T :=
  if s.pending then { s with pending := false, thread := next }
  else if timeout then { s with thread := next } else s

/-- `xstack_egress_thread`. -/
inductive Egress
  | wait
  /-- The loop is at socket `k`. -/
  | scan (k : ℕ)
  /-- The datagram at the head of the queue of socket `i` is being sent. -/
  | send (i : ℕ)

def egressStep (timeout : Bool) (s : St n Egress) : St n Egress :=
  match s.thread with
  | .wait => s.sigtimedwait timeout (.scan 0)
  | .scan k =>
    if h : k < n then
      if queueIsempty (s.q ⟨k, h⟩) then { s with thread := .scan (k + 1) }
      else { s with thread := .send k }
    else { s with thread := .wait }
  | .send k =>
    if h : k < n then { s.discard ⟨k, h⟩ with thread := .scan (k + 1) } else s

/-- A process that calls `xstack_recvfrom`. -/
inductive Recv (n : ℕ)
  | idle
  /-- In `sigtimedwait`, for the socket `i`; `peek` is `XSTACK_MSG_PEEK`. -/
  | wait (i : Fin n) (peek : Bool)
  /-- `queue_peek` is next. -/
  | test (i : Fin n) (peek : Bool)
  /-- The datagram is being copied. -/
  | read (i : Fin n) (peek : Bool)

/-- What the process and the clock choose. -/
structure Choice (n : ℕ) where
  i : Fin n
  peek : Bool
  timeout : Bool

def recvStep (c : Choice n) (s : St n (Recv n)) : St n (Recv n) :=
  match s.thread with
  | .idle => { s with thread := .wait c.i c.peek }
  | .wait i peek => s.sigtimedwait c.timeout (.test i peek)
  | .test i peek =>
    if (queuePeek (s.q i)).isSome then { s with thread := .read i peek }
    else { s with thread := .wait i peek }
  | .read i peek => if peek then { s with thread := .idle } else { s.discard i with thread := .idle }

/-- A step of a sender or of the side that waits. -/
inductive Move (n : ℕ) (A : Type)
  | sender (i : Fin n)
  | thread (a : A)

def step (threadStep : A → St n T → St n T) (s : St n T) : Move n A → St n T
  | .sender i => senderStep i s
  | .thread a => threadStep a s

/-- The state after the steps of an interleaving. -/
def run (threadStep : A → St n T → St n T) (s : St n T) (moves : List (Move n A)) : St n T :=
  moves.foldl (step threadStep) s

/-- The queues as `xstack_init` makes them. -/
def start (thread : T) : St n T :=
  ⟨false, fun _ => queueCreate xstackDatagramSizeMax xstackDatagramBufSize, fun _ => .idle, thread⟩

/-! ### The property -/

/-- No signal is pending and no sender is between `queue_commit` and `kill`. -/
def Quiet (s : St n T) : Prop := s.pending = false ∧ ∀ i, s.sender i ≠ .kill

/-- The egress thread waits only for empty queues. -/
def EgressDrained (s : St n Egress) : Prop :=
  s.thread = .wait → Quiet s → ∀ i, queueIsempty (s.q i) = true

/-- `xstack_recvfrom` waits only for an empty queue. -/
def RecvDrained (s : St n (Recv n)) : Prop :=
  ∀ i peek, s.thread = .wait i peek → Quiet s → queueIsempty (s.q i) = true

/-! ### The condition -/

/-- The number of datagrams in a queue. -/
def queueLen (cb : QueueCb) : ℕ :=
  if cb.mRead ≤ cb.mWrite then cb.mWrite - cb.mRead else cb.mWrite + cb.aLen - cb.mRead

/-- The kills of the sender that are to come. -/
def Sender.kills : Sender → ℕ
  | .kill => 1
  | _ => 0

/-- The egress thread will come to the socket before it waits again. -/
def Egress.visits (i : Fin n) : Egress → ℕ
  | .wait => 0
  | .scan k | .send k => if k ≤ i then 1 else 0

/-- `xstack_recvfrom` for the socket has been woken up. -/
def Recv.visits (i : Fin n) : Recv n → ℕ
  | .test j _ | .read j _ => if i = j then 1 else 0
  | _ => 0

/-- A `kill` that finds the signal pending is for the only datagram in the queue, or for the second
one if the first is about to be taken. -/
def Merges (visits : Fin n → T → ℕ) (s : St n T) (i : Fin n) : Prop :=
  s.sender i = .kill → s.pending = true → queueLen (s.q i) ≤ visits i s.thread + 1

/-- **The condition** on a step, for the egress queues. -/
def EgressOk (s : St n Egress) : Move n Bool → Prop
  | .sender i => Merges Egress.visits s i
  | .thread _ => True

/-- **The condition** on a step, for the ingress queues: also, a signal is taken for the socket it was
for, and what `XSTACK_MSG_PEEK` leaves in the queue has a signal of its own. -/
def RecvOk (s : St n (Recv n)) : Move n (Choice n) → Prop
  | .sender i => Merges Recv.visits s i
  | .thread _ =>
    match s.thread with
    | .wait i _ => s.pending = true → ∀ j ≠ i, queueLen (s.q j) ≤ (s.sender j).kills
    | .read i true => queueLen (s.q i) ≤ (s.sender i).kills + s.pending.toNat
    | _ => True

instance (visits : Fin n → T → ℕ) (s : St n T) (i : Fin n) : Decidable (Merges visits s i) :=
  inferInstanceAs (Decidable (_ → _ → _))

instance (s : St n Egress) : (m : Move n Bool) → Decidable (EgressOk s m)
  | .sender i => inferInstanceAs (Decidable (Merges Egress.visits s i))
  | .thread _ => .isTrue trivial

instance (s : St n (Recv n)) : (m : Move n (Choice n)) → Decidable (RecvOk s m)
  | .sender i => inferInstanceAs (Decidable (Merges Recv.visits s i))
  | .thread _ =>
    match s with
    | ⟨pending, q, sender, .wait i _⟩ =>
      inferInstanceAs (Decidable (pending = true → ∀ j ≠ i, queueLen (q j) ≤ (sender j).kills))
    | ⟨pending, q, sender, .read i true⟩ =>
      inferInstanceAs (Decidable (queueLen (q i) ≤ (sender i).kills + pending.toNat))
    | ⟨_, _, _, .read _ false⟩ | ⟨_, _, _, .test _ _⟩ | ⟨_, _, _, .idle⟩ => .isTrue trivial

/-! ### Lengths -/

/-- The indices are in range. -/
def InRange (cb : QueueCb) : Prop := cb.mRead < cb.aLen ∧ cb.mWrite < cb.aLen

variable {cb : QueueCb}

theorem succ_mod {a k : ℕ} (h : k < a) : (k + 1) % a = if k + 1 = a then 0 else k + 1 := by
  split_ifs with heq
  · rw [heq, Nat.mod_self]
  · exact Nat.mod_eq_of_lt (by omega)

theorem queueIsempty_iff (h : InRange cb) : queueIsempty cb = true ↔ queueLen cb = 0 := by
  obtain ⟨hr, hw⟩ := h
  unfold queueIsempty queueLen
  rw [beq_iff_eq]
  split_ifs <;> omega

theorem queuePeek_isSome (h : InRange cb) : (queuePeek cb).isSome = true ↔ queueLen cb ≠ 0 := by
  rw [ne_eq, ← queueIsempty_iff h]
  unfold queuePeek queueIsempty
  split_ifs with heq
  · simp [heq]
  · simp [Ne.symm heq]

theorem queueCommit_len (h : InRange cb) :
    InRange (queueCommit cb) ∧ queueLen (queueCommit cb) ≤ queueLen cb + 1 := by
  obtain ⟨hr, hw⟩ := h
  unfold InRange queueLen queueCommit
  simp only
  rw [succ_mod hw]
  constructor
  · exact ⟨hr, by split_ifs <;> omega⟩
  · split_ifs <;> omega

theorem queueDiscard_len (h : InRange cb) :
    InRange (queueDiscard cb 1).1 ∧ queueLen (queueDiscard cb 1).1 = queueLen cb - 1 := by
  obtain ⟨hr, hw⟩ := h
  unfold queueDiscard queueDiscard
  by_cases heq : cb.mRead = cb.mWrite
  · rw [if_pos heq]
    refine ⟨⟨hr, hw⟩, ?_⟩
    unfold queueLen
    rw [heq]
    simp
  · rw [if_neg heq]
    unfold InRange queueLen
    simp only
    rw [succ_mod hr]
    constructor
    · exact ⟨by split_ifs <;> omega, hw⟩
    · split_ifs <;> omega

/-! ### The invariant -/

/-- **The invariant:** a datagram in a queue has a kill, a signal or a visit of its own. -/
structure Covered (visits : Fin n → T → ℕ) (s : St n T) : Prop where
  range : ∀ i, InRange (s.q i)
  len : ∀ i, queueLen (s.q i) ≤ (s.sender i).kills + visits i s.thread + s.pending.toNat

variable {visits : Fin n → T → ℕ} {s : St n T}

theorem covered_start (thread : T) : Covered visits (start thread : St n T) where
  range := fun _ => show 0 < 4 ∧ 0 < 4 by decide
  len := fun _ => Nat.zero_le _

/-- One queue and its sender change. -/
theorem Covered.update (h : Covered visits s) (i : Fin n) {cb : QueueCb} {x : Sender} {pending : Bool}
    (hle : s.pending.toNat ≤ pending.toNat) (hr : InRange cb)
    (hlen : queueLen cb ≤ x.kills + visits i s.thread + pending.toNat) :
    Covered visits { s with
      pending := pending, q := Function.update s.q i cb, sender := Function.update s.sender i x } := by
  constructor
  · intro j
    by_cases hj : j = i
    · subst hj
      simpa using hr
    · simpa [Function.update_of_ne hj] using h.range j
  · intro j
    have hj' := h.len j
    by_cases hj : j = i
    · subst hj
      simpa using hlen
    · simp only [Function.update_of_ne hj]
      omega

theorem senderStep_covered (h : Covered visits s) (i : Fin n) (hm : Merges visits s i) :
    Covered visits (senderStep i s) := by
  have hlen := h.len i
  unfold senderStep
  cases hsender : s.sender i with
  | idle =>
    dsimp only
    split_ifs
    · rw [hsender] at hlen
      have hnext := h.update i le_rfl (h.range i) (x := .commit) hlen
      rwa [Function.update_eq_self] at hnext
    · exact h
  | commit =>
    rw [hsender] at hlen
    obtain ⟨hr, hle⟩ := queueCommit_len (h.range i)
    have hkills : Sender.kills .commit = 0 ∧ Sender.kills .kill = 1 := ⟨rfl, rfl⟩
    exact h.update i le_rfl hr (by omega)
  | kill =>
    rw [hsender] at hlen
    have hkills : Sender.kills .kill = 1 ∧ Sender.kills .idle = 0 := ⟨rfl, rfl⟩
    have hone : queueLen (s.q i) ≤ Sender.kills .idle + visits i s.thread + Bool.toNat true := by
      cases hp : s.pending with
      | true =>
        have := hm hsender hp
        rw [Bool.toNat_true]
        omega
      | false =>
        rw [hp, Bool.toNat_false] at hlen
        rw [Bool.toNat_true]
        omega
    have hle : s.pending.toNat ≤ Bool.toNat true := Bool.toNat_le _
    have hnext := h.update i hle (h.range i) hone
    rwa [Function.update_eq_self] at hnext

/-- The side that waits moves on, and its visits are as the new state needs them. -/
theorem Covered.moves (h : Covered visits s) {t : T} {pending : Bool}
    (hv : ∀ i, queueLen (s.q i) ≤ (s.sender i).kills + visits i t + pending.toNat) :
    Covered visits { s with pending := pending, thread := t } := ⟨h.range, hv⟩

/-- It moves on from a socket whose datagram it has taken. -/
theorem Covered.discards (h : Covered visits s) (i : Fin n) {t : T}
    (hi : visits i s.thread ≤ visits i t + 1)
    (hv : ∀ j ≠ i, visits j s.thread ≤ visits j t) :
    Covered visits { s.discard i with thread := t } := by
  obtain ⟨hr, hlen⟩ := queueDiscard_len (h.range i)
  constructor
  · intro j
    by_cases hj : j = i
    · subst hj
      simpa [St.discard] using hr
    · simpa [St.discard, Function.update_of_ne hj] using h.range j
  · intro j
    have hj' := h.len j
    by_cases hj : j = i
    · subst hj
      simp only [St.discard, Function.update_self]
      omega
    · have := hv j hj
      simp only [St.discard, Function.update_of_ne hj]
      omega

/-- `sigtimedwait` in a state in which no visit is under way. -/
theorem Covered.sigtimedwait (h : Covered visits s) (timeout : Bool) {t : T}
    (h0 : ∀ i, visits i s.thread = 0)
    (hv : s.pending = true → ∀ i, queueLen (s.q i) ≤ (s.sender i).kills + visits i t) :
    Covered visits (s.sigtimedwait timeout t) := by
  unfold St.sigtimedwait
  split_ifs with hp
  · exact h.moves (hv hp)
  · refine h.moves fun i => ?_
    have := h.len i
    rw [h0 i] at this
    omega
  · exact h

/-- Without kills, signals and visits there is nothing in the queue. -/
theorem Covered.empty (h : Covered visits s) (hq : Quiet s) {i : Fin n} (hv : visits i s.thread = 0) :
    queueIsempty (s.q i) = true := by
  obtain ⟨hp, hs⟩ := hq
  have hkills : (s.sender i).kills = 0 := by
    cases hi : s.sender i with
    | kill => exact absurd hi (hs i)
    | idle => rfl
    | commit => rfl
  have hlen := h.len i
  rw [hv, hp, hkills] at hlen
  exact (queueIsempty_iff (h.range i)).mpr (Nat.le_zero.mp hlen)

/-! ### The egress thread -/

theorem egressStep_covered {s : St n Egress} (h : Covered Egress.visits s) (timeout : Bool) :
    Covered Egress.visits (egressStep timeout s) := by
  unfold egressStep
  cases hthread : s.thread with
  | wait =>
    refine h.sigtimedwait timeout (fun i => by rw [hthread]; rfl) fun hp i => ?_
    have hlen := h.len i
    rw [hthread, hp] at hlen
    simpa [Egress.visits] using hlen
  | scan k =>
    dsimp only
    split_ifs with hk hempty
    · rw [queueIsempty_iff (h.range _)] at hempty
      refine h.moves fun i => ?_
      have hlen := h.len i
      rw [hthread] at hlen
      simp only [Egress.visits] at hlen ⊢
      by_cases hi : k = i
      · subst hi
        have : queueLen (s.q i) = 0 := hempty
        omega
      · split_ifs at hlen ⊢ <;> omega
    · refine h.moves fun i => ?_
      have hlen := h.len i
      rwa [hthread] at hlen
    · refine h.moves fun i => ?_
      have hlen := h.len i
      have := i.isLt
      rw [hthread] at hlen
      simp only [Egress.visits] at hlen ⊢
      split_ifs at hlen <;> omega
  | send k =>
    dsimp only
    split_ifs with hk
    · refine h.discards ⟨k, hk⟩ ?_ fun j hj => ?_
      · rw [hthread]
        simp only [Egress.visits]
        split_ifs <;> omega
      · have hne : k ≠ j := fun heq => hj (Fin.ext heq.symm)
        rw [hthread]
        simp only [Egress.visits]
        split_ifs <;> omega
    · exact h

/-! ### `xstack_recvfrom` -/

theorem recvStep_covered {s : St n (Recv n)} (h : Covered Recv.visits s) (c : Choice n)
    (hok : RecvOk s (.thread c)) : Covered Recv.visits (recvStep c s) := by
  unfold recvStep
  unfold RecvOk at hok
  cases hthread : s.thread with
  | idle =>
    refine h.moves fun i => ?_
    have hlen := h.len i
    rwa [hthread] at hlen
  | wait i peek =>
    simp only [hthread] at hok
    refine h.sigtimedwait c.timeout (fun j => by rw [hthread]; rfl) fun hp j => ?_
    by_cases hj : j = i
    · subst hj
      have hlen := h.len j
      rw [hthread, hp] at hlen
      simpa [Recv.visits] using hlen
    · have := hok hp j hj
      omega
  | test i peek =>
    dsimp only
    split_ifs with hsome
    · refine h.moves fun j => ?_
      have hlen := h.len j
      rwa [hthread] at hlen
    · rw [queuePeek_isSome (h.range i), not_not] at hsome
      refine h.moves fun j => ?_
      have hlen := h.len j
      rw [hthread] at hlen
      simp only [Recv.visits] at hlen ⊢
      by_cases hj : j = i
      · subst hj
        omega
      · rwa [if_neg hj] at hlen
  | read i peek =>
    cases peek with
    | true =>
      simp only [hthread] at hok
      refine h.moves fun j => ?_
      have hlen := h.len j
      rw [hthread] at hlen
      simp only [Recv.visits] at hlen ⊢
      by_cases hj : j = i
      · subst hj
        omega
      · rwa [if_neg hj] at hlen
    | false =>
      refine h.discards i ?_ fun j hj => ?_
      · rw [hthread]
        simp [Recv.visits]
      · rw [hthread]
        simp [Recv.visits, hj]

/-! ### Runs -/

theorem egress_inv (s : St n Egress) (m : Move n Bool) (h : Covered Egress.visits s)
    (hok : EgressOk s m) : Covered Egress.visits (step egressStep s m) := by
  cases m with
  | sender i => exact senderStep_covered h i hok
  | thread timeout => exact egressStep_covered h timeout

theorem recv_inv (s : St n (Recv n)) (m : Move n (Choice n)) (h : Covered Recv.visits s)
    (hok : RecvOk s m) : Covered Recv.visits (step recvStep s m) := by
  cases m with
  | sender i => exact senderStep_covered h i hok
  | thread c => exact recvStep_covered h c hok

/-- **No wake-up is lost** in runs whose steps meet the conditions: a side that waits without a signal,
when no sender is between `queue_commit` and `kill`, has nothing in the queue. -/
theorem drained (n : ℕ) :
    (∀ moves : List (Move n Bool), (∀ pre m post, moves = pre ++ m :: post →
      EgressOk (run egressStep (start .wait) pre) m) →
        EgressDrained (run egressStep (start .wait) moves)) ∧
    ∀ moves : List (Move n (Choice n)), (∀ pre m post, moves = pre ++ m :: post →
      RecvOk (run recvStep (start .idle) pre) m) →
        RecvDrained (run recvStep (start .idle) moves) := by
  constructor
  · intro moves hok hwait hquiet i
    have h : Covered Egress.visits (run egressStep (start .wait) moves) :=
      foldl_inv egress_inv moves (covered_start Egress.wait) hok
    exact h.empty hquiet (by rw [hwait]; rfl)
  · intro moves hok i peek hwait hquiet
    have h : Covered Recv.visits (run recvStep (start .idle) moves) :=
      foldl_inv recv_inv moves (covered_start Recv.idle) hok
    exact h.empty hquiet (by rw [hwait]; rfl)

/-- The senders of two sockets, whose signals merge; the egress thread sends both datagrams. -/
def egressMerged : List (Move 2 Bool) := repeated [(3, .sender 0), (3, .sender 1), (6, .thread false)]

/-- `xstack_recvfrom` peeks at the first datagram of socket 0 before its signal. The next call has timed
out when the signals of two datagrams merge, and the signal that is left is taken before that of a datagram
for socket 1. -/
def recvMerged : List (Move 2 (Choice 2)) :=
  repeated [(2, .sender 0), (4, .thread ⟨0, true, true⟩), (2, .thread ⟨0, false, true⟩), (4, .sender 0),
    (2, .thread ⟨0, false, false⟩), (2, .sender 1), (4, .thread ⟨0, false, false⟩), (1, .sender 1),
    (5, .thread ⟨1, false, false⟩)]

theorem drained_merged :
    (∀ i, queueIsempty ((run egressStep (start .wait) egressMerged).q i) = true) ∧
    (run egressStep (start .wait) (egressMerged.take 5)).pending = true ∧
    queueIsempty ((run recvStep (start .idle) recvMerged).q 1) = true ∧
    (run recvStep (start .idle) (recvMerged.take 11)).pending = true := by
  obtain ⟨hegress, hrecv⟩ := drained 2
  have hok : Along (step egressStep) EgressOk (start .wait) egressMerged := by decide +kernel
  have hok' : Along (step recvStep) RecvOk (start .idle) recvMerged := by decide +kernel
  exact ⟨hegress _ hok.forall_split rfl ⟨rfl, by decide +kernel⟩, by decide +kernel,
    hrecv _ hok'.forall_split 1 false rfl ⟨rfl, by decide +kernel⟩, by decide +kernel⟩

/-- Two datagrams are committed before the egress thread wakes up: it sends one and waits for the next
signal, with the other in the queue. Two datagrams arrive before `xstack_recvfrom` is called: the second
call waits. -/
theorem wakeup_lost :
    ¬ EgressDrained (run egressStep (start .wait : St 1 Egress)
      (List.replicate 6 (.sender 0) ++ List.replicate 4 (.thread false))) ∧
    ¬ RecvDrained (run recvStep (start .idle : St 1 (Recv 1))
      (List.replicate 6 (.sender 0) ++ List.replicate 5 (.thread ⟨0, false, false⟩))) := by
  constructor
  · intro h
    exact absurd (h rfl ⟨rfl, by decide⟩ 0) (by decide)
  · intro h
    exact absurd (h 0 false rfl ⟨rfl, by decide⟩) (by decide)

end Xstack.Sock.Wakeup
