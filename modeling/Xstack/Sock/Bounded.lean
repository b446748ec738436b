import Xstack.Sock.Queue

/-! # The queue as a bounded list

The calls of `queue_r.c`, one after the other, on a queue that `queue_create` has made. The control
block has no length, only two indices: `elements` reads the list of the offsets off them.

* `call`, `Run`: a call with its result as the caller sees it, and the sequences of calls in which a
  `queue_commit` directly follows the `queue_alloc` it belongs to.
* `BStep`, `BRun`: the abstract queue, a list of offsets with room for `a_len - 1` of them.
* `Rep`: the indices are two counters modulo `a_len`. `run_rep`: so they are after every call.
* `refines_list`: the calls and their results are those of the abstract queue. -/

namespace Xstack.Sock.Bounded

open Xstack.Config Xstack.Lib.Ring Xstack.Sock.Queue

/-! ### The calls -/

inductive Op
  | alloc
  | commit
  | peek
  | discard (n : ℕ)
  | clearFromPushEnd
  | clearFromPopEnd
  | isempty
  | isfull
  deriving DecidableEq

/-- What a call gives back. -/
inductive Res
  | void
  | int (x : ℤ)
  /-- The result of `queue_peek`, and what it has stored to `*index`. -/
  | peek (x : ℤ) (index : Option ℤ)
  deriving DecidableEq

def call (cb : QueueCb) : Op → QueueCb × Res
  | .alloc => (cb, .int ((queueAlloc cb).elim (-1) fun index => wrapInt index))
  | .commit => (queueCommit cb, .void)
  | .peek => (cb, (queuePeek cb).elim (.peek 0 none) fun index => .peek 1 (some (wrapInt index)))
  | .discard n => ((queueDiscard cb n).1, .int (wrapInt (queueDiscard cb n).2))
  | .clearFromPushEnd => (queueClearFromPushEnd cb, .void)
  | .clearFromPopEnd => (queueClearFromPopEnd cb, .void)
  | .isempty => (cb, .int (if queueIsempty cb then 1 else 0))
  | .isfull => (cb, .int (if queueIsfull cb then 1 else 0))

/-- The last call was a `queue_alloc` that returned `r`. -/
def Allocated (tr : List (Op × Res)) (r : ℤ) : Prop := tr.getLast? = some (.alloc, .int r) ∧ r ≠ -1

/-- **The sequences of calls** on a queue from `queue_create`, with the control block after them. -/
inductive Run (blockSize arraySize : ℕ) : List (Op × Res) → QueueCb → Prop
  | create : Run blockSize arraySize [] (queueCreate blockSize arraySize)
  | call {tr : List (Op × Res)} {cb : QueueCb} (op : Op) (h : Run blockSize arraySize tr cb)
      (hc : op = .commit → ∃ r, Allocated tr r) :
      Run blockSize arraySize (tr ++ [(op, (call cb op).2)]) (call cb op).1

/-! ### The bounded list -/

/-- **One call of the abstract queue,** a list of at most `cap` offsets, the oldest first, after the
calls `tr`. -/
inductive BStep (blockSize arraySize cap : ℕ) (tr : List (Op × Res)) :
    List ℤ → Op → Res → List ℤ → Prop
  | full {l : List ℤ} (h : l.length = cap) : BStep blockSize arraySize cap tr l .alloc (.int (-1)) l
  | alloc {l : List ℤ} {r : ℤ} (h : l.length < cap) (h0 : 0 ≤ r) (hdvd : (blockSize : ℤ) ∣ r)
      (hend : r + blockSize ≤ arraySize) (hnew : r ∉ l) :
      BStep blockSize arraySize cap tr l .alloc (.int r) l
  | commit {l : List ℤ} {r : ℤ} (h : Allocated tr r) :
      BStep blockSize arraySize cap tr l .commit .void (l ++ [r])
  | empty : BStep blockSize arraySize cap tr [] .peek (.peek 0 none) []
  | peek {l : List ℤ} {r : ℤ} :
      BStep blockSize arraySize cap tr (r :: l) .peek (.peek 1 (some r)) (r :: l)
  | discard {l : List ℤ} (n : ℕ) :
      BStep blockSize arraySize cap tr l (.discard n) (.int (min n l.length : ℕ)) (l.drop n)
  | clearFromPushEnd {l : List ℤ} : BStep blockSize arraySize cap tr l .clearFromPushEnd .void []
  | clearFromPopEnd {l : List ℤ} : BStep blockSize arraySize cap tr l .clearFromPopEnd .void []
  | isempty {l : List ℤ} :
      BStep blockSize arraySize cap tr l .isempty (.int (if l.length = 0 then 1 else 0)) l
  | isfull {l : List ℤ} :
      BStep blockSize arraySize cap tr l .isfull (.int (if l.length = cap then 1 else 0)) l

/-- The sequences of calls of the abstract queue, with the list after them. -/
inductive BRun (blockSize arraySize cap : ℕ) : List (Op × Res) → List ℤ → Prop
  | create : BRun blockSize arraySize cap [] []
  | call {tr : List (Op × Res)} {l l' : List ℤ} {op : Op} {res : Res}
      (h : BRun blockSize arraySize cap tr l) (hs : BStep blockSize arraySize cap tr l op res l') :
      BRun blockSize arraySize cap (tr ++ [(op, res)]) l'

/-- **The list that a control block represents:** the offsets from the read index up to the write
index. -/
def elements (cb : QueueCb) : List ℤ :=
  (List.range ((cb.mWrite + cb.aLen - cb.mRead) % cb.aLen)).map fun k =>
    (((cb.mRead + k) % cb.aLen * cb.bSize : ℕ) : ℤ)

/-! ### The indices -/

/-- The sizes that a queue is made with. -/
structure Sizes (blockSize arraySize : ℕ) : Prop where
  pos : 0 < blockSize
  le : blockSize ≤ arraySize
  int : (arraySize : ℤ) ≤ intMax

/-- The indices are two counters: `c` elements have joined the queue, and `d` have left it. -/
structure Rep (blockSize arraySize : ℕ) (cb : QueueCb) (d c : ℕ) : Prop where
  bSize : cb.bSize = blockSize
  aLen : cb.aLen = arraySize / blockSize
  counts : Counts (arraySize / blockSize) d c
  mRead : cb.mRead = d % (arraySize / blockSize)
  mWrite : cb.mWrite = c % (arraySize / blockSize)

variable {blockSize arraySize d c i : ℕ} {cb : QueueCb} {tr : List (Op × Res)}

theorem Sizes.aLen_pos (hs : Sizes blockSize arraySize) : 0 < arraySize / blockSize :=
  Nat.div_pos hs.le hs.pos

/-- A slot is inside of the array. -/
theorem slot_le (hi : i < arraySize / blockSize) :
    i * blockSize + blockSize ≤ arraySize :=
  calc i * blockSize + blockSize = (i + 1) * blockSize := by ring
    _ ≤ arraySize / blockSize * blockSize := Nat.mul_le_mul_right _ hi
    _ ≤ arraySize := Nat.div_mul_le_self _ _

/-- The offset of a slot is exact. -/
theorem Sizes.wrapInt_slot (hs : Sizes blockSize arraySize) (hi : i < arraySize / blockSize) :
    wrapInt (i * blockSize : ℕ) = (i * blockSize : ℕ) := by
  have hslot := slot_le hi
  have hint := hs.int
  exact wrapInt_of_le (Int.natCast_nonneg _) (by omega)

theorem Sizes.rep_create (hs : Sizes blockSize arraySize) :
    Rep blockSize arraySize (queueCreate blockSize arraySize) 0 0 :=
  ⟨rfl, rfl, ⟨le_rfl, by have := hs.aLen_pos; omega⟩, (Nat.zero_mod _).symm, (Nat.zero_mod _).symm⟩

section
variable (h : Rep blockSize arraySize cb d c)
include h

/-- The list, from the counters. -/
theorem Rep.elements_eq : elements cb =
    (slots (arraySize / blockSize) d c).map fun i => ((i * blockSize : ℕ) : ℤ) := by
  have hd := h.counts.le
  unfold elements
  rw [h.mWrite, h.mRead, h.aLen, h.bSize, h.counts.length_eq]
  have hslots := slots_mod (arraySize / blockSize) d (c - d)
  rw [Nat.add_sub_cancel' hd] at hslots
  rw [← hslots, slots, Nat.add_sub_cancel_left, List.range'_eq_map_range, List.map_map, List.map_map]
  rfl

theorem Rep.length_elements : (elements cb).length = c - d := by
  rw [h.elements_eq, List.length_map, length_slots]

theorem Rep.length_le : (elements cb).length ≤ arraySize / blockSize - 1 := by
  have hlt := h.counts.lt
  rw [h.length_elements]
  omega

theorem Rep.empty_iff : cb.mRead = cb.mWrite ↔ (elements cb).length = 0 := by
  have hd := h.counts.le
  rw [h.mRead, h.mWrite, h.counts.empty_iff, h.length_elements]
  omega

theorem Rep.full_iff : (cb.mWrite + 1) % cb.aLen = cb.mRead ↔
    (elements cb).length = arraySize / blockSize - 1 := by
  have hd := h.counts.le
  have hlt := h.counts.lt
  rw [h.mRead, h.mWrite, h.aLen, h.counts.full_iff, h.length_elements]
  omega

/-! ### The calls on the indices -/

theorem Rep.alloc :
    (queueAlloc cb = none ∧ (elements cb).length = arraySize / blockSize - 1) ∨
    (queueAlloc cb = some (c % (arraySize / blockSize) * blockSize) ∧ c + 1 < d + arraySize / blockSize ∧
      (elements cb).length < arraySize / blockSize - 1) := by
  have hlen := h.length_elements
  have hle := h.length_le
  have hd := h.counts.le
  by_cases hfull : (cb.mWrite + 1) % cb.aLen = cb.mRead
  · exact Or.inl ⟨if_pos hfull, h.full_iff.mp hfull⟩
  · have hne : (elements cb).length ≠ arraySize / blockSize - 1 := fun hl => hfull (h.full_iff.mpr hl)
    refine Or.inr ⟨?_, by omega, by omega⟩
    rw [← h.mWrite, ← h.bSize]
    exact if_neg hfull

theorem Rep.commit (hroom : c + 1 < d + arraySize / blockSize) :
    Rep blockSize arraySize (queueCommit cb) d (c + 1) := by
  refine ⟨h.bSize, h.aLen, ⟨Nat.le_succ_of_le h.counts.le, hroom⟩, h.mRead, ?_⟩
  show (cb.mWrite + 1) % cb.aLen = _
  rw [h.mWrite, h.aLen]
  exact Counts.next c

/-- One element is skipped. -/
theorem Rep.skip (hne : d < c) : Rep blockSize arraySize
    { cb with mRead := (cb.mRead + 1) % cb.aLen } (d + 1) c := by
  have hlt := h.counts.lt
  refine ⟨h.bSize, h.aLen, ⟨hne, by omega⟩, ?_, h.mWrite⟩
  show (cb.mRead + 1) % cb.aLen = _
  rw [h.mRead, h.aLen]
  exact Counts.next d

end

/-- The loop of `queue_discard`. -/
theorem Rep.discard (n : ℕ) (h : Rep blockSize arraySize cb d c) :
    Rep blockSize arraySize (queueDiscard cb n).1 (d + min n (c - d)) c ∧
      (queueDiscard cb n).2 = min n (c - d) := by
  induction n generalizing cb d with
  | zero =>
    rw [Nat.zero_min]
    exact ⟨h, rfl⟩
  | succ n ih =>
    have hd := h.counts.le
    have hlen := h.length_elements
    unfold queueDiscard
    by_cases hempty : cb.mRead = cb.mWrite
    · have hzero : c - d = 0 := by rw [← hlen, h.empty_iff.mp hempty]
      rw [if_pos hempty, hzero, Nat.min_zero]
      exact ⟨h, rfl⟩
    · have hne : (elements cb).length ≠ 0 := fun hl => hempty (h.empty_iff.mpr hl)
      obtain ⟨h1, h2⟩ := ih (h.skip (by omega))
      rw [if_neg hempty]
      dsimp only
      rw [h2, show min (n + 1) (c - d) = min n (c - (d + 1)) + 1 by omega]
      exact ⟨by rwa [show d + (min n (c - (d + 1)) + 1) = d + 1 + min n (c - (d + 1)) by omega], rfl⟩

/-- The queue is cleared: both indices are the same. -/
theorem Rep.clear {k : ℕ} (hs : Sizes blockSize arraySize) (h : Rep blockSize arraySize cb d c)
    (cb' : QueueCb) (hb : cb'.bSize = cb.bSize) (ha : cb'.aLen = cb.aLen)
    (hr : cb'.mRead = k % (arraySize / blockSize)) (hw : cb'.mWrite = k % (arraySize / blockSize)) :
    Rep blockSize arraySize cb' k k ∧ elements cb' = [] := by
  have hpos := hs.aLen_pos
  have hrep : Rep blockSize arraySize cb' k k :=
    ⟨hb.trans h.bSize, ha.trans h.aLen, ⟨le_rfl, by omega⟩, hr, hw⟩
  refine ⟨hrep, List.length_eq_zero_iff.mp ?_⟩
  rw [hrep.length_elements, Nat.sub_self]

/-- What the last call has returned is the offset of the next slot, and the slot is free. -/
def Next (blockSize arraySize : ℕ) (tr : List (Op × Res)) (d c : ℕ) : Prop :=
  ∀ r, Allocated tr r → r = (c % (arraySize / blockSize) * blockSize : ℕ) ∧
    c + 1 < d + arraySize / blockSize

theorem next_of_ne {op : Op} {res : Res} (hop : op ≠ .alloc) :
    Next blockSize arraySize (tr ++ [(op, res)]) d c := by
  rintro r ⟨hlast, -⟩
  rw [List.getLast?_concat, Option.some.injEq, Prod.mk.injEq] at hlast
  exact absurd hlast.1 hop

/-- One call, on the control block and on the list. -/
def Steps (blockSize arraySize : ℕ) (tr : List (Op × Res)) (cb : QueueCb) (op : Op) : Prop :=
  ∃ d c, Rep blockSize arraySize (call cb op).1 d c ∧
    Next blockSize arraySize (tr ++ [(op, (call cb op).2)]) d c ∧
    BStep blockSize arraySize (arraySize / blockSize - 1) tr (elements cb) op (call cb op).2
      (elements (call cb op).1)

section
variable (hs : Sizes blockSize arraySize) (h : Rep blockSize arraySize cb d c)
include hs h

theorem steps_alloc : Steps blockSize arraySize tr cb .alloc := by
  refine ⟨d, c, h, ?_⟩
  rcases h.alloc with ⟨hnone, hlen⟩ | ⟨hsome, hroom, hlen⟩
  · have hres : (call cb .alloc).2 = .int (-1) := by
      show Res.int ((queueAlloc cb).elim (-1) fun index => wrapInt index) = _
      rw [hnone]
      rfl
    rw [hres]
    refine ⟨?_, .full hlen⟩
    rintro r ⟨hlast, hr⟩
    rw [List.getLast?_concat, Option.some.injEq, Prod.mk.injEq, Res.int.injEq] at hlast
    exact absurd hlast.2.symm hr
  · have hi := Nat.mod_lt c hs.aLen_pos
    set i := c % (arraySize / blockSize) with hidef
    have hres : (call cb .alloc).2 = .int (i * blockSize : ℕ) := by
      show Res.int ((queueAlloc cb).elim (-1) fun index => wrapInt index) = _
      rw [hsome, Option.elim_some, hs.wrapInt_slot hi]
    rw [hres]
    constructor
    · rintro r ⟨hlast, -⟩
      rw [List.getLast?_concat, Option.some.injEq, Prod.mk.injEq, Res.int.injEq] at hlast
      exact ⟨hlast.2.symm, hroom⟩
    · have hend := slot_le hi
      refine .alloc hlen (Int.natCast_nonneg _) ?_ (by omega) ?_
      · exact Int.natCast_dvd_natCast.mpr (Nat.dvd_mul_left _ _)
      · rw [h.elements_eq]
        intro hmem
        obtain ⟨j, hj, heq⟩ := List.mem_map.mp hmem
        have hij : j = i := Nat.eq_of_mul_eq_mul_right hs.pos (Int.natCast_inj.mp heq)
        rw [hij] at hj
        exact h.counts.free hj

omit hs in
theorem steps_commit (hn : Next blockSize arraySize tr d c) (hc : ∃ r, Allocated tr r) :
    Steps blockSize arraySize tr cb .commit := by
  obtain ⟨r, hr⟩ := hc
  obtain ⟨hoff, hroom⟩ := hn r hr
  have hrep := h.commit hroom
  refine ⟨d, c + 1, hrep, next_of_ne (by simp), ?_⟩
  have helem : elements (queueCommit cb) = elements cb ++ [r] := by
    rw [hrep.elements_eq, h.elements_eq, slots_snoc h.counts.le, List.map_append, hoff]
    rfl
  show BStep _ _ _ _ _ _ Res.void (elements (queueCommit cb))
  rw [helem]
  exact .commit hr

theorem steps_peek : Steps blockSize arraySize tr cb .peek := by
  refine ⟨d, c, h, next_of_ne (by simp), ?_⟩
  show BStep _ _ _ _ (elements cb) .peek ((queuePeek cb).elim _ _) (elements cb)
  by_cases hempty : cb.mRead = cb.mWrite
  · have hnil := List.length_eq_zero_iff.mp (h.empty_iff.mp hempty)
    have hnone : queuePeek cb = none := if_pos hempty
    rw [hnil, hnone]
    exact .empty
  · have hlen : (elements cb).length ≠ 0 := fun hl => hempty (h.empty_iff.mpr hl)
    have hsome : queuePeek cb = some (cb.mRead * cb.bSize) := if_neg hempty
    have hi := Nat.mod_lt d hs.aLen_pos
    rw [h.length_elements] at hlen
    rw [h.elements_eq, hsome, h.mRead, h.bSize, slots_cons (by omega), List.map_cons,
      Option.elim_some, hs.wrapInt_slot hi]
    exact .peek

theorem steps_discard (n : ℕ) : Steps blockSize arraySize tr cb (.discard n) := by
  obtain ⟨hrep, hcount⟩ := h.discard n
  refine ⟨d + min n (c - d), c, hrep, next_of_ne (by simp), ?_⟩
  have hlt := h.counts.lt
  have hlen := h.length_elements
  have hint : wrapInt (min n (c - d) : ℕ) = (min n (c - d) : ℕ) := by
    have ha := Nat.div_le_self arraySize blockSize
    have hi := hs.int
    exact wrapInt_of_le (Int.natCast_nonneg _) (by omega)
  have helem : elements (queueDiscard cb n).1 = (elements cb).drop n := by
    rw [hrep.elements_eq, h.elements_eq, ← List.map_drop, ← slots_drop]
    refine congrArg _ ?_
    rcases Nat.le_total n (c - d) with hle | hle
    · rw [Nat.min_eq_left hle]
    · rw [Nat.min_eq_right hle, List.drop_of_length_le (by simp),
        List.drop_of_length_le (by simpa using hle)]
  show BStep _ _ _ _ _ _ (.int (wrapInt (queueDiscard cb n).2)) (elements (queueDiscard cb n).1)
  rw [helem, hcount, hint, ← hlen]
  exact .discard n

theorem steps_clearFromPushEnd : Steps blockSize arraySize tr cb .clearFromPushEnd := by
  obtain ⟨hrep, hnil⟩ := h.clear hs (queueClearFromPushEnd cb) rfl rfl h.mRead h.mRead
  refine ⟨d, d, hrep, next_of_ne (by simp), ?_⟩
  show BStep _ _ _ _ _ _ Res.void (elements (queueClearFromPushEnd cb))
  rw [hnil]
  exact .clearFromPushEnd

theorem steps_clearFromPopEnd : Steps blockSize arraySize tr cb .clearFromPopEnd := by
  obtain ⟨hrep, hnil⟩ := h.clear hs (queueClearFromPopEnd cb) rfl rfl h.mWrite h.mWrite
  refine ⟨c, c, hrep, next_of_ne (by simp), ?_⟩
  show BStep _ _ _ _ _ _ Res.void (elements (queueClearFromPopEnd cb))
  rw [hnil]
  exact .clearFromPopEnd

omit hs in
theorem steps_isempty : Steps blockSize arraySize tr cb .isempty := by
  refine ⟨d, c, h, next_of_ne (by simp), ?_⟩
  have hiff : queueIsempty cb = true ↔ (elements cb).length = 0 := by
    rw [← h.empty_iff, queueIsempty, beq_iff_eq, eq_comm]
  show BStep _ _ _ _ _ _ (.int (if queueIsempty cb then 1 else 0)) _
  rw [if_congr hiff rfl rfl]
  exact .isempty

omit hs in
theorem steps_isfull : Steps blockSize arraySize tr cb .isfull := by
  refine ⟨d, c, h, next_of_ne (by simp), ?_⟩
  have hiff : queueIsfull cb = true ↔ (elements cb).length = arraySize / blockSize - 1 := by
    rw [← h.full_iff, queueIsfull, beq_iff_eq]
  show BStep _ _ _ _ _ _ (.int (if queueIsfull cb then 1 else 0)) _
  rw [if_congr hiff rfl rfl]
  exact .isfull

theorem steps_call (hn : Next blockSize arraySize tr d c) (op : Op)
    (hc : op = .commit → ∃ r, Allocated tr r) : Steps blockSize arraySize tr cb op := by
  cases op with
  | alloc => exact steps_alloc hs h
  | commit => exact steps_commit h hn (hc rfl)
  | peek => exact steps_peek hs h
  | discard n => exact steps_discard hs h n
  | clearFromPushEnd => exact steps_clearFromPushEnd hs h
  | clearFromPopEnd => exact steps_clearFromPopEnd hs h
  | isempty => exact steps_isempty h
  | isfull => exact steps_isfull h

end

theorem run_rep (hs : Sizes blockSize arraySize) (h : Run blockSize arraySize tr cb) :
    (∃ d c, Rep blockSize arraySize cb d c ∧ Next blockSize arraySize tr d c) ∧
      BRun blockSize arraySize (arraySize / blockSize - 1) tr (elements cb) := by
  induction h with
  | create =>
    have hnil : elements (queueCreate blockSize arraySize) = [] := by
      rw [hs.rep_create.elements_eq, slots_self]
      rfl
    refine ⟨⟨0, 0, hs.rep_create, ?_⟩, ?_⟩
    · rintro r ⟨hlast, -⟩
      exact absurd hlast (by simp)
    · rw [hnil]
      exact .create
  | call op _ hc ih =>
    obtain ⟨⟨d, c, hrep, hn⟩, hspec⟩ := ih
    obtain ⟨d', c', hrep', hn', hstep⟩ := steps_call hs hrep hn op hc
    exact ⟨⟨d', c', hrep', hn'⟩, .call hspec hstep⟩

/-- **The queue refines a bounded list:** every sequence of calls, with its results, is one of the
abstract queue with room for `a_len - 1` elements, and the control block represents its list. -/
theorem refines_list {blockSize arraySize : ℕ} (hs : Sizes blockSize arraySize)
    {tr : List (Op × Res)} {cb : QueueCb} (h : Run blockSize arraySize tr cb) :
    BRun blockSize arraySize (arraySize / blockSize - 1) tr (elements cb) ∧
      cb.aLen = arraySize / blockSize ∧ (elements cb).length ≤ cb.aLen - 1 := by
  obtain ⟨⟨d, c, hrep, -⟩, hspec⟩ := run_rep hs h
  refine ⟨hspec, hrep.aLen, ?_⟩
  rw [hrep.aLen]
  exact hrep.length_le

/-- Two blocks of three bytes in an array of eight: one element fits. -/
theorem refines_list_two : ∃ cb, Run 3 8 [(.alloc, .int 0), (.commit, .void), (.alloc, .int (-1)),
    (.peek, .peek 1 (some 0))] cb ∧ elements cb = [0] ∧ BRun 3 8 1 [(.alloc, .int 0),
      (.commit, .void), (.alloc, .int (-1)), (.peek, .peek 1 (some 0))] [0] := by
  have h0 : Run 3 8 [] ⟨3, 2, 0, 0⟩ := .create
  have h1 : Run 3 8 [(.alloc, .int 0)] ⟨3, 2, 0, 0⟩ := .call .alloc h0 (by simp)
  have h2 : Run 3 8 [(.alloc, .int 0), (.commit, .void)] ⟨3, 2, 1, 0⟩ :=
    .call .commit h1 fun _ => ⟨0, rfl, by decide⟩
  have h3 : Run 3 8 [(.alloc, .int 0), (.commit, .void), (.alloc, .int (-1))] ⟨3, 2, 1, 0⟩ :=
    .call .alloc h2 (by simp)
  have hrun : Run 3 8 [(.alloc, .int 0), (.commit, .void), (.alloc, .int (-1)),
      (.peek, .peek 1 (some 0))] ⟨3, 2, 1, 0⟩ := .call .peek h3 (by simp)
  exact ⟨⟨3, 2, 1, 0⟩, hrun, by decide, (refines_list ⟨by decide, by decide, by decide⟩ hrun).1⟩

end Xstack.Sock.Bounded
