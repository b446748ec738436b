import Xstack.Sock.Queue

/-! # The ingress queue under every interleaving

The daemon runs `xstack_sock_dgram_input` on one datagram after the other, a client runs
`xstack_recvfrom` on one request after the other, and between any two loads or stores the other
side may take any number of steps. Both work with copies of an index that may be out of date.

* `Prod`, `Cons`: where the two sides stand in their code, with their local variables. A step is
  one load or store of `m_read`, `m_write` or a byte of a slot.
* `Inv`: the indices are two counters modulo the length; the slots between them hold the inputs
  from the first counter up to the second; each side knows what it has tested.
* `step_inv`, `run_inv`: the invariant in every state of every interleaving.
* `fifo`: the results are the inputs in order, and the two sides never work on the same slot. -/

namespace Xstack.Sock.Fifo

open Xstack.Lib.Bytes Xstack.Lib.Ring Xstack.Sock.Queue

/-- The constants of a queue. Its array has at most `2 ^ 31` bytes, so that the index, an `int`, is
exact. -/
structure Geometry where
  aLen : ℕ
  bSize : ℕ
  two_le : 2 ≤ aLen
  index_int : aLen * bSize ≤ 2 ^ 31

/-- A datagram for the socket. -/
structure Input where
  srcaddr : SockAddr
  buf : List UInt8
  deriving DecidableEq

/-- The daemon, in `xstack_sock_dgram_input`. -/
inductive Prod
  /-- `queue_alloc` is to load `m_write`. -/
  | alloc
  /-- `queue_alloc` is to load `m_read`. -/
  | test (write : ℕ)
  /-- Byte `k` of the datagram is to be stored. -/
  | fill (index k : ℕ)
  /-- `queue_commit` is to load `m_write`. -/
  | commit
  /-- `queue_commit` is to store `m_write`. -/
  | publish (next : ℕ)

/-- The client, in `xstack_recvfrom`. -/
inductive Cons
  /-- `queue_peek` is to load `m_read`. -/
  | peek
  /-- `queue_peek` is to load `m_write`. -/
  | test (read : ℕ)
  /-- `*address = dgram->srcaddr`. -/
  | addr (index : ℕ) (got : List UInt8)
  /-- `dgram->buf_size`. -/
  | size (index : ℕ) (address : Option SockAddr) (got : List UInt8)
  /-- `memcpy` of `rd` bytes. -/
  | copy (index : ℕ) (address : Option SockAddr) (rd : ℕ) (got : List UInt8)
  /-- `queue_discard` is to load `m_read`. -/
  | discard (res : Received)
  /-- `queue_discard` is to load `m_write`. -/
  | check (read : ℕ) (res : Received)
  /-- `queue_discard` is to store `m_read`. -/
  | release (read : ℕ) (res : Received)

/-- Shared memory, the two sides, and how far each is in its list of calls. -/
structure St where
  mWrite : ℕ
  mRead : ℕ
  data : Buf
  prod : Prod
  sent : ℕ
  cons : Cons
  /-- The receives that have returned, with their results. -/
  out : List (Recvfrom × Received)

/-- The start: an empty queue, whatever the slots hold. -/
def start (data : Buf) : St := ⟨0, 0, data, .alloc, 0, .peek, []⟩

section Steps
variable (q : Geometry) (sockAddr : SockAddr) (inputs : List Input) (requests : List Recvfrom)

/-- The bytes of an input in its slot. -/
def Input.bytes (x : Input) : List UInt8 := dgramBytes x.srcaddr sockAddr x.buf

/-- One step of the daemon. -/
def stepProd (s : St) : St :=
  match inputs[s.sent]? with
  | none => s
  | some x =>
    match s.prod with
    | .alloc => { s with prod := .test s.mWrite }
    | .test write =>
      if (write + 1) % q.aLen = s.mRead then { s with prod := .alloc }
      else { s with prod := .fill (write * q.bSize) 0 }
    | .fill index k =>
      if k < (x.bytes sockAddr).length then
        { s with data := Function.update s.data (index + k) ((x.bytes sockAddr).getD k 0)
                 prod := .fill index (k + 1) }
      else { s with prod := .commit }
    | .commit => { s with prod := .publish ((s.mWrite + 1) % q.aLen) }
    | .publish next => { s with mWrite := next, prod := .alloc, sent := s.sent + 1 }

/-- `xstack_recvfrom` returns. -/
def St.receive (s : St) (r : Recvfrom) (res : Received) : St :=
  { s with cons := .peek, out := s.out ++ [(r, res)] }

/-- One step of the client. -/
def stepCons (s : St) : St :=
  match requests[s.out.length]? with
  | none => s
  | some r =>
    match s.cons with
    | .peek => { s with cons := .test s.mRead }
    | .test read =>
      if read = s.mWrite then { s with cons := .peek }
      else if r.address then { s with cons := .addr (read * q.bSize) [] }
      else { s with cons := .size (read * q.bSize) none [] }
    | .addr index got =>
      if got.length < 8 then
        { s with cons := .addr index (got ++ [s.data (index + got.length)]) }
      else { s with cons := .size index (some (SockAddr.load (ofBytes got) 0)) [] }
    | .size index address got =>
      if got.length < 8 then
        { s with cons := .size index address (got ++ [s.data (index + 16 + got.length)]) }
      else
        { s with cons := .copy index address (smin r.length (rd64 (ofBytes got) 0).toNat) [] }
    | .copy index address rd got =>
      if got.length < rd then
        { s with cons := .copy index address rd (got ++ [s.data (index + 24 + got.length)]) }
      else if r.peek then s.receive r ⟨address, got⟩
      else { s with cons := .discard ⟨address, got⟩ }
    | .discard res => { s with cons := .check s.mRead res }
    | .check read res =>
      if read = s.mWrite then s.receive r res else { s with cons := .release read res }
    | .release read res => { s with mRead := (read + 1) % q.aLen }.receive r res

/-- The two sides. -/
inductive Side
  | prod
  | cons

def step (s : St) : Side → St
  | .prod => stepProd q sockAddr inputs s
  | .cons => stepCons q requests s

/-- The state after the steps of a schedule. -/
def run (s : St) (sched : List Side) : St := sched.foldl (step q sockAddr inputs requests) s

end Steps

/-! ### What the client should get -/

/-- The result of `xstack_recvfrom` when the datagram `x` is next. -/
def answer (r : Recvfrom) (x : Input) : Received :=
  ⟨if r.address then some x.srcaddr else none, x.buf.take r.length⟩

/-- The number of receives that take their datagram out of the queue. -/
def taken (out : List (Recvfrom × Received)) : ℕ := (out.filter fun e => !e.1.peek).length

/-- Every receive got the datagram that was next. -/
def InOrder (inputs : List Input) (out : List (Recvfrom × Received)) : Prop :=
  ∀ k e, out[k]? = some e →
    ∃ x, inputs[taken (out.take k)]? = some x ∧ e.2 = answer e.1 x

/-! ### The invariant -/

/-- The bytes `l` stand at `o`. -/
def HoldsAt (b : Buf) (o : ℕ) (l : List UInt8) : Prop := ∀ j < l.length, b (o + j) = l.getD j 0

section Invariant
variable (q : Geometry) (sockAddr : SockAddr) (inputs : List Input) (requests : List Recvfrom)

/-- What the daemon knows: after its test there is a free slot, and stays so. -/
def ProdOk (s : St) (x : Input) : Prop :=
  match s.prod with
  | .alloc => True
  | .test write => write = s.sent % q.aLen
  | .fill index k => s.sent + 1 < taken s.out + q.aLen ∧ index = s.sent % q.aLen * q.bSize ∧
      k ≤ (x.bytes sockAddr).length ∧ HoldsAt s.data index ((x.bytes sockAddr).take k)
  | .commit => s.sent + 1 < taken s.out + q.aLen ∧
      HoldsAt s.data (s.sent % q.aLen * q.bSize) (x.bytes sockAddr)
  | .publish next => s.sent + 1 < taken s.out + q.aLen ∧ next = (s.sent + 1) % q.aLen ∧
      HoldsAt s.data (s.sent % q.aLen * q.bSize) (x.bytes sockAddr)

/-- What the client knows: after its test there is a datagram, and what it has copied is its. -/
def ConsOk (s : St) (r : Recvfrom) : Prop :=
  match s.cons with
  | .peek => True
  | .test read => read = taken s.out % q.aLen
  | .addr index got => r.address = true ∧ taken s.out < s.sent ∧
      index = taken s.out % q.aLen * q.bSize ∧
      ∃ x, inputs[taken s.out]? = some x ∧ ∃ k ≤ 8, got = x.srcaddr.bytes.take k
  | .size index address got => taken s.out < s.sent ∧
      index = taken s.out % q.aLen * q.bSize ∧
      ∃ x, inputs[taken s.out]? = some x ∧ address = (answer r x).address ∧
        ∃ k ≤ 8, got = (le64 (UInt64.ofNat x.buf.length)).take k
  | .copy index address rd got => taken s.out < s.sent ∧
      index = taken s.out % q.aLen * q.bSize ∧
      ∃ x, inputs[taken s.out]? = some x ∧ address = (answer r x).address ∧
        rd = min r.length x.buf.length ∧ ∃ k ≤ rd, got = x.buf.take k
  | .discard res => r.peek = false ∧ taken s.out < s.sent ∧
      ∃ x, inputs[taken s.out]? = some x ∧ res = answer r x
  | .check read res => r.peek = false ∧ taken s.out < s.sent ∧ read = taken s.out % q.aLen ∧
      ∃ x, inputs[taken s.out]? = some x ∧ res = answer r x
  | .release read res => r.peek = false ∧ taken s.out < s.sent ∧ read = taken s.out % q.aLen ∧
      ∃ x, inputs[taken s.out]? = some x ∧ res = answer r x

/-- **The invariant of the queue.** `sent` datagrams were committed and `taken` discarded. -/
structure Inv (s : St) : Prop where
  counts : Counts q.aLen (taken s.out) s.sent
  mWrite : s.mWrite = s.sent % q.aLen
  mRead : s.mRead = taken s.out % q.aLen
  slots : ∀ k x, taken s.out ≤ k → k < s.sent → inputs[k]? = some x →
    HoldsAt s.data (k % q.aLen * q.bSize) (x.bytes sockAddr)
  prod : ∀ x, inputs[s.sent]? = some x → ProdOk q sockAddr s x
  cons : ∀ r, requests[s.out.length]? = some r → ConsOk q inputs s r
  order : InOrder inputs s.out
  sentLe : s.sent ≤ inputs.length
  /-- A side that has no more calls to make is in none. -/
  idleProd : inputs[s.sent]? = none → s.prod = .alloc
  idleCons : requests[s.out.length]? = none → s.cons = .peek

end Invariant

/-! ### Bytes of a datagram -/

theorem holdsAt_update {b : Buf} {o a : ℕ} {v : UInt8} {l : List UInt8} (h : HoldsAt b o l)
    (ha : a < o ∨ o + l.length ≤ a) : HoldsAt (Function.update b a v) o l := by
  intro j hj
  rw [Function.update_of_ne (by omega)]
  exact h j hj

theorem holdsAt_snoc {b : Buf} {o k : ℕ} {l : List UInt8} (hk : k < l.length)
    (h : HoldsAt b o (l.take k)) :
    HoldsAt (Function.update b (o + k) (l.getD k 0)) o (l.take (k + 1)) := by
  intro j hj
  rw [List.length_take] at hj
  have htake : ∀ m, j < m → (l.take m).getD j 0 = l.getD j 0 := by
    intro m hm
    rw [List.getD_eq_getElem?_getD, List.getElem?_take_of_lt hm, List.getD_eq_getElem?_getD]
  rw [htake _ (by omega)]
  by_cases hjk : j = k
  · rw [hjk, Function.update_self]
  · rw [Function.update_of_ne (by omega), h j (by rw [List.length_take]; omega),
      htake _ (by omega)]

/-- Byte `k` of the part `l` of a datagram that follows `pre`. -/
theorem holdsAt_part {b : Buf} {o k : ℕ} {pre l post : List UInt8}
    (h : HoldsAt b o (pre ++ l ++ post)) (hk : k < l.length) :
    b (o + pre.length + k) = l.getD k 0 := by
  rw [Nat.add_assoc, h (pre.length + k) (by simp; omega)]
  simp only [List.getD_eq_getElem?_getD, List.append_assoc]
  rw [List.getElem?_append_right (by omega), Nat.add_sub_cancel_left,
    List.getElem?_append_left hk]

theorem take_snoc {l : List UInt8} {k : ℕ} (hk : k < l.length) :
    l.take k ++ [l.getD k 0] = l.take (k + 1) := by
  rw [List.take_succ_eq_append_getElem hk, List.getD_eq_getElem?_getD,
    List.getElem?_eq_getElem hk, Option.getD_some]

section Fields
variable {b : Buf} {o k : ℕ} {sockAddr : SockAddr} {x : Input}
  (h : HoldsAt b o (x.bytes sockAddr))
include h

theorem srcaddr_byte (hk : k < 8) : b (o + k) = x.srcaddr.bytes.getD k 0 := by
  have h' : HoldsAt b o ([] ++ x.srcaddr.bytes ++
      (sockAddr.bytes ++ le64 (UInt64.ofNat x.buf.length) ++ x.buf)) := by
    simpa [Input.bytes, dgramBytes] using h
  exact holdsAt_part h' (by simpa using hk)

theorem bufSize_byte (hk : k < 8) :
    b (o + 16 + k) = (le64 (UInt64.ofNat x.buf.length)).getD k 0 := by
  have h' : HoldsAt b o ((x.srcaddr.bytes ++ sockAddr.bytes) ++
      le64 (UInt64.ofNat x.buf.length) ++ x.buf) := h
  exact holdsAt_part h' (by simpa using hk)

theorem buf_byte (hk : k < x.buf.length) : b (o + 24 + k) = x.buf.getD k 0 := by
  have h' : HoldsAt b o ((x.srcaddr.bytes ++ sockAddr.bytes ++
      le64 (UInt64.ofNat x.buf.length)) ++ x.buf ++ []) := by
    rw [List.append_nil]
    exact h
  exact holdsAt_part h' hk

end Fields

theorem load_bytes (a : SockAddr) : SockAddr.load (ofBytes a.bytes) 0 = a := by
  have h : SockAddr.load (put (fun _ => 0) 0 ([] ++ a.bytes ++ [])) (0 + 0) = a :=
    sockAddr_load_put
  simpa [ofBytes] using h

theorem rd64_le64 (x : UInt64) : rd64 (ofBytes (le64 x)) 0 = x := by
  have h : rd64 (put (fun _ => 0) 0 ([] ++ le64 x ++ [])) (0 + 0) = x := rd64_put _ _
  simpa [ofBytes] using h

/-! ### Results in order -/

theorem taken_snoc (out : List (Recvfrom × Received)) (r : Recvfrom) (res : Received) :
    taken (out ++ [(r, res)]) = taken out + if r.peek then 0 else 1 := by
  unfold taken
  rw [List.filter_append, List.length_append]
  rcases hp : r.peek with _ | _
  · simp [hp]
  · simp [hp]

theorem inOrder_snoc {inputs : List Input} {out : List (Recvfrom × Received)} {r : Recvfrom}
    {x : Input} (h : InOrder inputs out) (hx : inputs[taken out]? = some x) :
    InOrder inputs (out ++ [(r, answer r x)]) := by
  intro k e he
  rcases getElem?_snoc he with ⟨hk, he⟩ | ⟨rfl, rfl⟩
  · rw [List.take_append_of_le_length hk.le]
    exact h k e he
  · rw [List.take_left]
    exact ⟨x, hx, rfl⟩

/-! ### One step -/

section Steps
variable {q : Geometry} {sockAddr : SockAddr} {inputs : List Input} {requests : List Recvfrom}

theorem prodOk_congr {s s' : St} {x : Input} (h : ProdOk q sockAddr s x) (hp : s'.prod = s.prod)
    (hs : s'.sent = s.sent) (hd : s'.data = s.data) (ht : taken s.out ≤ taken s'.out) :
    ProdOk q sockAddr s' x := by
  unfold ProdOk at h ⊢
  rw [hp, hs, hd]
  rcases hpc : s.prod with _ | write | ⟨index, k⟩ | _ | next <;> simp only [hpc] at h ⊢
  · exact h
  · exact ⟨by omega, h.2⟩
  · exact ⟨by omega, h.2⟩
  · exact ⟨by omega, h.2⟩

theorem consOk_congr {s s' : St} {r : Recvfrom} (h : ConsOk q inputs s r) (hc : s'.cons = s.cons)
    (ho : s'.out = s.out) (hs : s.sent ≤ s'.sent) : ConsOk q inputs s' r := by
  unfold ConsOk at h ⊢
  rw [hc, ho]
  rcases hpc : s.cons with _ | read | ⟨index, got⟩ | ⟨index, address, got⟩ |
    ⟨index, address, rd, got⟩ | res | ⟨read, res⟩ | ⟨read, res⟩ <;> simp only [hpc] at h ⊢
  · exact h
  · exact ⟨h.1, by omega, h.2.2⟩
  · exact ⟨by omega, h.2⟩
  · exact ⟨by omega, h.2⟩
  · exact ⟨h.1, by omega, h.2.2⟩
  · exact ⟨h.1, by omega, h.2.2⟩
  · exact ⟨h.1, by omega, h.2.2⟩

theorem Inv.exists_input {s : St} {k : ℕ} (hi : Inv q sockAddr inputs requests s)
    (hk : k < s.sent) : ∃ x, inputs[k]? = some x :=
  ⟨_, List.getElem?_eq_getElem (lt_of_lt_of_le hk hi.sentLe)⟩

/-- The daemon moves on without a store. -/
theorem Inv.movesProd {s : St} {p : Prod} {x : Input} (hi : Inv q sockAddr inputs requests s)
    (hx : inputs[s.sent]? = some x) (hp : ProdOk q sockAddr { s with prod := p } x) :
    Inv q sockAddr inputs requests { s with prod := p } := by
  refine ⟨hi.counts, hi.mWrite, hi.mRead, hi.slots, fun y hy => ?_, fun r hr =>
    consOk_congr (hi.cons r hr) rfl rfl le_rfl, hi.order, hi.sentLe,
    fun hn => absurd (hn.symm.trans hx) (by simp), hi.idleCons⟩
  rw [Option.some.inj (hy.symm.trans hx)]
  exact hp

/-- The client moves on without a store. -/
theorem Inv.movesCons {s : St} {c : Cons} {r : Recvfrom}
    (hi : Inv q sockAddr inputs requests s) (hr : requests[s.out.length]? = some r)
    (hc : ConsOk q inputs { s with cons := c } r) :
    Inv q sockAddr inputs requests { s with cons := c } := by
  refine ⟨hi.counts, hi.mWrite, hi.mRead, hi.slots, fun x hx =>
    prodOk_congr (hi.prod x hx) rfl rfl rfl le_rfl, fun r' hr' => ?_, hi.order, hi.sentLe,
    hi.idleProd, fun hn => absurd (hn.symm.trans hr) (by simp)⟩
  rw [Option.some.inj (hr'.symm.trans hr)]
  exact hc

variable (hfit : ∀ x ∈ inputs, dgramHdrSize + x.buf.length ≤ q.bSize)

include hfit in
theorem length_bytes_le (sockAddr : SockAddr) {k : ℕ} {x : Input} (hx : inputs[k]? = some x) :
    (x.bytes sockAddr).length ≤ q.bSize := by
  rw [Input.bytes, length_dgramBytes]
  exact hfit x (List.mem_of_getElem? hx)

include hfit in
/-- The daemon stores a byte: no slot between the counters changes. -/
theorem Inv.fills {s : St} {x : Input} {k : ℕ} (hi : Inv q sockAddr inputs requests s)
    (hx : inputs[s.sent]? = some x) (hk : k < (x.bytes sockAddr).length)
    (hp : ProdOk q sockAddr { s with prod := .fill (s.sent % q.aLen * q.bSize) k } x) :
    Inv q sockAddr inputs requests { s with
      data := Function.update s.data (s.sent % q.aLen * q.bSize + k) ((x.bytes sockAddr).getD k 0)
      prod := .fill (s.sent % q.aLen * q.bSize) (k + 1) } := by
  obtain ⟨hroom, -, -, hdone⟩ := hp
  have hlen := length_bytes_le hfit sockAddr hx
  refine ⟨hi.counts, hi.mWrite, hi.mRead, fun j y hj hjs hy => ?_, fun y hy => ?_, fun r hr =>
    consOk_congr (hi.cons r hr) rfl rfl le_rfl, hi.order, hi.sentLe,
    fun hn => absurd (hn.symm.trans hx) (by simp), hi.idleCons⟩
  · simp only at hj hjs
    have hleny := length_bytes_le hfit sockAddr hy
    have hlt := hi.counts.lt
    have hne : j % q.aLen ≠ s.sent % q.aLen := slot_ne hjs (by omega)
    have hdis := slot_disjoint hne q.bSize
    exact holdsAt_update (hi.slots j y hj hjs hy) (by omega)
  · rw [Option.some.inj (hy.symm.trans hx)]
    exact ⟨hroom, rfl, hk, holdsAt_snoc hk hdone⟩

/-- The daemon stores `m_write`: the filled slot joins those between the counters. -/
theorem Inv.publishes {s : St} {x : Input} (hi : Inv q sockAddr inputs requests s)
    (hx : inputs[s.sent]? = some x) (hroom : s.sent + 1 < taken s.out + q.aLen)
    (hdone : HoldsAt s.data (s.sent % q.aLen * q.bSize) (x.bytes sockAddr)) :
    Inv q sockAddr inputs requests
      { s with mWrite := (s.sent + 1) % q.aLen, prod := .alloc, sent := s.sent + 1 } := by
  refine ⟨⟨?_, hroom⟩, rfl, hi.mRead, fun j y hj hjs hy => ?_, fun _ _ => trivial,
    fun r hr => consOk_congr (hi.cons r hr) rfl rfl (Nat.le_succ _), hi.order,
    (List.getElem?_eq_some_iff.mp hx).1, fun _ => rfl, hi.idleCons⟩
  · exact hi.counts.le.trans (Nat.le_succ _)
  · by_cases hlast : j = s.sent
    · subst hlast
      rw [Option.some.inj (hy.symm.trans hx)]
      exact hdone
    · simp only at hj hjs
      exact hi.slots j y hj (by omega) hy

include hfit in
theorem stepProd_inv {s : St} (hi : Inv q sockAddr inputs requests s) :
    Inv q sockAddr inputs requests (stepProd q sockAddr inputs s) := by
  unfold stepProd
  rcases hx : inputs[s.sent]? with _ | x
  · exact hi
  have hp := hi.prod x hx
  unfold ProdOk at hp
  rcases hprod : s.prod with _ | write | ⟨index, k⟩ | _ | next
  · exact hi.movesProd hx hi.mWrite
  · simp only [hprod] at hp
    by_cases hfull : (write + 1) % q.aLen = s.mRead
    · simp only [if_pos hfull]
      exact hi.movesProd hx trivial
    · simp only [if_neg hfull]
      refine hi.movesProd hx ⟨?_, by rw [hp], Nat.zero_le _, ?_⟩
      · rw [hp, hi.mRead, hi.counts.full_iff] at hfull
        have := hi.counts.lt
        show s.sent + 1 < taken s.out + q.aLen
        omega
      · intro j hj
        simp at hj
  · simp only [hprod] at hp
    obtain ⟨hroom, rfl, hk, hdone⟩ := hp
    by_cases hlt : k < (x.bytes sockAddr).length
    · simp only [if_pos hlt]
      exact hi.fills hfit hx hlt ⟨hroom, rfl, hk, hdone⟩
    · simp only [if_neg hlt]
      rw [List.take_of_length_le (not_lt.mp hlt)] at hdone
      exact hi.movesProd hx ⟨hroom, hdone⟩
  · simp only [hprod] at hp
    refine hi.movesProd hx ⟨hp.1, ?_, hp.2⟩
    rw [hi.mWrite, Counts.next]
  · simp only [hprod] at hp
    obtain ⟨hroom, rfl, hdone⟩ := hp
    exact hi.publishes hx hroom hdone

/-- The client returns with a datagram that stays in the queue. -/
theorem Inv.peeks {s : St} {r : Recvfrom} {x : Input} (hi : Inv q sockAddr inputs requests s)
    (hp : r.peek = true) (hx : inputs[taken s.out]? = some x) :
    Inv q sockAddr inputs requests (s.receive r (answer r x)) := by
  have ht : taken (s.out ++ [(r, answer r x)]) = taken s.out := by
    rw [taken_snoc, hp]
    rfl
  refine ⟨?_, hi.mWrite, ?_, fun j y hj hjs hy => ?_, fun y hy => ?_, fun _ _ => trivial,
    inOrder_snoc hi.order hx, hi.sentLe, hi.idleProd, fun _ => rfl⟩
  · show Counts q.aLen (taken (s.out ++ _)) s.sent
    rw [ht]
    exact hi.counts
  · show s.mRead = taken (s.out ++ _) % q.aLen
    rw [ht]
    exact hi.mRead
  · exact hi.slots j y (by rw [← ht]; exact hj) hjs hy
  · exact prodOk_congr (hi.prod y hy) rfl rfl rfl ht.ge

/-- The client stores `m_read` and returns. -/
theorem Inv.releases {s : St} {r : Recvfrom} {x : Input} (hi : Inv q sockAddr inputs requests s)
    (hp : r.peek = false) (hlt : taken s.out < s.sent) (hx : inputs[taken s.out]? = some x) :
    Inv q sockAddr inputs requests
      ({ s with mRead := (taken s.out % q.aLen + 1) % q.aLen }.receive r (answer r x)) := by
  have ht : taken (s.out ++ [(r, answer r x)]) = taken s.out + 1 := by
    rw [taken_snoc, hp]
    rfl
  have hc := hi.counts.lt
  refine ⟨?_, hi.mWrite, ?_, fun j y hj hjs hy => ?_, fun y hy => ?_, fun _ _ => trivial,
    inOrder_snoc hi.order hx, hi.sentLe, hi.idleProd, fun _ => rfl⟩
  · show Counts q.aLen (taken (s.out ++ _)) s.sent
    rw [ht]
    exact ⟨hlt, by omega⟩
  · show (taken s.out % q.aLen + 1) % q.aLen = taken (s.out ++ _) % q.aLen
    rw [ht, Counts.next]
  · have hj' : taken (s.out ++ [(r, answer r x)]) ≤ j := hj
    exact hi.slots j y (by omega) hjs hy
  · exact prodOk_congr (hi.prod y hy) rfl rfl rfl (ht.trans_ge (Nat.le_succ _))

/-- The client has loaded `m_write`. -/
theorem Inv.tests {s : St} {r : Recvfrom} {read : ℕ} (hi : Inv q sockAddr inputs requests s)
    (hr : requests[s.out.length]? = some r) (hcons : s.cons = .test read) :
    Inv q sockAddr inputs requests (stepCons q requests s) := by
  have hc := hi.cons r hr
  simp only [ConsOk, stepCons, hr, hcons] at hc ⊢
  by_cases hempty : read = s.mWrite
  · rw [if_pos hempty]
    exact hi.movesCons hr trivial
  rw [if_neg hempty]
  have hlt : taken s.out < s.sent := by
    rw [hc, hi.mWrite, hi.counts.empty_iff] at hempty
    have := hi.counts.le
    omega
  obtain ⟨x, hx⟩ := hi.exists_input hlt
  by_cases ha : r.address = true
  · rw [if_pos ha]
    exact hi.movesCons hr ⟨ha, hlt, by rw [hc], x, hx, 0, by omega, rfl⟩
  · rw [if_neg ha]
    refine hi.movesCons hr ⟨hlt, by rw [hc], x, hx, ?_, 0, by omega, rfl⟩
    simp [answer, ha]

/-- The client copies `srcaddr`. -/
theorem Inv.copiesAddr {s : St} {r : Recvfrom} {index : ℕ} {got : List UInt8}
    (hi : Inv q sockAddr inputs requests s) (hr : requests[s.out.length]? = some r)
    (hcons : s.cons = .addr index got) :
    Inv q sockAddr inputs requests (stepCons q requests s) := by
  have hc := hi.cons r hr
  simp only [ConsOk, stepCons, hr, hcons] at hc ⊢
  obtain ⟨ha, hlt, hindex, x, hx, k, hk, rfl⟩ := hc
  have hslot := hi.slots _ x le_rfl hlt hx
  have hl : (x.srcaddr.bytes.take k).length = k := by simp [hk]
  by_cases hk8 : k < 8
  · rw [if_pos (by omega), hl]
    refine hi.movesCons hr ⟨ha, hlt, hindex, x, hx, k + 1, hk8, ?_⟩
    rw [hindex, srcaddr_byte hslot hk8, take_snoc (by simpa using hk8)]
  · rw [if_neg (by omega)]
    refine hi.movesCons hr ⟨hlt, hindex, x, hx, ?_, 0, by omega, rfl⟩
    rw [List.take_of_length_le (by simpa using not_lt.mp hk8), load_bytes]
    simp [answer, ha]

include hfit in
/-- The client loads `buf_size`. -/
theorem Inv.copiesSize {s : St} {r : Recvfrom} {index : ℕ} {address : Option SockAddr}
    {got : List UInt8} (hi : Inv q sockAddr inputs requests s)
    (hr : requests[s.out.length]? = some r) (hcons : s.cons = .size index address got) :
    Inv q sockAddr inputs requests (stepCons q requests s) := by
  have hc := hi.cons r hr
  simp only [ConsOk, stepCons, hr, hcons] at hc ⊢
  obtain ⟨hlt, hindex, x, hx, ha, k, hk, rfl⟩ := hc
  have hslot := hi.slots _ x le_rfl hlt hx
  have hl : ((le64 (UInt64.ofNat x.buf.length)).take k).length = k := by simp [hk]
  by_cases hk8 : k < 8
  · rw [if_pos (by omega), hl]
    refine hi.movesCons hr ⟨hlt, hindex, x, hx, ha, k + 1, hk8, ?_⟩
    rw [hindex, bufSize_byte hslot hk8, take_snoc (by simpa using hk8)]
  · rw [if_neg (by omega)]
    refine hi.movesCons hr ⟨hlt, hindex, x, hx, ha, ?_, 0, Nat.zero_le _, rfl⟩
    -- the size is that of the input, which fits the slot and so an `int`
    have hsize := hfit x (List.mem_of_getElem? hx)
    have hint := q.index_int
    have hbs : q.bSize ≤ q.aLen * q.bSize := Nat.le_mul_of_pos_left _ (by have := q.two_le; omega)
    rw [List.take_of_length_le (by simpa using not_lt.mp hk8), rd64_le64, UInt64.toNat_ofNat',
      Nat.mod_eq_of_lt (by omega)]
    unfold smin
    exact Nat.mod_eq_of_lt (by omega)

/-- The client copies the data, and returns when it only peeks. -/
theorem Inv.copies {s : St} {r : Recvfrom} {index rd : ℕ} {address : Option SockAddr}
    {got : List UInt8} (hi : Inv q sockAddr inputs requests s)
    (hr : requests[s.out.length]? = some r) (hcons : s.cons = .copy index address rd got) :
    Inv q sockAddr inputs requests (stepCons q requests s) := by
  have hc := hi.cons r hr
  simp only [ConsOk, stepCons, hr, hcons] at hc ⊢
  obtain ⟨hlt, hindex, x, hx, ha, hrd, k, hk, rfl⟩ := hc
  have hslot := hi.slots _ x le_rfl hlt hx
  have hl : (x.buf.take k).length = k := by simp; omega
  by_cases hkr : k < rd
  · rw [if_pos (by omega), hl]
    refine hi.movesCons hr ⟨hlt, hindex, x, hx, ha, hrd, k + 1, hkr, ?_⟩
    rw [hindex, buf_byte hslot (by omega), take_snoc (by omega)]
  rw [if_neg (by omega)]
  have hres : (⟨address, x.buf.take k⟩ : Received) = answer r x := by
    have hkm : k = min r.length x.buf.length := by omega
    have htake : x.buf.take k = x.buf.take r.length := by
      rw [hkm]
      exact List.take_eq_take_min.symm
    rw [ha, htake]
    rfl
  rw [hres]
  by_cases hp : r.peek = true
  · rw [if_pos hp]
    exact hi.peeks hp hx
  · rw [if_neg hp]
    exact hi.movesCons hr ⟨by simpa using hp, hlt, x, hx, rfl⟩

/-- The client has loaded `m_write` again: the datagram is still there. -/
theorem Inv.checks {s : St} {r : Recvfrom} {read : ℕ} {res : Received}
    (hi : Inv q sockAddr inputs requests s) (hr : requests[s.out.length]? = some r)
    (hcons : s.cons = .check read res) :
    Inv q sockAddr inputs requests (stepCons q requests s) := by
  have hc := hi.cons r hr
  simp only [ConsOk, stepCons, hr, hcons] at hc ⊢
  obtain ⟨hp, hlt, hread, hx⟩ := hc
  have hne : read ≠ s.mWrite := by
    rw [hread, hi.mWrite, ne_eq, hi.counts.empty_iff]
    omega
  rw [if_neg hne]
  exact hi.movesCons hr ⟨hp, hlt, hread, hx⟩

include hfit in
theorem stepCons_inv {s : St} (hi : Inv q sockAddr inputs requests s) :
    Inv q sockAddr inputs requests (stepCons q requests s) := by
  rcases hr : requests[s.out.length]? with _ | r
  · unfold stepCons
    rw [hr]
    exact hi
  have hc := hi.cons r hr
  cases hcons : s.cons with
  | peek =>
    simp only [stepCons, hr, hcons]
    exact hi.movesCons hr hi.mRead
  | test read => exact hi.tests hr hcons
  | addr index got => exact hi.copiesAddr hr hcons
  | size index address got => exact hi.copiesSize hfit hr hcons
  | copy index address rd got => exact hi.copies hr hcons
  | discard res =>
    simp only [ConsOk, stepCons, hr, hcons] at hc ⊢
    exact hi.movesCons hr ⟨hc.1, hc.2.1, hi.mRead, hc.2.2⟩
  | check read res => exact hi.checks hr hcons
  | release read res =>
    simp only [ConsOk, stepCons, hr, hcons] at hc ⊢
    obtain ⟨hp, hlt, rfl, x, hx, rfl⟩ := hc
    exact hi.releases hp hlt hx

end Steps

/-! ### Every interleaving -/

theorem inv_start (q : Geometry) (sockAddr : SockAddr) (inputs : List Input)
    (requests : List Recvfrom) (data : Buf) :
    Inv q sockAddr inputs requests (start data) where
  counts := ⟨le_rfl, by have := q.two_le; show 0 < 0 + q.aLen; omega⟩
  mWrite := (Nat.zero_mod _).symm
  mRead := (Nat.zero_mod _).symm
  slots k x _ hk := absurd hk (Nat.not_lt_zero k)
  prod _ _ := trivial
  cons _ _ := trivial
  order k e he := by simp [start] at he
  sentLe := Nat.zero_le _
  idleProd _ := rfl
  idleCons _ := rfl

theorem run_inv {q : Geometry} {sockAddr : SockAddr} {inputs : List Input}
    {requests : List Recvfrom} (hfit : ∀ x ∈ inputs, dgramHdrSize + x.buf.length ≤ q.bSize) :
    ∀ (sched : List Side) {s : St}, Inv q sockAddr inputs requests s →
      Inv q sockAddr inputs requests (run q sockAddr inputs requests s sched)
  | [], _, hi => hi
  | .prod :: sched, _, hi => run_inv hfit sched (stepProd_inv hfit hi)
  | .cons :: sched, _, hi => run_inv hfit sched (stepCons_inv hfit hi)

/-- The slot that the daemon is filling, by its offset. -/
def fillSlot (s : St) : Option ℕ :=
  match s.prod with
  | .fill index _ => some index
  | _ => none

/-- The slot that the client is copying out, by its offset. -/
def copySlot (s : St) : Option ℕ :=
  match s.cons with
  | .addr index _ => some index
  | .size index _ _ => some index
  | .copy index _ _ _ => some index
  | _ => none

theorem exists_taken {e : Recvfrom × Received} : ∀ {out : List (Recvfrom × Received)} {k : ℕ},
    (out.filter fun e => !e.1.peek)[k]? = some e →
      ∃ p, out[p]? = some e ∧ taken (out.take p) = k
  | [], k, h => by simp at h
  | a :: out, k, h => by
    by_cases ha : a.1.peek = true
    · rw [List.filter_cons_of_neg (by simp [ha])] at h
      obtain ⟨p, h1, h2⟩ := exists_taken h
      refine ⟨p + 1, h1, ?_⟩
      rw [List.take_succ_cons, taken, List.filter_cons_of_neg (by simp [ha])]
      exact h2
    · rw [List.filter_cons_of_pos (by simp [ha])] at h
      rcases k with _ | k
      · exact ⟨0, h, rfl⟩
      · obtain ⟨p, h1, h2⟩ := exists_taken h
        refine ⟨p + 1, h1, ?_⟩
        rw [List.take_succ_cons, taken, List.filter_cons_of_pos (by simp [ha]), List.length_cons,
          ← h2]
        rfl

theorem Inv.slots_apart {q : Geometry} {sockAddr : SockAddr} {inputs : List Input}
    {requests : List Recvfrom} {s : St} {i j : ℕ} (hi : Inv q sockAddr inputs requests s)
    (hf : fillSlot s = some i) (hc : copySlot s = some j) :
    i + q.bSize ≤ j ∨ j + q.bSize ≤ i := by
  have hprod : i = s.sent % q.aLen * q.bSize := by
    unfold fillSlot at hf
    rcases hpc : s.prod with _ | write | ⟨index, k⟩ | _ | next <;> simp only [hpc] at hf
    · exact absurd hf (by simp)
    · exact absurd hf (by simp)
    · rcases hx : inputs[s.sent]? with _ | x
      · exact absurd (hi.idleProd hx) (by simp [hpc])
      · have hp := hi.prod x hx
        simp only [ProdOk, hpc] at hp
        rw [← Option.some.inj hf]
        exact hp.2.1
    · exact absurd hf (by simp)
    · exact absurd hf (by simp)
  have hcons : taken s.out < s.sent ∧ j = taken s.out % q.aLen * q.bSize := by
    rcases hr : requests[s.out.length]? with _ | r
    · simp [copySlot, hi.idleCons hr] at hc
    have hok := hi.cons r hr
    unfold ConsOk at hok
    unfold copySlot at hc
    rcases hpc : s.cons with _ | read | ⟨index, got⟩ | ⟨index, address, got⟩ |
      ⟨index, address, rd, got⟩ | res | ⟨read, res⟩ | ⟨read, res⟩ <;>
      simp only [hpc, Option.some.injEq, reduceCtorEq] at hc hok
    · rw [← hc]
      exact ⟨hok.2.1, hok.2.2.1⟩
    · rw [← hc]
      exact ⟨hok.1, hok.2.1⟩
    · rw [← hc]
      exact ⟨hok.1, hok.2.1⟩
  have hne : s.sent % q.aLen ≠ taken s.out % q.aLen := (slot_ne hcons.1 hi.counts.lt).symm
  rw [hprod, hcons.2]
  exact slot_disjoint hne q.bSize

/-- **The ingress queue is a lossless FIFO under every interleaving.** In every state that a
schedule of loads and stores leads to: the receives that take their datagram out got the inputs in
order, each with the source address and the bytes up to its own length; a receive with
`XSTACK_MSG_PEEK` got the datagram that the receive after it got; and the slot that is being filled
is not the one that is being copied out. -/
theorem fifo (q : Geometry) (sockAddr : SockAddr) (inputs : List Input) (requests : List Recvfrom)
    (hfit : ∀ x ∈ inputs, dgramHdrSize + x.buf.length ≤ q.bSize) (data : Buf)
    (sched : List Side) (s : St) (hs : s = run q sockAddr inputs requests (start data) sched) :
    (∀ (k : ℕ) (e : Recvfrom × Received), (s.out.filter fun e => !e.1.peek)[k]? = some e →
      ∃ x, inputs[k]? = some x ∧ e.2 = answer e.1 x) ∧
    (∀ (k : ℕ) (e e' : Recvfrom × Received), s.out[k]? = some e → e.1.peek = true →
      s.out[k + 1]? = some e' →
      ∃ (j : ℕ) (x : Input), inputs[j]? = some x ∧ e.2 = answer e.1 x ∧ e'.2 = answer e'.1 x) ∧
    ∀ i j, fillSlot s = some i → copySlot s = some j → i + q.bSize ≤ j ∨ j + q.bSize ≤ i := by
  have hi : Inv q sockAddr inputs requests s :=
    hs ▸ run_inv hfit sched (inv_start q sockAddr inputs requests data)
  refine ⟨fun k e he => ?_, fun k e e' he hp he' => ?_, fun i j => hi.slots_apart⟩
  · obtain ⟨p, h1, h2⟩ := exists_taken he
    rw [← h2]
    exact hi.order p e h1
  · obtain ⟨x, hx, h1⟩ := hi.order k e he
    obtain ⟨x', hx', h2⟩ := hi.order (k + 1) e' he'
    have ht : taken (s.out.take (k + 1)) = taken (s.out.take k) := by
      rw [List.take_add_one, he, Option.toList_some, taken_snoc, hp]
      rfl
    rw [ht] at hx'
    rw [Option.some.inj (hx'.symm.trans hx)] at h2
    exact ⟨_, x, hx, h1, h2⟩

/-- A ring of two slots of 32 bytes, for a run on fixed inputs. -/
def twoSlots : Geometry := ⟨2, 32, by decide, by decide⟩

/-- The state after the daemon has stored a datagram and waits with the second one, and the client
has peeked at the first and taken it. -/
def peekedThenTaken : St :=
  run twoSlots ⟨1, 10⟩ [⟨⟨5, 7⟩, [1, 2, 3]⟩, ⟨⟨6, 8⟩, [4]⟩] [⟨2, true, false⟩, ⟨9, false, true⟩]
    (start fun _ => 255) (List.replicate 40 .prod ++ List.replicate 60 .cons)

theorem fifo_two_slots : peekedThenTaken.out =
      [(⟨2, true, false⟩, ⟨none, [1, 2]⟩), (⟨9, false, true⟩, ⟨some ⟨5, 7⟩, [1, 2, 3]⟩)] ∧
    ∃ x, ([⟨⟨5, 7⟩, [1, 2, 3]⟩, ⟨⟨6, 8⟩, [4]⟩] : List Input)[0]? = some x ∧
      (⟨some ⟨5, 7⟩, [1, 2, 3]⟩ : Received) = answer ⟨9, false, true⟩ x := by
  have hout : peekedThenTaken.out =
      [(⟨2, true, false⟩, ⟨none, [1, 2]⟩), (⟨9, false, true⟩, ⟨some ⟨5, 7⟩, [1, 2, 3]⟩)] := by
    decide +kernel
  have h := fifo twoSlots ⟨1, 10⟩ [⟨⟨5, 7⟩, [1, 2, 3]⟩, ⟨⟨6, 8⟩, [4]⟩]
    [⟨2, true, false⟩, ⟨9, false, true⟩] (by simp [dgramHdrSize, twoSlots]) (fun _ => 255)
    (List.replicate 40 .prod ++ List.replicate 60 .cons) peekedThenTaken (by rw [peekedThenTaken])
  exact ⟨hout, h.1 0 (⟨9, false, true⟩, ⟨some ⟨5, 7⟩, [1, 2, 3]⟩) (by rw [hout]; rfl)⟩

end Xstack.Sock.Fifo
