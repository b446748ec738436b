import Xstack.Net.Send

/-! # The loop of `ip_defer_handler` ends

The handler takes packets off a ring until it is empty, and for each it calls `ip_send`, which may call
`ip_defer_push`. Here the indices of the ring are numbers, and what `ip_send` calls is a parameter:
routing, ARP and `ether_send` may do anything to the rest of the program, or not return.

* `Queue`: `ip_defer.c` with its static variables. `World`: what `ip_send` calls.
* `turn`, `loop`: one turn of `while (1)`, and the loop with a bound on the turns.
* `Reachable`: the queues after any sequence of pushes and calls of the handler.
* `turn_spec`: a turn returns, or it takes one packet off. `loop_ends`, `handler_ends`. -/

namespace Xstack.Net.DeferLoop

open Xstack.Config Xstack.Lib.Bytes Xstack.Lib.Program Xstack.Ether Xstack.Ip.Header
open Xstack.Ip.Route Xstack.Net.State Xstack.Net.Send

/-! ### The queue -/

/-- `ip_defer_queue`, `q_rd`, `q_wr` and `defer_inhibit`. -/
structure Queue where
  slot : ℕ → IpDefer
  qRd : ℕ
  qWr : ℕ
  deferInhibit : Bool

namespace Queue

/-- Static memory at start-up. -/
def init : Queue := ⟨fun _ => ⟨0, 0, 0, 0, fun _ => 0⟩, 0, 0, false⟩

/-- `ip_defer_push`. The size of the packet is not stored. -/
def ipDeferPush (q : Queue) (dst : InAddr) (proto : UInt8) (buf : Buf) (bsize : ℕ) : ℤ × Queue :=
  let next := (q.qWr + 1) % xstackIpDeferMax
  if q.deferInhibit then (-EALREADY, q)
  else if next = q.qRd then (-ENOBUFS, q)
  else if bsize > etherAlen then (-EMSGSIZE, q)
  else
    let old := q.slot q.qWr
    let slot : IpDefer :=
      { old with tries := 0, dst := dst, proto := proto, buf := copy old.buf 0 buf bsize }
    (0, { q with slot := Function.update q.slot q.qWr slot, qWr := next })

/-- `ip_defer_peek`, by the index. -/
def ipDeferPeek (q : Queue) : Option ℕ := if q.qRd = q.qWr then none else some q.qRd

/-- `ip_defer_drop`. -/
def ipDeferDrop (q : Queue) : Queue :=
  if q.qRd = q.qWr then q else { q with qRd := (q.qRd + 1) % xstackIpDeferMax }

/-- `ipd->tries++`. -/
def countTry (q : Queue) (ipd : ℕ) : Queue :=
  { q with slot := Function.update q.slot ipd { q.slot ipd with tries := (q.slot ipd).tries + 1 } }

def inhibit (q : Queue) : Queue := { q with deferInhibit := true }

/-- The number of packets in the ring. -/
def entries (q : Queue) : ℕ := (q.qWr + xstackIpDeferMax - q.qRd) % xstackIpDeferMax

end Queue

/-! ### `ip_send` -/

/-- What `ip_send` uses of the rest of the program, with any behaviour whatsoever. -/
structure World (σ : Type) where
  errno : σ → ℤ
  setErrno : ℤ → σ → σ
  /-- `ip_global_id++`. -/
  ipGlobalId : σ → UInt32 × σ
  ipRouteFindByNetwork : InAddr → Prog σ (Option IpRoute)
  arpCacheGetHaddr : InAddr → InAddr → Prog σ (Option MacAddr)
  etherSend : ℤ → MacAddr → UInt16 → Buf → ℕ → Prog σ ℤ

variable {σ : Type} (w : World σ)

def World.setErrnoAct (e : ℤ) : Prog σ Unit := modify (w.setErrno e)

/-- The loop of `ip_send_fragments`. -/
def sendLoop (handle : ℤ) (dstMac : MacAddr) (ipHdr : IpHdr) : ℕ → Buf → ℕ → ℕ → ℤ → Prog σ ℤ
  | 0, _, _, _, _ => stuck
  | fuel + 1, b, bytes, offset, retval => do
    let plen := nextFragmentSize bytes (ipHdrHlen ipHdr) etherDataLen
    let b := fragmentPacket b ipHdr plen (bytes - plen) offset
    let eret ← w.etherSend handle dstMac etherProtoIpv4 b
      (fragmentHdr ipHdr plen (bytes - plen) offset).ipLen.toNat
    if eret < 0 then return eret
    else if bytes - plen > 0 then
      sendLoop handle dstMac ipHdr fuel b (bytes - plen) (offset + plen) (retval + eret)
    else return retval + eret

/-- `ip_send_fragments`. -/
def ipSendFragments (handle : ℤ) (dstMac : MacAddr) (b : Buf) (bsize : ℕ) : Prog σ ℤ :=
  let ipHdr := ipNtoh (IpHdr.load b)
  let bytes := bsize - ipHdrHlen ipHdr
  sendLoop w handle dstMac ipHdr (bytes + 1) b bytes 0 0

/-- `ip_send` once the address of the receiver is known. A packet of `2 ^ 31` bytes does not fit on the
stack. -/
def ipSendTo (route : IpRoute) (dstMac : MacAddr) (dst : InAddr) (proto : UInt8) (buf : Buf)
    (bsize : ℕ) : Prog σ ℤ := do
  if bsize ≥ 2 ^ 31 then stuck
  else
    let s ← get
    let packetSize := ipHdrSize + bsize
    let packet := sendPacket (sendHdr route dst proto (w.ipGlobalId s).1 packetSize) buf bsize
    modify fun s => (w.ipGlobalId s).2
    if bsize ≤ etherDataLen then
      w.etherSend route.rIfaceHandle dstMac etherProtoIpv4 packet packetSize
    else
      let retval ← ipSendFragments w route.rIfaceHandle dstMac packet packetSize
      if retval < 0 then
        w.setErrnoAct (-retval)
        return -1
      else return retval

/-- The queue and the rest of the program. -/
structure St (σ : Type) where
  q : Queue
  rest : σ

/-- A function of the rest of the program: it cannot write the static variables of `ip_defer.c`. -/
def outer {α : Type} (x : Prog σ α) : Prog (St σ) α := fun s =>
  ((x s.rest).1, { s with rest := (x s.rest).2 })

/-- `ip_defer_push`. -/
def ipDeferPush (dst : InAddr) (proto : UInt8) (buf : Buf) (bsize : ℕ) : Prog (St σ) ℤ := do
  let s ← get
  let (retval, q) := s.q.ipDeferPush dst proto buf bsize
  modify fun s => { s with q := q }
  return retval

/-- `ip_send` when the address of the receiver is not known. -/
def ipSendLater (dst : InAddr) (proto : UInt8) (buf : Buf) (bsize : ℕ) : Prog (St σ) ℤ := do
  let s ← get
  if w.errno s.rest = EHOSTUNREACH then
    let retval ← ipDeferPush dst proto buf bsize
    if retval = 0 ∨ retval = -EALREADY then return 0
    else
      outer (w.setErrnoAct (-retval))
      return -1
  else return 0

/-- `ip_send`. -/
def ipSend (dst : InAddr) (proto : UInt8) (buf : Buf) (bsize : ℕ) : Prog (St σ) ℤ := do
  match ← outer (w.ipRouteFindByNetwork dst) with
  | none =>
    outer (w.setErrnoAct EHOSTUNREACH)
    return -1
  | some route =>
    match ← outer (w.arpCacheGetHaddr route.rIface dst) with
    | none => ipSendLater w dst proto buf bsize
    | some dstMac => outer (ipSendTo w route dstMac dst proto buf bsize)

/-! ### `ip_defer_handler` -/

/-- How a turn of the loop ends. -/
inductive Turn
  | ret
  | again
  deriving DecidableEq

def modifyQueue (f : Queue → Queue) : Prog (St σ) Unit := modify fun s => { s with q := f s.q }

/-- One turn of `while (1)`. -/
def turn : Prog (St σ) Turn := do
  let s ← get
  match s.q.ipDeferPeek with
  | none => return .ret
  | some i =>
    let ipd := s.q.slot i
    modifyQueue fun q => q.countTry i
    if ipd.tries > 3 then
      modifyQueue Queue.ipDeferDrop
      return .again
    else
      let retval ← ipSend w ipd.dst ipd.proto ipd.buf ipd.bufSize
      let s ← get
      if retval = -1 ∧ w.errno s.rest = EHOSTUNREACH then
        modifyQueue fun q => q.countTry i
        return .ret
      else
        modifyQueue Queue.ipDeferDrop
        return .again

/-- The loop, with a bound on the turns: the number of turns, whether it returned (`none` if a call in
the last turn does not), and the state. Without a result there were more turns. -/
def loop : ℕ → St σ → Option (ℕ × Option Unit × St σ)
  | 0, _ => none
  | fuel + 1, s =>
    match turn w s with
    | (some .again, t) => (loop fuel t).map fun r => (r.1 + 1, r.2)
    | (some .ret, t) => some (1, some (), t)
    | (none, t) => some (1, none, t)

/-- `ip_defer_handler`. -/
def handler (fuel : ℕ) (s : St σ) : Option (ℕ × Option Unit × St σ) :=
  loop w fuel { s with q := s.q.inhibit }

/-- The states at the head of the loop, by the number of turns before. -/
inductive Head (s : St σ) : ℕ → St σ → Prop
  | start : Head s 0 s
  | again {k : ℕ} {t : St σ} (h : Head s k t) (hturn : (turn w t).1 = some .again) :
      Head s (k + 1) (turn w t).2

/-- **The queues of all runs.** -/
inductive Reachable : Queue → Prop
  | init : Reachable Queue.init
  | push {q : Queue} (dst : InAddr) (proto : UInt8) (buf : Buf) (bsize : ℕ) (h : Reachable q) :
      Reachable (q.ipDeferPush dst proto buf bsize).2
  | handler {q : Queue} {σ : Type} (w : World σ) (x : σ) {fuel n : ℕ} {r : Option Unit} {t : St σ}
      (h : Reachable q) (hrun : handler w fuel ⟨q, x⟩ = some (n, r, t)) : Reachable t.q

/-- Every call of `ip_send` to the rest of the program returns. -/
structure World.Returns (w : World σ) : Prop where
  route : ∀ dst, Total (w.ipRouteFindByNetwork dst)
  arp : ∀ iface dst, Total (w.arpCacheGetHaddr iface dst)
  ether : ∀ handle dst proto buf bsize, Total (w.etherSend handle dst proto buf bsize)

variable {w} {q : Queue} {s t : St σ} {fuel : ℕ}

/-! ### No push while the handler runs -/

/-- While pushes are inhibited, the queue stays as it is. -/
def Kept (s t : St σ) : Prop := s.q.deferInhibit = true → t.q = s.q

theorem Kept.refl (s : St σ) : Kept s s := fun _ => rfl

theorem Kept.trans {s t u : St σ} (h : Kept s t) (h' : Kept t u) : Kept s u := by
  intro hs
  have ht := h hs
  rw [← ht]
  exact h' (by rw [ht, hs])

theorem outer_kept {α : Type} (x : Prog σ α) : Steps Kept (outer x) := fun _ _ => rfl

theorem push_inhibited (h : q.deferInhibit = true) (dst : InAddr) (proto : UInt8) (buf : Buf)
    (bsize : ℕ) : q.ipDeferPush dst proto buf bsize = (-EALREADY, q) := if_pos h

theorem ipDeferPush_kept (dst : InAddr) (proto : UInt8) (buf : Buf) (bsize : ℕ) :
    Steps (Kept (σ := σ)) (ipDeferPush dst proto buf bsize) := by
  intro s hs
  have hq := push_inhibited hs dst proto buf bsize
  show (s.q.ipDeferPush dst proto buf bsize).2 = s.q
  rw [hq]

/-- **`ip_send` adds nothing to the queue,** whatever it calls. -/
theorem ipSend_kept (w : World σ) (dst : InAddr) (proto : UInt8) (buf : Buf) (bsize : ℕ) :
    Steps Kept (ipSend w dst proto buf bsize) := by
  unfold ipSend
  refine .bind .trans (outer_kept _) fun route => ?_
  cases route with
  | none => exact .bind .trans (outer_kept _) fun _ => .pure .refl _
  | some route =>
    refine .bind .trans (outer_kept _) fun dstMac => ?_
    cases dstMac with
    | some dstMac => exact outer_kept _
    | none =>
      refine .bind .trans (.get .refl) fun s => .ite (fun _ => ?_) fun _ => .pure .refl _
      refine .bind .trans (ipDeferPush_kept _ _ _ _) fun retval => ?_
      exact .ite (fun _ => .pure .refl _) fun _ => .bind .trans (outer_kept _) fun _ => .pure .refl _

/-! ### One turn -/

/-- The indices are inside of the array, and every packet fits on the stack. -/
structure Wf (q : Queue) : Prop where
  rd : q.qRd < xstackIpDeferMax
  wr : q.qWr < xstackIpDeferMax
  sizes : ∀ i, (q.slot i).bufSize < 2 ^ 31

theorem wf_init : Wf Queue.init := ⟨by decide, by decide, fun _ => Nat.two_pow_pos 31⟩

theorem Wf.countTry (h : Wf q) (i : ℕ) : Wf (q.countTry i) := by
  refine ⟨h.rd, h.wr, fun j => ?_⟩
  unfold Queue.countTry
  dsimp only
  by_cases hj : j = i
  · rw [hj, Function.update_self]
    exact h.sizes i
  · rw [Function.update_of_ne hj]
    exact h.sizes j

theorem Wf.inhibit (h : Wf q) : Wf q.inhibit := ⟨h.rd, h.wr, h.sizes⟩

theorem Wf.push (h : Wf q) (dst : InAddr) (proto : UInt8) (buf : Buf) (bsize : ℕ) :
    Wf (q.ipDeferPush dst proto buf bsize).2 := by
  unfold Queue.ipDeferPush
  dsimp only
  split_ifs
  · exact h
  · exact h
  · exact h
  · refine ⟨h.rd, Nat.mod_lt _ (by decide), fun j => ?_⟩
    dsimp only
    by_cases hj : j = q.qWr
    · rw [hj, Function.update_self]
      exact h.sizes q.qWr
    · rw [Function.update_of_ne hj]
      exact h.sizes j

theorem drop_eq (h : q.qRd ≠ q.qWr) :
    q.ipDeferDrop = { q with qRd := (q.qRd + 1) % xstackIpDeferMax } := if_neg h

/-- The measure: dropping a packet takes one off. -/
theorem entries_drop (h : Wf q) (hne : q.qRd ≠ q.qWr) : q.ipDeferDrop.entries + 1 = q.entries := by
  have hrd : q.qRd < 20 := h.rd
  have hwr : q.qWr < 20 := h.wr
  rw [drop_eq hne]
  show (q.qWr + 20 - (q.qRd + 1) % 20) % 20 + 1 = (q.qWr + 20 - q.qRd) % 20
  omega

/-- What a turn leaves. A turn that goes on has taken one packet off, any other none. -/
structure TurnSpec (q : Queue) (r : Option Turn) (q' : Queue) : Prop where
  wf : Wf q'
  inhibit : q'.deferInhibit = true
  wr : q'.qWr = q.qWr
  again : r = some .again → q'.entries + 1 = q.entries
  stop : r ≠ some .again → q'.qRd = q.qRd

theorem Wf.turnSpec_stop {r : Option Turn} {q' : Queue} (h : Wf q') (hi : q'.deferInhibit = true)
    (hr : r ≠ some .again) (hrd : q'.qRd = q.qRd) (hwr : q'.qWr = q.qWr) : TurnSpec q r q' :=
  ⟨h, hi, hwr, fun hagain => absurd hagain hr, fun _ => hrd⟩

theorem Wf.turnSpec_drop {q' : Queue} (h : Wf q') (hi : q'.deferInhibit = true)
    (hne : q'.qRd ≠ q'.qWr) (hrd : q'.qRd = q.qRd) (hwr : q'.qWr = q.qWr) :
    TurnSpec q (some .again) q'.ipDeferDrop := by
  have hentries : q'.entries = q.entries := by
    unfold Queue.entries
    rw [hrd, hwr]
  have hdrop := drop_eq hne
  refine ⟨?_, by rw [hdrop, hi], by rw [hdrop, hwr], fun _ => ?_, fun hr => absurd rfl hr⟩
  · rw [hdrop]
    exact ⟨Nat.mod_lt _ (by decide), h.wr, h.sizes⟩
  · rw [entries_drop h hne, hentries]

/-- **A turn of the loop.** -/
theorem turn_spec (h : Wf s.q) (hi : s.q.deferInhibit = true) :
    TurnSpec s.q (turn w s).1 (turn w s).2.q := by
  unfold turn
  rw [get_bind]
  by_cases hempty : s.q.qRd = s.q.qWr
  · have hpeek : s.q.ipDeferPeek = none := if_pos hempty
    rw [hpeek]
    exact h.turnSpec_stop hi (by simp) rfl rfl
  · have hpeek : s.q.ipDeferPeek = some s.q.qRd := if_neg hempty
    rw [hpeek]
    dsimp only
    rw [modifyQueue, modify_bind]
    have hcount := h.countTry s.q.qRd
    split_ifs with htries
    · exact hcount.turnSpec_drop hi hempty rfl rfl
    · set ipd := s.q.slot s.q.qRd
      set u : St σ := { s with q := s.q.countTry s.q.qRd } with hu
      have hkept := ipSend_kept w ipd.dst ipd.proto ipd.buf ipd.bufSize u hi
      rcases hsend : ipSend w ipd.dst ipd.proto ipd.buf ipd.bufSize u with ⟨_ | retval, v⟩
      · rw [hsend] at hkept
        rw [bind_of_none hsend]
        dsimp only at hkept ⊢
        rw [hkept]
        exact hcount.turnSpec_stop hi (by simp) rfl rfl
      · rw [hsend] at hkept
        rw [bind_of_some hsend, get_bind]
        dsimp only at hkept
        split_ifs
        · show TurnSpec s.q (some .ret) (v.q.countTry s.q.qRd)
          rw [hkept]
          exact (hcount.countTry s.q.qRd).turnSpec_stop hi (by simp) rfl rfl
        · show TurnSpec s.q (some .again) v.q.ipDeferDrop
          rw [hkept]
          exact hcount.turnSpec_drop hi hempty rfl rfl

/-! ### `ip_send` returns -/

theorem outer_total {α : Type} {x : Prog σ α} (hx : Total x) : Total (outer x) := fun s => hx s.rest

/-- A fragment takes something off, so the fragments end. -/
theorem nextFragmentSize_pos {bytes hlen : ℕ} (hb : 0 < bytes) (hlen60 : hlen ≤ 60) :
    0 < nextFragmentSize bytes hlen etherDataLen := by
  have hdata : etherDataLen = 1500 := rfl
  unfold nextFragmentSize ipOffRound
  split_ifs
  · exact hb
  · omega

theorem sendLoop_total (hw : w.Returns) (handle : ℤ) (dstMac : MacAddr) (ipHdr : IpHdr) :
    ∀ (fuel : ℕ) (b : Buf) (bytes offset : ℕ) (retval : ℤ), bytes < fuel →
      Total (sendLoop w handle dstMac ipHdr fuel b bytes offset retval)
  | 0, _, _, _, _, h => absurd h (Nat.not_lt_zero _)
  | fuel + 1, b, bytes, offset, retval, h => by
    unfold sendLoop
    refine .bind (hw.ether _ _ _ _ _) fun eret => .ite (fun _ => .pure _) fun _ => ?_
    refine .ite (fun hrest => ?_) fun _ => .pure _
    have hpos := nextFragmentSize_pos (show 0 < bytes by omega) (ipHdrHlen_le ipHdr)
    exact sendLoop_total hw handle dstMac ipHdr fuel _ _ _ _ (by omega)

theorem ipSendTo_total (hw : w.Returns) (route : IpRoute) (dstMac : MacAddr) (dst : InAddr)
    (proto : UInt8) (buf : Buf) {bsize : ℕ} (hb : bsize < 2 ^ 31) :
    Total (ipSendTo w route dstMac dst proto buf bsize) := by
  unfold ipSendTo
  rw [if_neg (by omega)]
  refine .bind .get fun s => .bind (.modify _) fun _ => .ite (fun _ => hw.ether _ _ _ _ _) fun _ => ?_
  refine .bind (sendLoop_total hw _ _ _ _ _ _ _ _ (Nat.lt_succ_self _)) fun retval => ?_
  exact .ite (fun _ => .bind (.modify _) fun _ => .pure _) fun _ => .pure _

theorem ipDeferPush_total (dst : InAddr) (proto : UInt8) (buf : Buf) (bsize : ℕ) :
    Total (ipDeferPush (σ := σ) dst proto buf bsize) := fun _ => Option.some_ne_none _

theorem ipSend_total (hw : w.Returns) (dst : InAddr) (proto : UInt8) (buf : Buf) {bsize : ℕ}
    (hb : bsize < 2 ^ 31) : Total (ipSend w dst proto buf bsize) := by
  unfold ipSend
  refine .bind (outer_total (hw.route dst)) fun route => ?_
  cases route with
  | none => exact .bind (outer_total (.modify _)) fun _ => .pure _
  | some route =>
    refine .bind (outer_total (hw.arp _ _)) fun dstMac => ?_
    cases dstMac with
    | some dstMac => exact outer_total (ipSendTo_total hw _ _ _ _ _ hb)
    | none =>
      refine .bind .get fun s => .ite (fun _ => ?_) fun _ => .pure _
      refine .bind (ipDeferPush_total _ _ _ _) fun retval => .ite (fun _ => .pure _) fun _ => ?_
      exact .bind (outer_total (.modify _)) fun _ => .pure _

theorem turn_returns (hw : w.Returns) (h : Wf s.q) : (turn w s).1 ≠ none := by
  unfold turn
  rw [get_bind]
  rcases s.q.ipDeferPeek with _ | i
  · exact Option.some_ne_none _
  · dsimp only
    rw [modifyQueue, modify_bind]
    refine Total.ite (fun _ => .bind (.modify _) fun _ => .pure _) (fun _ => ?_) _
    refine .bind (ipSend_total hw _ _ _ (h.sizes i)) fun retval => .bind .get fun t => ?_
    refine .ite (fun _ => ?_) fun _ => ?_
    · exact .bind (.modify _) fun _ => .pure _
    · exact .bind (.modify _) fun _ => .pure _

/-! ### The loop -/

/-- What holds at the head of the loop. -/
theorem head_spec (h : Wf s.q) (hi : s.q.deferInhibit = true) {k : ℕ} (hk : Head w s k t) :
    Wf t.q ∧ t.q.deferInhibit = true ∧ k + t.q.entries = s.q.entries := by
  induction hk with
  | start => exact ⟨h, hi, Nat.zero_add _⟩
  | again _ hturn ih =>
    obtain ⟨hwf, hin, hsum⟩ := ih
    have hspec := turn_spec (w := w) hwf hin
    have hless := hspec.again hturn
    exact ⟨hspec.wf, hspec.inhibit, by omega⟩

/-- With one turn for each packet and one more, the loop has a result. -/
theorem loop_ends (h : Wf s.q) (hi : s.q.deferInhibit = true) (hfuel : s.q.entries < fuel) :
    ∃ n r t, loop w fuel s = some (n, r, t) ∧ n ≤ s.q.entries + 1 ∧ (w.Returns → r = some ()) := by
  induction fuel generalizing s with
  | zero => exact absurd hfuel (Nat.not_lt_zero _)
  | succ fuel ih =>
    have hspec := turn_spec (w := w) h hi
    have hret := fun hw : w.Returns => turn_returns hw h
    unfold loop
    rcases hturn : turn w s with ⟨_ | _ | _, u⟩ <;> rw [hturn] at hspec hret <;> dsimp only
    · exact ⟨1, none, u, rfl, by omega, fun hw => absurd rfl (hret hw)⟩
    · exact ⟨1, some (), u, rfl, by omega, fun _ => rfl⟩
    · have hless := hspec.again rfl
      obtain ⟨n, r, t, hloop, hn, hr⟩ := ih hspec.wf hspec.inhibit (by omega)
      exact ⟨n + 1, r, t, by rw [hloop]; rfl, by omega, hr⟩

theorem loop_wf {n : ℕ} {r : Option Unit} (h : Wf s.q) (hi : s.q.deferInhibit = true)
    (hloop : loop w fuel s = some (n, r, t)) : Wf t.q := by
  induction fuel generalizing s n with
  | zero => cases hloop
  | succ fuel ih =>
    have hspec := turn_spec (w := w) h hi
    unfold loop at hloop
    rcases hturn : turn w s with ⟨_ | _ | _, u⟩ <;> rw [hturn] at hspec hloop <;> dsimp only at hloop
    · obtain ⟨-, -, rfl⟩ : 1 = n ∧ none = r ∧ u = t := by simpa using hloop
      exact hspec.wf
    · obtain ⟨-, -, rfl⟩ : 1 = n ∧ some () = r ∧ u = t := by simpa using hloop
      exact hspec.wf
    · obtain ⟨⟨n', r', t'⟩, hrec, heq⟩ := Option.map_eq_some_iff.mp hloop
      obtain ⟨-, rfl, rfl⟩ : n' + 1 = n ∧ r' = r ∧ t' = t := by simpa using heq
      exact ih hspec.wf hspec.inhibit hrec

theorem Reachable.wf (h : Reachable q) : Wf q := by
  induction h with
  | init => exact wf_init
  | push dst proto buf bsize _ ih => exact ih.push dst proto buf bsize
  | handler w x _ hrun ih => exact loop_wf ih.inhibit rfl hrun

/-- **The loop of `ip_defer_handler` ends,** from every reachable queue and whatever routing, ARP and
`ether_send` do: at the head of every turn the indices are inside of the array, and the turn returns or
takes one packet off and adds none, so there are at most as many turns as packets and one more. If the
calls to the rest of the program return, so does the handler. -/
theorem handler_ends {q : Queue} (hq : Reachable q) {σ : Type} (w : World σ) (x : σ) :
    (q.qRd < xstackIpDeferMax ∧ q.qWr < xstackIpDeferMax) ∧
    (∀ k t, Head w ⟨q.inhibit, x⟩ k t → k + t.q.entries = q.entries ∧
      (t.q.qRd < xstackIpDeferMax ∧ t.q.qWr < xstackIpDeferMax) ∧
      TurnSpec t.q (turn w t).1 (turn w t).2.q) ∧
    ∀ fuel, q.entries < fuel → ∃ n r t, handler w fuel ⟨q, x⟩ = some (n, r, t) ∧
      n ≤ q.entries + 1 ∧ (t.q.qRd < xstackIpDeferMax ∧ t.q.qWr < xstackIpDeferMax) ∧
      (w.Returns → r = some ()) := by
  have hwf := hq.wf
  refine ⟨⟨hwf.rd, hwf.wr⟩, fun k t hk => ?_, fun fuel hfuel => ?_⟩
  · obtain ⟨h1, h2, h3⟩ := head_spec hwf.inhibit rfl hk
    exact ⟨h3, ⟨h1.rd, h1.wr⟩, turn_spec h1 h2⟩
  · obtain ⟨n, r, t, hloop, hn, hr⟩ := loop_ends (w := w) (s := ⟨q.inhibit, x⟩) hwf.inhibit rfl hfuel
    have ht := loop_wf (w := w) (s := ⟨q.inhibit, x⟩) hwf.inhibit rfl hloop
    exact ⟨n, r, t, hloop, hn, ⟨ht.rd, ht.wr⟩, hr⟩

/-- A world without routes. -/
def noRoute : World Unit where
  errno _ := 0
  setErrno _ s := s
  ipGlobalId s := (0, s)
  ipRouteFindByNetwork _ := pure none
  arpCacheGetHaddr _ _ := pure none
  etherSend _ _ _ _ _ := pure 0

/-- One packet in the queue: at most two turns. -/
theorem handler_ends_one : ∃ q, Reachable q ∧ q.entries = 1 ∧
    ∃ n r t, handler noRoute 2 ⟨q, ()⟩ = some (n, r, t) ∧ n ≤ 2 := by
  have hq : Reachable (Queue.init.ipDeferPush 7 17 (fun _ => 0) 4).2 := .push 7 17 _ 4 .init
  have hone : (Queue.init.ipDeferPush 7 17 (fun _ => 0) 4).2.entries = 1 := by decide
  obtain ⟨n, r, t, hrun, hn, -, -⟩ := (handler_ends hq noRoute ()).2.2 2 (by rw [hone]; decide)
  exact ⟨_, hq, hone, n, r, t, hrun, by rw [hone] at hn; exact hn⟩

end Xstack.Net.DeferLoop
