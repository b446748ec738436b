import Xstack.Net.DeferLoop

/-! # The handler of the stack is the loop

`Net/Send` has the handler with the whole stack as its state, indices that cannot leave the ring, and a
bound on the turns of its loop. Run on the queue and the stack side by side, it does what
`Net/DeferLoop` says (`sims_loop`), so the bound is never reached and the loop returns or a call does
not (`ipDeferHandler_runs`).

* `Blind`: a program that neither reads nor writes the queue. What `ip_send` calls is blind.
* `Sims`: two programs that take related states to related states, with the same result. -/

namespace Xstack.Net.DeferSim

open Xstack.Config Xstack.Lib.Bytes Xstack.Lib.Program Xstack.Ether Xstack.Ip.Header
open Xstack.Ip.Route Xstack.Net.State Xstack.Net.DeferLoop

/-- What `ip_send` calls, as the stack has it. -/
def stackWorld (env : Env) : World Stack where
  errno s := s.errno
  setErrno e s := { s with errno := e }
  ipGlobalId s := (s.ipGlobalId, { s with ipGlobalId := s.ipGlobalId + 1 })
  ipRouteFindByNetwork := State.ipRouteFindByNetwork
  arpCacheGetHaddr := State.arpCacheGetHaddr env
  etherSend := State.etherSend env

/-! ### Programs that do not see the queue -/

/-- The stack with another queue. -/
def withQueue (s : Stack) (defer : DeferQueue) (log : List DeferEvent) : Stack :=
  { s with defer := defer, deferLog := log }

/-- The program neither reads nor writes the queue. -/
def Blind {α : Type} (x : Act α) : Prop :=
  ∀ s defer log, x (withQueue s defer log) = ((x s).1, withQueue (x s).2 defer log)

variable {α β : Type} {env : Env}

theorem Blind.pure (a : α) : Blind (pure a : Act α) := fun _ _ _ => rfl

theorem Blind.stuck : Blind (stuck : Act α) := fun _ _ _ => rfl

theorem Blind.bind {x : Act α} {f : α → Act β} (hx : Blind x) (hf : ∀ a, Blind (f a)) :
    Blind (x >>= f) := by
  intro s defer log
  rw [bind_apply, bind_apply, hx]
  rcases x s with ⟨_ | a, t⟩
  · rfl
  · exact hf a t defer log

theorem Blind.ite {p : Prop} [Decidable p] {x y : Act α} (hx : p → Blind x) (hy : ¬ p → Blind y) :
    Blind (if p then x else y) := by
  split_ifs with hp
  · exact hx hp
  · exact hy hp

theorem Blind.modify {f : Stack → Stack}
    (hf : ∀ s defer log, f (withQueue s defer log) = withQueue (f s) defer log) :
    Blind (modify f) := fun s defer log => congrArg _ (hf s defer log)

/-- A program that reads the rest of the stack. -/
theorem Blind.get_bind {f : Stack → Act α} (heq : ∀ s defer log, f (withQueue s defer log) = f s)
    (hf : ∀ s, Blind (f s)) : Blind (get >>= f) := by
  intro s defer log
  show f (withQueue s defer log) (withQueue s defer log) = _
  rw [heq]
  exact hf s s defer log

theorem Blind.ofOption (a : Option α) : Blind (ofOption a : Act α) := by
  cases a with
  | none => exact .stuck
  | some a => exact .pure a

theorem setErrno_blind (e : ℤ) : Blind (setErrno e) := .modify fun _ _ _ => rfl

theorem etherSend_blind (handle : ℤ) (dst : MacAddr) (proto : UInt16) (buf : Buf) (bsize : ℕ) :
    Blind (State.etherSend env handle dst proto buf bsize) := by
  unfold State.etherSend
  refine .ite (fun _ => .pure _) fun _ => .ite (fun _ => ?_) fun _ => .ite (fun _ => .stuck) fun _ => ?_
  · exact .bind (setErrno_blind _) fun _ => .pure _
  · refine .get_bind (fun _ _ _ => rfl) fun s => .bind (.modify fun _ _ _ => rfl) fun _ => ?_
    dsimp only
    exact .ite (fun _ => .bind (setErrno_blind _) fun _ => .pure _) fun _ => .pure _

theorem etherHandle2addr_blind (handle : ℤ) : Blind (etherHandle2addr handle) := by
  unfold etherHandle2addr
  refine .ite (fun _ => ?_) fun _ => .ite (fun _ => .stuck) fun _ => ?_
  · exact .bind (setErrno_blind _) fun _ => .pure _
  · exact .get_bind (fun _ _ _ => rfl) fun _ => .pure _

theorem arpRequest_blind (handle : ℤ) (spa tpa : InAddr) : Blind (arpRequest env handle spa tpa) :=
  .bind (.bind (etherHandle2addr_blind handle) fun _ => .pure _) fun _ =>
    .bind (etherSend_blind _ _ _ _ _) fun _ => .pure _

theorem ipRouteFindByIface_blind (addr : InAddr) : Blind (ipRouteFindByIface addr) := by
  unfold ipRouteFindByIface
  refine .get_bind (fun _ _ _ => rfl) fun _ => .bind (.ofOption _) fun _ => ?_
  dsimp only
  exact .ite (fun _ => .bind (setErrno_blind _) fun _ => .pure _) fun _ => .pure _

theorem ipRouteFindByNetwork_blind (addr : InAddr) : Blind (State.ipRouteFindByNetwork addr) := by
  unfold State.ipRouteFindByNetwork
  refine .get_bind (fun _ _ _ => rfl) fun _ => .bind (.ofOption _) fun _ => ?_
  dsimp only
  exact .ite (fun _ => .bind (setErrno_blind _) fun _ => .pure _) fun _ => .pure _

theorem arpCacheGetHaddr_blind (iface ipAddr : InAddr) :
    Blind (State.arpCacheGetHaddr env iface ipAddr) := by
  unfold State.arpCacheGetHaddr
  refine .get_bind (fun _ _ _ => rfl) fun s => .bind (.ofOption _) fun haddr => ?_
  cases haddr with
  | some haddr => exact .pure _
  | none =>
    refine .bind (ipRouteFindByIface_blind iface) fun route => ?_
    cases route with
    | none => exact .pure _
    | some route =>
      refine .bind (arpRequest_blind _ _ _) fun retval => ?_
      dsimp only
      exact .ite (fun _ => .bind (setErrno_blind _) fun _ => .pure _) fun _ => .pure _

/-! ### The end of `ip_send` -/

theorem sendLoop_eq (handle : ℤ) (dstMac : MacAddr) (ipHdr : IpHdr) :
    ∀ (fuel : ℕ) (b : Buf) (bytes offset : ℕ) (retval : ℤ),
      Send.sendLoop env handle dstMac ipHdr fuel b bytes offset retval =
        sendLoop (stackWorld env) handle dstMac ipHdr fuel b bytes offset retval
  | 0, _, _, _, _ => rfl
  | fuel + 1, b, bytes, offset, retval => by
    unfold Send.sendLoop sendLoop
    simp only [sendLoop_eq handle dstMac ipHdr fuel]
    rfl

theorem sendLoop_blind (handle : ℤ) (dstMac : MacAddr) (ipHdr : IpHdr) :
    ∀ (fuel : ℕ) (b : Buf) (bytes offset : ℕ) (retval : ℤ),
      Blind (sendLoop (stackWorld env) handle dstMac ipHdr fuel b bytes offset retval)
  | 0, _, _, _, _ => .stuck
  | fuel + 1, b, bytes, offset, retval => by
    unfold sendLoop
    refine .bind (etherSend_blind _ _ _ _ _) fun eret => .ite (fun _ => .pure _) fun _ => ?_
    exact .ite (fun _ => sendLoop_blind handle dstMac ipHdr fuel _ _ _ _) fun _ => .pure _

variable {route : IpRoute} {dstMac : MacAddr} {dst : InAddr} {proto : UInt8} {buf : Buf} {bsize : ℕ}

theorem ipSendTo_eq : Send.ipSendTo env route dstMac dst proto buf bsize =
    ipSendTo (stackWorld env) route dstMac dst proto buf bsize := by
  unfold Send.ipSendTo ipSendTo Send.ipSendFragments ipSendFragments
  simp only [sendLoop_eq]
  rfl

theorem ipSendTo_blind : Blind (ipSendTo (stackWorld env) route dstMac dst proto buf bsize) := by
  unfold ipSendTo
  refine .ite (fun _ => .stuck) fun _ => .get_bind (fun _ _ _ => rfl) fun s => ?_
  refine .bind (.modify fun _ _ _ => rfl) fun _ => .ite (fun _ => etherSend_blind _ _ _ _ _) fun _ => ?_
  refine .bind (sendLoop_blind _ _ _ _ _ _ _ _) fun retval => ?_
  exact .ite (fun _ => .bind (.modify fun _ _ _ => rfl) fun _ => .pure _) fun _ => .pure _

/-! ### The two queues -/

/-- The same ring, with numbers for indices. -/
structure SameQueue (q : Queue) (d : DeferQueue) : Prop where
  slot : ∀ i : Fin xstackIpDeferMax, q.slot i = d.slot i
  rd : q.qRd = d.qRd
  wr : q.qWr = d.qWr
  inhibit : q.deferInhibit = d.deferInhibit

variable {q : Queue} {d : DeferQueue} {s : Stack} {t : St Stack}

theorem SameQueue.update {slot : IpDefer} (h : SameQueue q d) (i : Fin xstackIpDeferMax) :
    ∀ j : Fin xstackIpDeferMax,
      Function.update q.slot i slot j = Function.update d.slot i slot j := by
  intro j
  by_cases hj : j = i
  · rw [hj, Function.update_self, Function.update_self]
  · rw [Function.update_of_ne hj, Function.update_of_ne (fun hv => hj (Fin.ext hv))]
    exact h.slot j

theorem SameQueue.push (h : SameQueue q d) (dst : InAddr) (proto : UInt8) (buf : Buf) (bsize : ℕ) :
    (q.ipDeferPush dst proto buf bsize).1 = (Send.DeferQueue.ipDeferPush d dst proto buf bsize).1 ∧
      SameQueue (q.ipDeferPush dst proto buf bsize).2
        (Send.DeferQueue.ipDeferPush d dst proto buf bsize).2 := by
  have hnext : (q.qWr + 1) % xstackIpDeferMax = (Send.nextSlot d.qWr : ℕ) := by
    rw [h.wr, Send.val_nextSlot]
  have hfull : (q.qWr + 1) % xstackIpDeferMax = q.qRd ↔ Send.nextSlot d.qWr = d.qRd := by
    rw [hnext, h.rd, Fin.ext_iff]
  unfold Queue.ipDeferPush Send.DeferQueue.ipDeferPush
  dsimp only
  rw [h.inhibit, if_congr hfull rfl rfl]
  split_ifs
  · exact ⟨rfl, h⟩
  · exact ⟨rfl, h⟩
  · exact ⟨rfl, h⟩
  · refine ⟨rfl, ⟨?_, h.rd, hnext, rfl⟩⟩
    dsimp only
    rw [h.wr, h.slot d.qWr]
    exact h.update d.qWr

theorem SameQueue.countTry (h : SameQueue q d) :
    SameQueue (q.countTry d.qRd) (Send.DeferQueue.countTry d) := by
  refine ⟨?_, h.rd, h.wr, h.inhibit⟩
  unfold Queue.countTry
  rw [h.slot d.qRd]
  exact h.update d.qRd

theorem SameQueue.empty_iff (h : SameQueue q d) : q.qRd = q.qWr ↔ d.qRd = d.qWr := by
  rw [h.rd, h.wr, Fin.ext_iff]

theorem SameQueue.drop (h : SameQueue q d) (hne : d.qRd ≠ d.qWr) :
    SameQueue q.ipDeferDrop (Send.DeferQueue.drop d) := by
  rw [drop_eq fun he => hne (h.empty_iff.mp he)]
  refine ⟨h.slot, ?_, h.wr, h.inhibit⟩
  show (q.qRd + 1) % xstackIpDeferMax = (Send.nextSlot d.qRd : ℕ)
  rw [h.rd, Send.val_nextSlot]

/-! ### Side by side -/

/-- The queue is that of the stack, and the rest is the rest of the stack. -/
structure Sim (t : St Stack) (s : Stack) : Prop where
  queue : SameQueue t.q s.defer
  rest : ∃ defer log, t.rest = withQueue s defer log

/-- From related states the programs go to related states, with the same result. -/
def Sims (x : Prog (St Stack) α) (y : Act α) : Prop :=
  ∀ t s, Sim t s → (x t).1 = (y s).1 ∧ Sim (x t).2 (y s).2

theorem Sims.pure (a : α) : Sims (pure a : Prog (St Stack) α) (pure a) := fun _ _ h => ⟨rfl, h⟩

theorem Sims.bind {x : Prog (St Stack) α} {y : Act α} {f : α → Prog (St Stack) β} {g : α → Act β}
    (h : Sims x y) (hfg : ∀ a, Sims (f a) (g a)) : Sims (x >>= f) (y >>= g) := by
  intro t s hts
  obtain ⟨h1, h2⟩ := h t s hts
  rcases hx : x t with ⟨a, t'⟩
  rcases hy : y s with ⟨b, s'⟩
  rw [hx, hy] at h1 h2
  obtain rfl : a = b := h1
  cases a with
  | none =>
    rw [bind_of_none hx, bind_of_none hy]
    exact ⟨rfl, h2⟩
  | some a =>
    rw [bind_of_some hx, bind_of_some hy]
    exact hfg a t' s' h2

theorem Sims.ite {p : Prop} [Decidable p] {x x' : Prog (St Stack) α} {y y' : Act α}
    (h : p → Sims x y) (h' : ¬ p → Sims x' y') :
    Sims (if p then x else x') (if p then y else y') := by
  split_ifs with hp
  · exact h hp
  · exact h' hp

theorem Blind.sims {x : Act α} (h : Blind x) : Sims (outer x) x := by
  rintro ⟨q, rest⟩ s ⟨hq, defer, log, hrest⟩
  obtain rfl : rest = withQueue s defer log := hrest
  have hkeep : (x s).2 = withQueue (x s).2 s.defer s.deferLog :=
    congrArg Prod.snd (h s s.defer s.deferLog)
  have hdefer : (x s).2.defer = s.defer := by rw [hkeep, withQueue]
  refine ⟨congrArg Prod.fst (h s defer log), ?_, defer, log, congrArg Prod.snd (h s defer log)⟩
  rw [hdefer]
  exact hq

theorem ipDeferPush_sims : Sims (ipDeferPush dst proto buf bsize)
    (Send.ipDeferPush dst proto buf bsize) := by
  rintro t s ⟨hq, defer, log, hrest⟩
  obtain ⟨h1, h2⟩ := hq.push dst proto buf bsize
  refine ⟨congrArg some h1, h2, defer, log, ?_⟩
  show t.rest = _
  rw [hrest]
  rfl

theorem ipSendLater_sims : Sims (ipSendLater (stackWorld env) dst proto buf bsize)
    (Send.ipSendLater dst proto buf bsize) := by
  intro t s hts
  have herrno : (stackWorld env).errno t.rest = s.errno := by
    obtain ⟨defer, log, hrest⟩ := hts.rest
    rw [hrest]
    rfl
  unfold ipSendLater Send.ipSendLater
  rw [get_bind, get_bind, herrno]
  refine Sims.ite (fun _ => ?_) (fun _ => .pure _) t s hts
  refine .bind ipDeferPush_sims fun retval => .ite (fun _ => .pure _) fun _ => ?_
  exact .bind (setErrno_blind _).sims fun _ => .pure _

/-- **`ip_send`, side by side.** -/
theorem ipSend_sims : Sims (ipSend (stackWorld env) dst proto buf bsize)
    (Send.ipSend env dst proto buf bsize) := by
  unfold ipSend Send.ipSend
  refine .bind (ipRouteFindByNetwork_blind dst).sims fun route => ?_
  cases route with
  | none => exact .bind (setErrno_blind _).sims fun _ => .pure _
  | some route =>
    refine .bind (arpCacheGetHaddr_blind _ _).sims fun dstMac => ?_
    cases dstMac with
    | none => exact ipSendLater_sims
    | some dstMac =>
      dsimp only
      rw [ipSendTo_eq]
      exact ipSendTo_blind.sims

/-! ### The handler -/

/-- What the handler of the stack does after a turn. -/
def next (env : Env) (fuel : ℕ) : Turn → Act Unit
  | .ret => pure ()
  | .again => Send.deferLoop env fuel

/-- One turn of the handler of the stack. -/
def stackTurn (env : Env) : Act Turn := do
  let s ← get
  if s.defer.qRd = s.defer.qWr then return .ret
  else
    let ipd := s.defer.slot s.defer.qRd
    Send.countTry
    if ipd.tries > 3 then
      Send.ipDeferDrop
      return .again
    else
      let retval ← Send.sendDeferred env ipd
      let s ← get
      if retval = -1 ∧ s.errno = EHOSTUNREACH then
        Send.countTry
        return .ret
      else
        Send.ipDeferDrop
        return .again

theorem bind_ite {p : Prop} [Decidable p] {x y : Act α} (f : α → Act β) :
    (if p then x else y) >>= f = if p then x >>= f else y >>= f := by
  split_ifs <;> rfl

theorem deferLoop_eq (env : Env) (fuel : ℕ) :
    Send.deferLoop env (fuel + 1) = stackTurn env >>= next env fuel := by
  unfold Send.deferLoop stackTurn
  simp only [bind_assoc, bind_ite, bind_pure]
  rfl

theorem Sim.countTry (h : Sim t s) : Sim { t with q := t.q.countTry s.defer.qRd }
    { s with defer := Send.DeferQueue.countTry s.defer } := by
  obtain ⟨hq, defer, log, hrest⟩ := h
  exact ⟨hq.countTry, defer, log, hrest⟩

theorem Sim.drop (h : Sim t s) (hne : s.defer.qRd ≠ s.defer.qWr) :
    Sim { t with q := t.q.ipDeferDrop } (Send.ipDeferDrop s).2 := by
  obtain ⟨hq, defer, log, hrest⟩ := h
  exact ⟨hq.drop hne, defer, log, hrest⟩

theorem Sim.errno (h : Sim t s) : (stackWorld env).errno t.rest = s.errno := by
  obtain ⟨defer, log, hrest⟩ := h.rest
  rw [hrest]
  rfl

/-- The log of the calls is not in the source. -/
theorem sendDeferred_sims (ipd : IpDefer) :
    Sims (ipSend (stackWorld env) ipd.dst ipd.proto ipd.buf ipd.bufSize)
      (Send.sendDeferred env ipd) := by
  rintro t s ⟨hq, defer, log, hrest⟩
  exact ipSend_sims t _ ⟨hq, defer, log, hrest⟩

/-- **One turn, side by side,** while pushes are inhibited. -/
theorem turn_sims (h : Sim t s) (hi : t.q.deferInhibit = true) :
    (turn (stackWorld env) t).1 = (stackTurn env s).1 ∧
      Sim (turn (stackWorld env) t).2 (stackTurn env s).2 := by
  unfold turn stackTurn
  rw [get_bind, get_bind]
  by_cases hempty : s.defer.qRd = s.defer.qWr
  · have hpeek : t.q.ipDeferPeek = none := if_pos (h.queue.empty_iff.mpr hempty)
    rw [hpeek, if_pos hempty]
    exact ⟨rfl, h⟩
  · have hpeek : t.q.ipDeferPeek = some t.q.qRd := if_neg (mt h.queue.empty_iff.mp hempty)
    have hslot : t.q.slot t.q.qRd = s.defer.slot s.defer.qRd := by
      rw [h.queue.rd, h.queue.slot]
    rw [hpeek, if_neg hempty]
    dsimp only
    rw [hslot, h.queue.rd, modifyQueue, modify_bind, Send.countTry, modify_bind]
    have hcount := h.countTry
    split_ifs with htries
    · exact ⟨rfl, hcount.drop hempty⟩
    · set ipd := s.defer.slot s.defer.qRd
      have hkept := ipSend_kept (stackWorld env) ipd.dst ipd.proto ipd.buf ipd.bufSize
        { t with q := t.q.countTry s.defer.qRd } hi
      obtain ⟨hret, hsim⟩ := sendDeferred_sims ipd _ _ hcount
      rcases hx : ipSend (stackWorld env) ipd.dst ipd.proto ipd.buf ipd.bufSize
        { t with q := t.q.countTry s.defer.qRd } with ⟨retval, t'⟩
      rcases hy : Send.sendDeferred env ipd
        { s with defer := Send.DeferQueue.countTry s.defer } with ⟨retval', s'⟩
      rw [hx] at hkept
      rw [hx, hy] at hret hsim
      dsimp only at hkept hret hsim
      subst hret
      have hrd : s'.defer.qRd = s.defer.qRd :=
        Fin.ext (by rw [← hsim.queue.rd, hkept, ← h.queue.rd]; rfl)
      have hwr : s'.defer.qWr = s.defer.qWr :=
        Fin.ext (by rw [← hsim.queue.wr, hkept, ← h.queue.wr]; rfl)
      cases retval with
      | none =>
        rw [bind_of_none hx, bind_of_none hy]
        exact ⟨rfl, hsim⟩
      | some retval =>
        rw [bind_of_some hx, bind_of_some hy, get_bind, get_bind, hsim.errno]
        split_ifs
        · have hagain := hsim.countTry
          rw [hrd] at hagain
          exact ⟨rfl, hagain⟩
        · exact ⟨rfl, hsim.drop (by rw [hrd, hwr]; exact hempty)⟩

/-! ### The loop -/

/-- **The loop, side by side.** -/
theorem sims_loop {fuel n : ℕ} {r : Option Unit} {u : St Stack} (h : Sim t s) (hwf : Wf t.q)
    (hi : t.q.deferInhibit = true) (hloop : loop (stackWorld env) fuel t = some (n, r, u)) :
    (Send.deferLoop env fuel s).1 = r ∧ Sim u (Send.deferLoop env fuel s).2 := by
  induction fuel generalizing t s n with
  | zero => cases hloop
  | succ fuel ih =>
    obtain ⟨hret, hsim⟩ := turn_sims h hi
    have hspec := turn_spec (w := stackWorld env) hwf hi
    unfold loop at hloop
    rw [deferLoop_eq]
    rcases hx : turn (stackWorld env) t with ⟨a, t'⟩
    rcases hy : stackTurn env s with ⟨b, s'⟩
    rw [hx, hy] at hret hsim
    rw [hx] at hspec hloop
    dsimp only at hret hsim
    subst hret
    rcases a with _ | _ | _ <;> dsimp only at hloop
    · obtain ⟨-, rfl, rfl⟩ : 1 = n ∧ none = r ∧ t' = u := by simpa using hloop
      rw [bind_of_none hy]
      exact ⟨rfl, hsim⟩
    · obtain ⟨-, rfl, rfl⟩ : 1 = n ∧ some () = r ∧ t' = u := by simpa using hloop
      rw [bind_of_some hy]
      exact ⟨rfl, hsim⟩
    · obtain ⟨⟨n', r', u'⟩, hrec, heq⟩ := Option.map_eq_some_iff.mp hloop
      obtain ⟨-, rfl, rfl⟩ : n' + 1 = n ∧ r' = r ∧ u' = u := by simpa using heq
      rw [bind_of_some hy]
      exact ih hsim hspec.wf hspec.inhibit hrec

/-- The queue of the stack, with numbers for indices. -/
def rawQueue (d : DeferQueue) : Queue where
  slot i := d.slot (Fin.ofNat xstackIpDeferMax i)
  qRd := d.qRd
  qWr := d.qWr
  deferInhibit := d.deferInhibit

theorem rawQueue_same (d : DeferQueue) : SameQueue (rawQueue d) d := by
  refine ⟨fun i => ?_, rfl, rfl, rfl⟩
  unfold rawQueue
  dsimp only
  rw [Fin.ofNat_val_eq_self]

theorem entries_lt (q : Queue) : q.entries < xstackIpDeferMax + 1 :=
  (Nat.mod_lt _ (by decide)).trans (Nat.lt_succ_self _)

/-- **The bound on the turns is never reached.** The handler of the stack ends as the loop of
`Net/DeferLoop` does, with its result and its queue. -/
theorem ipDeferHandler_runs (env : Env) {s : Stack} (hs : ∀ i, (s.defer.slot i).bufSize < 2 ^ 31) :
    ∃ n r u, handler (stackWorld env) (xstackIpDeferMax + 1) ⟨rawQueue s.defer, s⟩ = some (n, r, u) ∧
      (Send.ipDeferHandler env s).1 = r ∧ Sim u (Send.ipDeferHandler env s).2 := by
  have hwf : Wf (rawQueue s.defer) := ⟨s.defer.qRd.isLt, s.defer.qWr.isLt, fun i => hs _⟩
  have hsame := rawQueue_same s.defer
  set t : St Stack := ⟨(rawQueue s.defer).inhibit, s⟩
  set s' : Stack := { s with defer := { s.defer with deferInhibit := true } }
  have hsim : Sim t s' := ⟨⟨hsame.slot, hsame.rd, hsame.wr, rfl⟩, s.defer, s.deferLog, rfl⟩
  obtain ⟨n, r, u, hloop, -, -⟩ :=
    loop_ends (w := stackWorld env) (s := t) hwf.inhibit rfl (entries_lt _)
  exact ⟨n, r, u, hloop, sims_loop hsim hwf.inhibit rfl hloop⟩

end Xstack.Net.DeferSim
