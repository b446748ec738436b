import Xstack.Net.Reassemble
import Xstack.Net.Unresolved
import Xstack.Udp.RoundTrip

/-! # When a deferred packet is given up

`ip_defer_handler` takes a packet off the queue after every `ip_send` that does not return -1 with
`EHOSTUNREACH`. But when the handler runs, `ip_send` to a host that is still not resolved returns 0,
since the packet cannot be deferred again. When there is no route it does return -1, but then `tries`
is counted up twice, so that the third attempt is never made.

* `Event`, `trace`: the attempts with the states they are made in, and the packets that leave.
  `handler_log`: this is what the handler does.
* `NotEarly`: what is said of a run. `Timely`: the condition on the state before the handler runs.
* `notEarly`: in a run whose steps all meet the condition no packet is given up early. -/

namespace Xstack.Net.GiveUp

open Xstack.Config Xstack.Lib.Bytes Xstack.Lib.Program Xstack.Ether Xstack.Arp.Cache
open Xstack.Ip.Header Xstack.Ip.Route
open Xstack.Net.State Xstack.Net.Send Xstack.Net.Frame Xstack.Net.Defer Xstack.Net.Unresolved

/-! ### The property -/

/-- A call of `ip_send` by the handler: the packet, and the state of the stack. -/
structure Attempt where
  ipd : IpDefer
  state : Stack

def Attempt.send (env : Env) (a : Attempt) : Option ℤ × Stack :=
  ipSend env a.ipd.dst a.ipd.proto a.ipd.buf a.ipd.bufSize a.state

/-- The call has a route and the hardware address, and gives the packet to `ether_send`. -/
def Attempt.Handed (env : Env) (a : Attempt) : Prop :=
  ∃ route mac, a.state.rib.ipRouteFindByNetwork a.ipd.dst = some (some route) ∧
    cachedHaddr a.state.arp a.ipd.dst = some (some mac) ∧
    a.send env = etherSend env route.rIfaceHandle mac etherProtoIpv4
      (sendPacket (sendHdr route a.ipd.dst a.ipd.proto a.state.ipGlobalId
        (ipHdrSize + a.ipd.bufSize)) a.ipd.buf a.ipd.bufSize) (ipHdrSize + a.ipd.bufSize)
      { a.state with ipGlobalId := a.state.ipGlobalId + 1 }

/-- The call fails, and not since the host is unreachable. -/
def Attempt.Failed (env : Env) (a : Attempt) : Prop :=
  ∃ r t, a.send env = (some r, t) ∧ r < 0 ∧ t.errno ≠ EHOSTUNREACH

/-- What the handler does with the first packet of the queue. -/
inductive Event
  | attempt (a : Attempt)
  | leave

/-- The call for the first packet of the queue, when `tries` is counted up. -/
def firstAttempt (s : Stack) : Attempt where
  ipd := s.defer.slot s.defer.qRd
  state := { s with
    defer := DeferQueue.countTry s.defer
    deferLog := s.deferLog ++ [.send (s.defer.slot s.defer.qRd)] }

/-- The events of the loop of `ip_defer_handler`. -/
def loopEvents (env : Env) : ℕ → Stack → List Event
  | 0, _ => []
  | fuel + 1, s =>
    if s.defer.qRd = s.defer.qWr then []
    else if (s.defer.slot s.defer.qRd).tries > 3 then
      .leave :: loopEvents env fuel (ipDeferDrop (countTry s).2).2
    else
      .attempt (firstAttempt s) ::
        match (firstAttempt s).send env with
        | (none, _) => []
        | (some retval, t) =>
          if retval = -1 ∧ t.errno = EHOSTUNREACH then []
          else .leave :: loopEvents env fuel (ipDeferDrop t).2

/-- The state in which the loop of the handler starts. -/
def inhibited (s : Stack) : Stack := { s with defer := { s.defer with deferInhibit := true } }

def opEvents (env : Env) (h : History) : Op → List Event
  | .handler => loopEvents env (xstackIpDeferMax + 1) (inhibited h.stack)
  | _ => []

/-- The events of a run. -/
def trace (env : Env) (h : History) : List Op → List Event
  | [] => []
  | op :: ops => opEvents env h op ++ trace env (step env h op) ops

/-- The attempts for the first packet of the queue, after an event. -/
def Event.next (attempts : List Attempt) : Event → List Attempt
  | .attempt a => attempts ++ [a]
  | .leave => []

/-- The attempts for the packet that is first after the events: those since the last one left. -/
def current (events : List Event) : List Attempt := events.foldl Event.next []

/-- **No packet is given up early.** -/
def NotEarly (env : Env) (events : List Event) : Prop :=
  ∀ pre post, events = pre ++ .leave :: post →
    (∃ a ∈ current pre, a.Handed env ∨ a.Failed env) ∨ 3 < (current pre).length

/-! ### The condition -/

/-- There is a route to the host, but no hardware address in the cache. -/
def Unresolved (rib : Rib) (arp : ArpCache) (dst : InAddr) : Prop :=
  (∃ route, rib.ipRouteFindByNetwork dst = some (some route)) ∧ cachedHaddr arp dst = some none

/-- There is a route to the host and a hardware address in the cache. -/
def Resolved (rib : Rib) (arp : ArpCache) (dst : InAddr) : Prop :=
  (∃ route, rib.ipRouteFindByNetwork dst = some (some route)) ∧
    ∃ mac, cachedHaddr arp dst = some (some mac)

/-- The slots of the queue in order. -/
def waiting (q : DeferQueue) : List IpDefer :=
  (List.range (q.qWr - q.qRd).val).map fun k => q.slot (q.qRd + slotNr k)

/-- No packet that the handler comes to has `tries` over 3 or is for an unresolved host. It comes to
the next packet when this one can be sent. -/
def Timely (rib : Rib) (arp : ArpCache) : List IpDefer → Prop
  | [] => True
  | ipd :: rest => ipd.tries ≤ 3 ∧ ¬ Unresolved rib arp ipd.dst ∧
    (Resolved rib arp ipd.dst → Timely rib arp rest)

/-- **The condition** on one step, in the state before it. -/
def TimelyOp (h : History) : Op → Prop
  | .handler => Timely h.stack.rib h.stack.arp (waiting h.stack.defer)
  | _ => True

/-! ### The events are those of the handler -/

def Event.log : Event → DeferEvent
  | .attempt a => .send a.ipd
  | .leave => .drop

variable {env : Env} {pushed : List Packet} {s t : Stack} {q : DeferQueue}

theorem deferLog_of_sent {dst : InAddr} {proto : UInt8} {buf : Buf} {bsize : ℕ}
    (h : Sent dst proto buf bsize s t) : t.deferLog = s.deferLog := by
  rcases h with ⟨_, _, _, rfl⟩ | ⟨_, ⟨_, _, _, rfl⟩, _, _, _, rfl⟩ <;> rfl

theorem Attempt.sent (env : Env) (a : Attempt) :
    Sent a.ipd.dst a.ipd.proto a.ipd.buf a.ipd.bufSize a.state (a.send env).2 :=
  ipSend_steps env _ _ _ _ a.state

theorem Attempt.sending (env : Env) (a : Attempt) : Sending a.state (a.send env).2 :=
  ipSend_sending env _ _ _ _ a.state

theorem deferLoop_log (env : Env) : ∀ (fuel : ℕ) (s : Stack),
    (deferLoop env fuel s).2.deferLog = s.deferLog ++ (loopEvents env fuel s).map Event.log
  | 0, _ => (List.append_nil _).symm
  | fuel + 1, s => by
    have hdrop : ∀ t : Stack, ((ipDeferDrop >>= fun _ => deferLoop env fuel) t).2.deferLog =
        t.deferLog ++ .drop :: (loopEvents env fuel (ipDeferDrop t).2).map Event.log := by
      intro t
      refine (deferLoop_log env fuel (ipDeferDrop t).2).trans ?_
      show (t.deferLog ++ [.drop]) ++ _ = _
      rw [List.append_assoc]
      rfl
    unfold deferLoop loopEvents
    rw [get_bind]
    by_cases he : s.defer.qRd = s.defer.qWr
    · rw [if_pos he, if_pos he]
      exact (List.append_nil _).symm
    · rw [if_neg he, if_neg he]
      set ipd := s.defer.slot s.defer.qRd
      let s₁ : Stack := { s with defer := DeferQueue.countTry s.defer }
      show ((if ipd.tries > 3 then _ else _ : Act Unit) s₁).2.deferLog = _
      by_cases htry : ipd.tries > 3
      · rw [if_pos htry, if_pos htry]
        exact hdrop s₁
      · rw [if_neg htry, if_neg htry]
        have hlog := deferLog_of_sent ((firstAttempt s).sent env)
        rw [List.map_cons]
        rcases hr : (firstAttempt s).send env with ⟨_ | retval, t⟩ <;> rw [hr] at hlog
        · have hr' : sendDeferred env ipd s₁ = (none, t) := hr
          rw [bind_of_none hr']
          exact hlog
        · have hr' : sendDeferred env ipd s₁ = (some retval, t) := hr
          rw [bind_of_some hr', get_bind]
          dsimp only at hlog ⊢
          split_ifs
          · exact hlog
          · rw [hdrop, hlog]
            exact List.append_assoc _ _ _

/-- **What the handler does** is its events. -/
theorem handler_log (env : Env) (h : History) : (step env h .handler).stack.deferLog =
    h.stack.deferLog ++ (opEvents env h .handler).map Event.log :=
  deferLoop_log env _ (inhibited h.stack)

/-! ### Packets that leave -/

/-- Before a packet leaves there is an attempt that gives it to `ether_send`. -/
def Preceded (env : Env) (events : List Event) : Prop :=
  ∀ pre post, events = pre ++ .leave :: post → ∃ pre' a, pre = pre' ++ [.attempt a] ∧ a.Handed env

theorem Preceded.nil : Preceded env [] := by
  intro pre post h
  simp at h

theorem Preceded.attempt (a : Attempt) : Preceded env [.attempt a] := by
  intro pre post h
  cases pre <;> simp at h

theorem Preceded.append {l l' : List Event} (h : Preceded env l) (h' : Preceded env l') :
    Preceded env (l ++ l') := by
  intro pre post heq
  rcases List.append_eq_append_iff.mp heq with ⟨mid, rfl, hl'⟩ | ⟨mid, hl, hpost⟩
  · obtain ⟨pre', a, rfl, ha⟩ := h' mid post hl'
    exact ⟨l ++ pre', a, (List.append_assoc _ _ _).symm, ha⟩
  · cases mid with
    | nil =>
      obtain ⟨pre', a, hnil, -⟩ := h' [] post hpost.symm
      simp at hnil
    | cons e mid =>
      obtain ⟨rfl, -⟩ := List.cons.inj hpost
      exact h pre mid hl

theorem Preceded.leave {a : Attempt} {l : List Event} (ha : a.Handed env) (h : Preceded env l) :
    Preceded env (.attempt a :: .leave :: l) := by
  have htwo : Preceded env [.attempt a, .leave] := by
    intro pre post heq
    match pre, heq with
    | [_], heq =>
      obtain ⟨rfl, -⟩ := List.cons.inj heq
      exact ⟨[], a, rfl, ha⟩
    | [], heq => simp at heq
    | _ :: _ :: pre, heq => simp at heq
  exact htwo.append h

theorem notEarly_of_preceded {l : List Event} (h : Preceded env l) : NotEarly env l := by
  intro pre post heq
  obtain ⟨pre', a, rfl, ha⟩ := h pre post heq
  refine Or.inl ⟨a, ?_, Or.inl ha⟩
  unfold current
  rw [List.foldl_append]
  exact List.mem_append_right _ List.mem_cons_self

/-! ### One turn of the loop -/

theorem waiting_cons (h : q.qRd ≠ q.qWr) :
    waiting q = q.slot q.qRd :: waiting (DeferQueue.drop (DeferQueue.countTry q)) := by
  have hrd : q.qRd.val < 20 := q.qRd.isLt
  have hwr : q.qWr.val < 20 := q.qWr.isLt
  have hne : q.qRd.val ≠ q.qWr.val := fun heq => h (Fin.ext heq)
  have hlen : (q.qWr - q.qRd).val = (q.qWr - nextSlot q.qRd).val + 1 := by
    rw [val_sub, val_sub, val_nextSlot]
    omega
  unfold waiting
  rw [hlen, List.range_succ_eq_map, List.map_cons, List.map_map]
  congr 1
  · exact congrArg q.slot (add_zero q.qRd)
  · refine List.map_congr_left fun k hk => ?_
    have hk := List.mem_range.mp hk
    have hidx : q.qRd + slotNr (k + 1) = nextSlot q.qRd + slotNr k := by
      apply Fin.ext
      show (q.qRd.val + (k + 1) % 20) % 20 = ((q.qRd.val + 1) % 20 + k % 20) % 20
      omega
    have hother : nextSlot q.qRd + slotNr k ≠ q.qRd := by
      intro heq
      have hval : ((q.qRd.val + 1) % 20 + k % 20) % 20 = q.qRd.val := congrArg Fin.val heq
      rw [val_sub, val_nextSlot] at hk
      omega
    show q.slot (q.qRd + slotNr (k + 1)) =
      Function.update q.slot q.qRd _ (nextSlot q.qRd + slotNr k)
    rw [hidx, Function.update_of_ne hother]

/-- A call for a host that is not unresolved ends without a value, finds no route, or is for a resolved
host. -/
theorem Attempt.send_cases (env : Env) (a : Attempt)
    (h : ¬ Unresolved a.state.rib a.state.arp a.ipd.dst) : (a.send env).1 = none ∨
      a.send env = (some (-1), { a.state with errno := EHOSTUNREACH }) ∨
      Resolved a.state.rib a.state.arp a.ipd.dst := by
  obtain ⟨⟨tries, dst, proto, bsize, buf⟩, s⟩ := a
  show (ipSend env dst proto buf bsize s).1 = none ∨
    ipSend env dst proto buf bsize s = (some (-1), { s with errno := EHOSTUNREACH }) ∨
    Resolved s.rib s.arp dst
  rcases hroute : s.rib.ipRouteFindByNetwork dst with _ | _ | route
  · left
    unfold ipSend ipRouteFindByNetwork
    rw [bind_apply, get_bind, hroute]
    rfl
  · right
    left
    unfold ipSend ipRouteFindByNetwork
    rw [bind_apply, get_bind, hroute]
    rfl
  · rcases hmac : cachedHaddr s.arp dst with _ | _ | mac
    · left
      have hget : arpCacheGetHaddr env route.rIface dst s = (none, s) := by
        unfold arpCacheGetHaddr
        rw [get_bind, hmac]
        rfl
      unfold ipSend
      rw [bind_of_some (ipRouteFindByNetwork_found hroute)]
      dsimp only
      rw [bind_of_none hget]
    · exact absurd ⟨⟨route, hroute⟩, hmac⟩ h
    · exact Or.inr (Or.inr ⟨⟨route, hroute⟩, mac, hmac⟩)

/-- An attempt for a resolved host, of a packet without a size. -/
theorem handed_of_resolved {a : Attempt} (h : Resolved a.state.rib a.state.arp a.ipd.dst)
    (hsize : a.ipd.bufSize = 0) : a.Handed env := by
  obtain ⟨⟨route, hroute⟩, mac, hmac⟩ := h
  exact ⟨route, mac, hroute, hmac, ipSend_resolved hroute hmac (by rw [hsize]; exact Nat.zero_le _)⟩

/-- **The loop, turn after turn:** a packet that leaves was given to `ether_send` in the same turn. -/
theorem loopEvents_preceded (env : Env) : ∀ (fuel : ℕ) (s : Stack), Busy pushed s →
    Timely s.rib s.arp (waiting s.defer) → Preceded env (loopEvents env fuel s)
  | 0, _, _, _ => .nil
  | fuel + 1, s, hs, htimely => by
    unfold loopEvents
    split_ifs with he htry
    · exact .nil
    · rw [waiting_cons he] at htimely
      exact absurd htimely.1 (by omega)
    · rw [waiting_cons he] at htimely
      obtain ⟨-, hres, hrest⟩ := htimely
      have hs₂ : Busy pushed (firstAttempt s).state := ⟨(hs.1.send he).countTry, hs.2⟩
      have hsent := (firstAttempt s).sent env
      have hsending := (firstAttempt s).sending env
      have hcases := (firstAttempt s).send_cases env hres
      rcases hr : (firstAttempt s).send env with ⟨_ | retval, t⟩ <;> rw [hr] at hsent hsending hcases
      · exact .attempt _
      · dsimp only
        split_ifs with hagain
        · exact .attempt _
        · have hresolved : Resolved s.rib s.arp (firstAttempt s).ipd.dst := by
            rcases hcases with hnone | hnoroute | hresolved
            · cases hnone
            · obtain ⟨hret, rfl⟩ := Prod.mk.inj hnoroute
              exact absurd ⟨Option.some.inj hret, rfl⟩ hagain
            · exact hresolved
          obtain ⟨ht, hdefer⟩ := hs₂.sent hsent
          have hne : t.defer.qRd ≠ t.defer.qWr := by
            rw [hdefer]
            exact he
          refine .leave (handed_of_resolved hresolved (hs.1.sizes _)) ?_
          refine loopEvents_preceded env fuel _ ⟨ht.1.drop hne, ht.2⟩ ?_
          obtain ⟨_, _, _, _, _, rfl⟩ := hsending
          show Timely s.rib s.arp (waiting (DeferQueue.drop _))
          rw [hdefer]
          exact hrest hresolved

/-! ### Runs -/

theorem opEvents_preceded (env : Env) (h : History) (op : Op)
    (hI : Inv h.pushed h.stack.defer h.stack.deferLog) (hop : TimelyOp h op) :
    Preceded env (opEvents env h op) := by
  cases op with
  | push dst proto buf bsize => exact .nil
  | handler =>
    have hbusy : Busy h.pushed (inhibited h.stack) :=
      ⟨⟨hI.counts, hI.rd, hI.wr, hI.slots, hI.sizes, hI.sent⟩, rfl⟩
    exact loopEvents_preceded env _ _ hbusy hop
  | other t => exact .nil

theorem trace_preceded (env : Env) (ops : List Op) : ∀ h : History,
    Inv h.pushed h.stack.defer h.stack.deferLog →
    (∀ pre op post, ops = pre ++ op :: post → TimelyOp (run env h pre) op) →
      Preceded env (trace env h ops) := by
  induction ops with
  | nil => exact fun _ _ _ => .nil
  | cons op ops ih =>
    intro h hI hops
    refine (opEvents_preceded env h op hI (hops [] op ops rfl)).append ?_
    refine ih (step env h op) (step_inv env h op hI) fun pre op' post heq => ?_
    exact hops (op :: pre) op' post (by rw [heq]; rfl)

/-- **In a run in which the handler never comes to a packet with `tries` over 3 or to one for an
unresolved host, no packet is given up early.** -/
theorem notEarly (env : Env) (s : Stack) (ops : List Op)
    (h : ∀ pre op post, ops = pre ++ op :: post → TimelyOp (run env (start s) pre) op) :
    NotEarly env (trace env (start s) ops) :=
  notEarly_of_preceded (trace_preceded env ops (start s) inv_start h)

/-- A packet for a host in the cache. -/
theorem notEarly_cached : NotEarly ⟨.ofSign, fun _ => 42⟩ (trace ⟨.ofSign, fun _ => 42⟩
    (start Udp.RoundTrip.loopback) [.push 2 17 (fun _ => 0) 0, .handler]) := by
  have hok : Along (step ⟨.ofSign, fun _ => 42⟩) TimelyOp (start Udp.RoundTrip.loopback)
      [.push 2 17 (fun _ => 0) 0, .handler] := by
    refine ⟨trivial, ⟨by decide, ?_, fun _ => trivial⟩, trivial⟩
    rintro ⟨-, hmac⟩
    exact absurd hmac (by decide +kernel)
  exact notEarly _ _ _ hok.forall_split

/-- An attempt that returns 0 is the last one. -/
theorem loopEvents_zero {fuel : ℕ} (he : s.defer.qRd ≠ s.defer.qWr)
    (htry : (s.defer.slot s.defer.qRd).tries ≤ 3) (hsend : (firstAttempt s).send env = (some 0, t)) :
    loopEvents env (fuel + 1) s =
      .attempt (firstAttempt s) :: .leave :: loopEvents env fuel (ipDeferDrop t).2 := by
  show (if _ then _ else _) = _
  rw [if_neg he, if_neg (by omega), hsend]
  rfl

/-- The host 10.0.0.5 has not answered yet: the packet for it leaves at the first attempt, and nothing
was sent but one more ARP request. -/
theorem given_up : ¬ NotEarly ⟨.ofSign, fun _ => 42⟩ (trace ⟨.ofSign, fun _ => 42⟩
    (start Reassemble.receiver) [.push 0x0a000005 17 (fun _ => 0) 0, .handler]) := by
  set env : Env := ⟨.ofSign, fun _ => 42⟩
  set s := inhibited (step env (start Reassemble.receiver)
    (.push 0x0a000005 17 (fun _ => 0) 0)).stack with hs
  have hret : ((firstAttempt s).send env).1 = some 0 := by
    rw [hs]
    decide +kernel
  have hmac : cachedHaddr (firstAttempt s).state.arp (firstAttempt s).ipd.dst = some none := by
    rw [hs]
    decide +kernel
  rcases hsend : (firstAttempt s).send env with ⟨r, t⟩
  rw [hsend] at hret
  obtain rfl : r = some 0 := hret
  have hevents : trace env (start Reassemble.receiver)
      [.push 0x0a000005 17 (fun _ => 0) 0, .handler] = [.attempt (firstAttempt s)] ++
        .leave :: loopEvents env xstackIpDeferMax (ipDeferDrop t).2 := by
    simp only [trace, opEvents, List.nil_append, List.append_nil]
    rw [← hs, loopEvents_zero (by rw [hs]; decide) (by rw [hs]; decide) hsend, List.singleton_append]
  intro h
  rcases h _ _ hevents with ⟨a, ha, hgood⟩ | hmany
  · obtain rfl : a = firstAttempt s := List.mem_singleton.mp ha
    rcases hgood with ⟨route, mac, -, hmac', -⟩ | ⟨r, t', hfail, hneg, -⟩
    · rw [hmac] at hmac'
      cases hmac'
    · rw [hsend] at hfail
      obtain rfl : 0 = r := Option.some.inj (Prod.mk.inj hfail).1
      omega
  · exact absurd hmany (by show ¬ 3 < 1; omega)

end Xstack.Net.GiveUp
