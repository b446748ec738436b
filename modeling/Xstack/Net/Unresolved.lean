import Xstack.Net.Defer
import Xstack.Net.Input

/-! # Sending to an address that is not resolved

`ip_send` sends an ARP request and defers the packet. `Settled` says that the packet is then in the
queue or the caller is told that it is not.

* `getHaddr_unreach`, `getHaddr_other`: `arp_cache_get_haddr` tells `ip_send` by `errno` whether the
  request was sent.
* `sizeless`: in a reachable state no slot of the queue has a size, so a packet with bytes is queued
  as an empty one.
* `settled_iff`: the exact condition. -/

namespace Xstack.Net.Unresolved

open Xstack.Config Xstack.Lib.Bytes Xstack.Lib.Program Xstack.Ether Xstack.Ip.Route
open Xstack.Net.State Xstack.Net.Send Xstack.Net.Input Xstack.Net.Frame Xstack.Net.Defer

/-! ### Reachable states -/

/-- A call from outside `ip_defer_handler`. -/
inductive Call
  | ipSend (dst : InAddr) (proto : UInt8) (buf : Buf) (bsize : ℕ)
  | arpInput (b : Buf) (bsize : ℕ)
  | arpCacheUpdate (deltaTime : ℤ)
  | ipDeferHandler

def Call.act (env : Env) : Call → Act Unit
  | .ipSend dst proto buf bsize => do
    let _ ← Send.ipSend env dst proto buf bsize
    return
  | .arpInput b bsize => do
    let _ ← Input.arpInput env b bsize
    return
  | .arpCacheUpdate deltaTime => State.arpCacheUpdate deltaTime
  | .ipDeferHandler => Send.ipDeferHandler env

/-- The states after start-up, with any configuration, and any sequence of calls that return. -/
inductive Reachable (env : Env) : Stack → Prop
  | start (s : Stack) : Reachable env { s with defer := emptyQueue }
  | step {s t : Stack} (call : Call) (hs : Reachable env s) (h : call.act env s = (some (), t)) :
    Reachable env t

/-! ### The property -/

/-- The packet that the handler would send for a slot. -/
def deferred (ipd : IpDefer) : Packet := ⟨ipd.dst, ipd.proto, slice ipd.buf ipd.bufSize⟩

/-- The packets in the queue. -/
def queued (q : DeferQueue) : List Packet :=
  (List.range (q.qWr - q.qRd).val).map fun k => deferred (q.slot (q.qRd + slotNr k))

/-- The frames with the ARP request for `dst` as the last one. -/
def requestTx (s : Stack) (iface dst : InAddr) : List (List UInt8) :=
  s.tx ++ [etherFrame macBroadcastAddr s.mac etherProtoArp (slice (ofBytes
    (arpNtoh ⟨arpHtypeEther, etherProtoIpv4, UInt8.ofNat etherAlen, 4, arpOperRequest, s.mac, iface,
      fun _ => 0, dst⟩).bytes) arpIpSize)]

/-- The interface with the address `iface` has a handle, and `r` is what `sendto` returns for a
request for `dst` over it. -/
def Requested (env : Env) (s : Stack) (iface dst : InAddr) (r : ℤ) : Prop :=
  ∃ route, s.rib.ipRouteFindByIface iface = some (some route) ∧ 0 ≤ route.rIfaceHandle ∧
    route.rIfaceHandle < etherMaxIf ∧ r = env.sendto (requestTx s route.rIface dst)

/-- What a send of a packet may return, and what it may do to the queue. -/
structure Outcome (env : Env) (s : Stack) (iface : InAddr) (p : Packet) (retval : ℤ)
    (t : Stack) : Prop where
  deferred : (∃ r, Requested env s iface p.dst r ∧ 0 ≤ r) →
    (queued s.defer).length < xstackIpDeferMax - 1 →
      retval = 0 ∧ queued t.defer = queued s.defer ++ [p]
  full : (queued s.defer).length = xstackIpDeferMax - 1 →
    retval = -1 ∧ t.errno = ENOBUFS ∧ t.defer = s.defer
  zero : retval = 0 → queued t.defer = queued s.defer ++ [p]

/-- **An unresolved send is queued or reported.** `iface` is the interface of the route to `dst`. -/
def Settled (env : Env) (s : Stack) (iface dst : InAddr) (proto : UInt8) (buf : Buf)
    (bsize : ℕ) : Prop :=
  ∃ retval t, ipSend env dst proto buf bsize s = (some retval, t) ∧
    Outcome env s iface ⟨dst, proto, slice buf bsize⟩ retval t

/-- **The condition.** -/
def Queues (env : Env) (s : Stack) (iface dst : InAddr) (bsize : ℕ) : Prop :=
  ∃ r, Requested env s iface dst r ∧ (0 ≤ r ∨ r = -EHOSTUNREACH) ∧
    s.defer.deferInhibit = false ∧
    ((queued s.defer).length = xstackIpDeferMax - 1 ∨ bsize = 0 ∨ (r < 0 ∧ etherAlen < bsize))

variable {env : Env} {s t : Stack} {iface dst : InAddr} {proto : UInt8} {buf : Buf} {bsize : ℕ}
  {q : DeferQueue}

/-! ### The queue -/

theorem length_queued (q : DeferQueue) : (queued q).length = (q.qWr - q.qRd).val := by
  simp [queued]

theorem val_sub (i j : Fin xstackIpDeferMax) : (i - j).val = (20 - j.val + i.val) % 20 := rfl

/-- The test of `ip_defer_push`. -/
theorem full_iff (q : DeferQueue) :
    nextSlot q.qWr = q.qRd ↔ (queued q).length = xstackIpDeferMax - 1 := by
  have hrd : q.qRd.val < 20 := q.qRd.isLt
  have hwr : q.qWr.val < 20 := q.qWr.isLt
  rw [length_queued, val_sub, Fin.ext_iff, val_nextSlot]
  show _ ↔ _ = 19
  omega

theorem length_lt (h : nextSlot q.qWr ≠ q.qRd) : (queued q).length < xstackIpDeferMax - 1 := by
  have hne := mt (full_iff q).mpr h
  have hlt : (queued q).length < xstackIpDeferMax := by
    rw [length_queued]
    exact Fin.isLt _
  omega

theorem queued_enqueue (hsize : ∀ i, (q.slot i).bufSize = 0) (h : nextSlot q.qWr ≠ q.qRd)
    (dst : InAddr) (proto : UInt8) (buf : Buf) (bsize : ℕ) :
    queued (enqueue q dst proto buf bsize) = queued q ++ [⟨dst, proto, []⟩] := by
  have hrd : q.qRd.val < 20 := q.qRd.isLt
  have hwr : q.qWr.val < 20 := q.qWr.isLt
  have hlast : q.qRd + slotNr (q.qWr - q.qRd).val = q.qWr := by
    apply Fin.ext
    show (q.qRd.val + (q.qWr - q.qRd).val % 20) % 20 = q.qWr.val
    rw [val_sub]
    omega
  have hlen : (nextSlot q.qWr - q.qRd).val = (q.qWr - q.qRd).val + 1 := by
    rw [Ne, Fin.ext_iff, val_nextSlot] at h
    rw [val_sub, val_sub, val_nextSlot]
    omega
  have hold : ∀ k ∈ List.range (q.qWr - q.qRd).val, q.qRd + slotNr k ≠ q.qWr := by
    intro k hk heq
    have hk := List.mem_range.mp hk
    rw [val_sub] at hk
    have hval : (q.qRd.val + k % 20) % 20 = q.qWr.val := congrArg Fin.val heq
    omega
  show (List.range (nextSlot q.qWr - q.qRd).val).map (fun k =>
    deferred (Function.update q.slot q.qWr _ (q.qRd + slotNr k))) = _
  rw [hlen, List.range_succ, List.map_append]
  congr 1
  · refine List.map_congr_left fun k hk => ?_
    rw [Function.update_of_ne (hold k hk)]
  · rw [List.map_singleton, hlast, Function.update_self]
    unfold deferred
    rw [hsize]
    rfl

/-! ### No slot has a size -/

/-- No slot of the queue has a size. -/
def Sizeless (s : Stack) : Prop := ∀ i, (s.defer.slot i).bufSize = 0

/-- A step keeps the slots without a size. -/
def Keeps (s t : Stack) : Prop := Sizeless s → Sizeless t

theorem Keeps.refl (s : Stack) : Keeps s s := id

theorem Keeps.trans {s t u : Stack} (h : Keeps s t) (h' : Keeps t u) : Keeps s u := h' ∘ h

theorem Keeps.of_defer (h : t.defer = s.defer) : Keeps s t := by
  intro hs i
  rw [h]
  exact hs i

theorem keeps_of_quiet (h : Quiet s t) : Keeps s t := by
  obtain ⟨_, _, _, rfl⟩ := h
  exact .of_defer rfl

/-- Slots that are written keep their size. -/
theorem keeps_update {q : DeferQueue} {i : Fin xstackIpDeferMax} {ipd : IpDefer}
    (hq : q.slot = Function.update s.defer.slot i ipd)
    (h : ipd.bufSize = (s.defer.slot i).bufSize) : Keeps s { s with defer := q } := by
  intro hs j
  show (q.slot j).bufSize = 0
  rw [hq]
  by_cases hj : j = i
  · rw [hj, Function.update_self, h, hs i]
  · rw [Function.update_of_ne hj, hs j]

theorem keeps_push (s : Stack) (dst : InAddr) (proto : UInt8) (buf : Buf) (bsize : ℕ) :
    Keeps s { s with defer := (DeferQueue.ipDeferPush s.defer dst proto buf bsize).2 } := by
  by_cases hacc : Accepts s.defer bsize
  · obtain ⟨h1, h2, h3⟩ := hacc
    rw [push_ok h1 h2 (by omega)]
    exact keeps_update rfl rfl
  · obtain ⟨e, -, hpush⟩ := push_refused hacc dst proto buf
    rw [hpush]
    exact .of_defer rfl

theorem ipSend_keeps (env : Env) (dst : InAddr) (proto : UInt8) (buf : Buf) (bsize : ℕ) :
    Steps Keeps (Send.ipSend env dst proto buf bsize) := by
  refine (ipSend_steps env dst proto buf bsize).mono fun s t h => ?_
  rcases h with h | ⟨u, hu, ht⟩
  · exact keeps_of_quiet h
  · exact ((keeps_of_quiet hu).trans (keeps_push u dst proto buf bsize)).trans (keeps_of_quiet ht)

theorem countTry_keeps : Steps Keeps countTry := .modify fun _ => keeps_update rfl rfl

theorem ipDeferDrop_keeps : Steps Keeps ipDeferDrop := .modify fun _ hs => hs

theorem deferLoop_keeps (env : Env) : ∀ fuel, Steps Keeps (deferLoop env fuel)
  | 0 => .stuck .refl
  | fuel + 1 => by
    unfold deferLoop
    have hnext : Steps Keeps (ipDeferDrop >>= fun _ => deferLoop env fuel) :=
      .bind .trans ipDeferDrop_keeps fun _ => deferLoop_keeps env fuel
    refine .bind .trans (.get .refl) fun s => .ite (fun _ => .pure .refl _) fun _ => ?_
    refine .bind .trans countTry_keeps fun _ => .ite (fun _ => hnext) fun _ => ?_
    refine .bind .trans ?_ fun retval => .bind .trans (.get .refl) fun s => ?_
    · exact .bind .trans (.modify fun _ hs => hs) fun _ => ipSend_keeps env _ _ _ _
    · exact .ite (fun _ => countTry_keeps) fun _ => hnext

theorem ipDeferHandler_keeps (env : Env) : Steps Keeps (Send.ipDeferHandler env) :=
  .bind .trans (.modify fun _ hs => hs) fun _ => deferLoop_keeps env _

theorem arpCacheInsert_keeps (ipAddr : InAddr) (haddr : MacAddr)
    (type : Arp.Cache.ArpCacheEntryType) : Steps Keeps (arpCacheInsert ipAddr haddr type) := by
  unfold arpCacheInsert
  refine .bind .trans (.get .refl) fun s => .bind .trans (.ofOption .refl _) fun r => ?_
  refine .bind .trans (.modify fun _ hs => hs) fun _ => ?_
  dsimp only
  exact .ite (fun _ => .bind .trans (.modify fun _ hs => hs) fun _ => .pure .refl _) fun _ =>
    .pure .refl _

theorem arpInput_keeps (env : Env) (b : Buf) (bsize : ℕ) :
    Steps Keeps (Input.arpInput env b bsize) := by
  unfold Input.arpInput
  refine .ite (fun _ => .pure .refl _) fun _ => .ite (fun _ => .pure .refl _) fun _ => ?_
  refine .bind .trans (arpCacheInsert_keeps _ _ _) fun _ => ?_
  refine .bind .trans (ipDeferHandler_keeps env) fun _ => .ite (fun _ => ?_) fun _ => .pure .refl _
  refine .bind .trans ((ipRouteFindByIface_quiet _).mono fun _ _ => keeps_of_quiet) fun route => ?_
  cases route with
  | none => exact .pure .refl _
  | some route =>
    refine .bind .trans ((etherHandle2addr_quiet _).mono fun _ _ => keeps_of_quiet) fun sha => ?_
    exact .pure .refl _

theorem call_keeps (env : Env) (call : Call) : Steps Keeps (call.act env) := by
  cases call with
  | ipSend dst proto buf bsize =>
    exact .bind .trans (ipSend_keeps env dst proto buf bsize) fun _ => .pure .refl _
  | arpInput b bsize => exact .bind .trans (arpInput_keeps env b bsize) fun _ => .pure .refl _
  | arpCacheUpdate deltaTime =>
    refine .bind .trans (.get .refl) fun s => .bind .trans (.ofOption .refl _) fun arp => ?_
    exact .modify fun _ hs => hs
  | ipDeferHandler => exact ipDeferHandler_keeps env

/-- **In a reachable state no slot of the queue has a size.** -/
theorem sizeless (h : Reachable env s) : Sizeless s := by
  induction h with
  | start s => exact fun _ => rfl
  | step call hs h ih =>
    have hkeeps := call_keeps env call _ ih
    rwa [h] at hkeeps

/-! ### The ARP request -/

/-- What the request does to the state. -/
theorem arpRequest_run {handle : ℤ} (h0 : 0 ≤ handle) (h1 : handle < etherMaxIf) (s : Stack)
    (iface dst : InAddr) :
    arpRequest env handle iface dst s =
      (some (if env.sendto (requestTx s iface dst) < 0 then env.sendto (requestTx s iface dst) else 0),
        { s with
          tx := requestTx s iface dst
          errno := if env.sendto (requestTx s iface dst) < 0 then -env.sendto (requestTx s iface dst)
            else s.errno }) := by
  have hmac : etherHandle2addr handle s = (some (some s.mac), s) := by
    unfold etherHandle2addr
    rw [if_neg (by omega), if_neg (by omega)]
    rfl
  have hmsg : arpMsg handle iface dst s = (some ⟨arpHtypeEther, etherProtoIpv4,
      UInt8.ofNat etherAlen, 4, arpOperRequest, s.mac, iface, fun _ => 0, dst⟩, s) := by
    unfold arpMsg
    rw [bind_of_some hmac]
    rfl
  unfold arpRequest
  rw [bind_of_some hmsg, bind_of_some (etherSend_run env h0 h1 (by decide) _ _ _ s)]
  rfl

section

variable (hmac : cachedHaddr s.arp dst = some none)
include hmac

theorem getHaddr_unresolved :
    arpCacheGetHaddr env iface dst s = (ipRouteFindByIface iface >>= fun
      | some route => do
        let retval ← arpRequest env route.rIfaceHandle route.rIface dst
        if retval = 0 then setErrno EHOSTUNREACH
        return none
      | none => return none : Act (Option MacAddr)) s := by
  unfold arpCacheGetHaddr
  rw [get_bind, hmac]
  rfl

/-- **The request was sent, or `sendto` itself says that the host is unreachable.** -/
theorem getHaddr_unreach {r : ℤ} (h : Requested env s iface dst r)
    (hr : 0 ≤ r ∨ r = -EHOSTUNREACH) :
    ∃ tx, arpCacheGetHaddr env iface dst s =
      (some none, { s with tx := tx, errno := EHOSTUNREACH }) := by
  obtain ⟨route, hroute, h0, h1, rfl⟩ := h
  rw [getHaddr_unresolved hmac, bind_of_some (ipRouteFindByIface_found hroute)]
  dsimp only
  rw [bind_of_some (arpRequest_run h0 h1 s route.rIface dst)]
  refine ⟨requestTx s route.rIface dst, ?_⟩
  rcases hr with hr | hr
  · have hneg : ¬ env.sendto (requestTx s route.rIface dst) < 0 := by omega
    rw [if_neg hneg, if_neg hneg]
    rfl
  · rw [hr]
    rfl

/-- Otherwise `errno` is another one, if `arp_cache_get_haddr` returns at all. -/
theorem getHaddr_other
    (h : ∀ r, Requested env s iface dst r → ¬ (0 ≤ r ∨ r = -EHOSTUNREACH)) :
    (∃ t, arpCacheGetHaddr env iface dst s = (none, t)) ∨
    ∃ e tx, e ≠ EHOSTUNREACH ∧
      arpCacheGetHaddr env iface dst s = (some none, { s with tx := tx, errno := e }) := by
  rw [getHaddr_unresolved hmac]
  rcases hroute : s.rib.ipRouteFindByIface iface with _ | _ | route
  · left
    have hfind : ipRouteFindByIface iface s = (none, s) := by
      unfold ipRouteFindByIface
      rw [get_bind, hroute]
      rfl
    exact ⟨s, bind_of_none hfind⟩
  · right
    have hfind : ipRouteFindByIface iface s = (some none, { s with errno := ENOENT }) := by
      unfold ipRouteFindByIface
      rw [get_bind, hroute]
      rfl
    exact ⟨ENOENT, s.tx, by decide, bind_of_some hfind⟩
  · rw [bind_of_some (ipRouteFindByIface_found hroute)]
    dsimp only
    by_cases h1 : route.rIfaceHandle < etherMaxIf
    · by_cases h0 : 0 ≤ route.rIfaceHandle
      · right
        have hr := h _ ⟨route, hroute, h0, h1, rfl⟩
        push Not at hr
        refine ⟨-env.sendto (requestTx s route.rIface dst), requestTx s route.rIface dst,
          fun he => hr.2 (by omega), ?_⟩
        have hne : ¬ env.sendto (requestTx s route.rIface dst) = 0 := by omega
        rw [bind_of_some (arpRequest_run h0 h1 s route.rIface dst), if_pos hr.1, if_pos hr.1,
          if_neg hne]
        rfl
      · left
        have hreq : arpRequest env route.rIfaceHandle route.rIface dst s = (none, s) := by
          unfold arpRequest arpMsg etherHandle2addr
          rw [if_neg (by omega), if_pos (by omega)]
          rfl
        exact ⟨s, bind_of_none hreq⟩
    · right
      have hreq : arpRequest env route.rIfaceHandle route.rIface dst s =
          (some (-ENODEV), { s with errno := ENODEV }) := by
        have hge : route.rIfaceHandle ≥ etherMaxIf := by omega
        have hsize : ¬ frameSize arpIpSize > etherMaxlen + etherFcsLen := by decide
        unfold arpRequest arpMsg etherHandle2addr etherSend
        simp only [if_pos hge, if_neg hsize]
        rfl
      exact ⟨ENODEV, s.tx, by decide, bind_of_some hreq⟩

end

/-! ### The result -/

/-- `ip_send` up to the failing `arp_cache_get_haddr`. -/
theorem ipSend_unresolved {route : IpRoute}
    (hroute : s.rib.ipRouteFindByNetwork dst = some (some route))
    (h : arpCacheGetHaddr env route.rIface dst s = (some none, t)) :
    ipSend env dst proto buf bsize s = ipSendLater dst proto buf bsize t := by
  unfold ipSend
  rw [bind_of_some (ipRouteFindByNetwork_found hroute)]
  dsimp only
  rw [bind_of_some h]

theorem ipSendLater_unreach (h : s.errno = EHOSTUNREACH) {e : ℤ}
    (hpush : DeferQueue.ipDeferPush s.defer dst proto buf bsize = (e, q)) :
    ipSendLater dst proto buf bsize s = if e = 0 ∨ e = -EALREADY then (some 0, { s with defer := q })
      else (some (-1), { s with defer := q, errno := -e }) := by
  have hrun : ipDeferPush dst proto buf bsize s = (some e, { s with defer := q }) := by
    unfold ipDeferPush
    rw [get_bind, hpush]
    rfl
  unfold ipSendLater
  rw [get_bind, if_pos h, bind_of_some hrun]
  split_ifs <;> rfl

theorem queued_ne (q : DeferQueue) (p : Packet) : queued q ≠ queued q ++ [p] := by
  intro h
  have := congrArg List.length h
  simp at this

theorem slice_eq_nil_iff (buf : Buf) (n : ℕ) : slice buf n = [] ↔ n = 0 := by
  rw [← List.length_eq_zero_iff]
  simp [slice]

theorem settled_of_run {retval : ℤ} (h : ipSend env dst proto buf bsize s = (some retval, t)) :
    Settled env s iface dst proto buf bsize ↔
      Outcome env s iface ⟨dst, proto, slice buf bsize⟩ retval t := by
  constructor
  · rintro ⟨retval', t', h', hout⟩
    obtain ⟨h1, rfl⟩ := Prod.mk.inj (h'.symm.trans h)
    obtain rfl := Option.some.inj h1
    exact hout
  · exact fun hout => ⟨retval, t, h, hout⟩

theorem Requested.unique {r r' : ℤ} (h : Requested env s iface dst r)
    (h' : Requested env s iface dst r') : r = r' := by
  obtain ⟨route, hroute, -, -, rfl⟩ := h
  obtain ⟨route', hroute', -, -, rfl⟩ := h'
  rw [hroute] at hroute'
  obtain rfl := Option.some.inj (Option.some.inj hroute')
  rfl

/-- A packet that is lost without an error. -/
theorem not_outcome {p : Packet} (h : t.defer = s.defer) : ¬ Outcome env s iface p 0 t := by
  intro hout
  have := hout.zero rfl
  rw [h] at this
  exact queued_ne _ _ this

section

variable {route : IpRoute} (hroute : s.rib.ipRouteFindByNetwork dst = some (some route))
  (hmac : cachedHaddr s.arp dst = some none)
include hroute hmac

/-- The request could not be sent: the packet is lost. -/
theorem not_settled (proto : UInt8) (buf : Buf) (bsize : ℕ)
    (h : ∀ r, Requested env s route.rIface dst r → ¬ (0 ≤ r ∨ r = -EHOSTUNREACH)) :
    ¬ Settled env s route.rIface dst proto buf bsize := by
  rcases getHaddr_other hmac h with ⟨u, hget⟩ | ⟨e, tx, he, hget⟩
  · rintro ⟨retval, t, hrun, -⟩
    have hnone : ipSend env dst proto buf bsize s = (none, u) := by
      unfold ipSend
      rw [bind_of_some (ipRouteFindByNetwork_found hroute)]
      exact bind_of_none hget
    rw [hnone] at hrun
    cases hrun
  · have hrun : ipSend env dst proto buf bsize s = (some 0, { s with tx := tx, errno := e }) := by
      rw [ipSend_unresolved hroute hget]
      unfold ipSendLater
      rw [get_bind, if_neg he]
      rfl
    rw [settled_of_run hrun]
    exact not_outcome rfl

/-- The request was sent: the packet is pushed. -/
theorem ipSend_pushed {r : ℤ} (hr : Requested env s route.rIface dst r)
    (hr' : 0 ≤ r ∨ r = -EHOSTUNREACH) {e : ℤ}
    (hpush : DeferQueue.ipDeferPush s.defer dst proto buf bsize = (e, q)) :
    ∃ tx, ipSend env dst proto buf bsize s = if e = 0 ∨ e = -EALREADY then
        (some 0, { s with tx := tx, errno := EHOSTUNREACH, defer := q })
      else (some (-1), { s with tx := tx, errno := -e, defer := q }) := by
  obtain ⟨tx, hget⟩ := getHaddr_unreach hmac hr hr'
  refine ⟨tx, ?_⟩
  rw [ipSend_unresolved hroute hget]
  exact ipSendLater_unreach rfl hpush

/-- A handler has run: the packet is lost. -/
theorem not_settled_inhibited {r : ℤ} (hr : Requested env s route.rIface dst r)
    (hr' : 0 ≤ r ∨ r = -EHOSTUNREACH) (hin : s.defer.deferInhibit = true) :
    ¬ Settled env s route.rIface dst proto buf bsize := by
  obtain ⟨tx, hrun⟩ := ipSend_pushed hroute hmac hr hr' (push_inhibited hin)
  rw [settled_of_run hrun]
  exact not_outcome rfl

theorem settled_full {r : ℤ} (hr : Requested env s route.rIface dst r)
    (hr' : 0 ≤ r ∨ r = -EHOSTUNREACH) (hin : s.defer.deferInhibit = false)
    (hfull : nextSlot s.defer.qWr = s.defer.qRd) :
    Settled env s route.rIface dst proto buf bsize := by
  obtain ⟨tx, hrun⟩ := ipSend_pushed hroute hmac hr hr' (push_full hin hfull)
  have hlen := (full_iff s.defer).mp hfull
  rw [settled_of_run hrun]
  refine ⟨fun _ hlt => ?_, fun _ => ⟨rfl, rfl, rfl⟩, fun h => ?_⟩
  · omega
  · cases h

/-- A packet that is too long for a slot: the caller is told, but the request was sent. -/
theorem settled_large {r : ℤ} (hr : Requested env s route.rIface dst r)
    (hr' : 0 ≤ r ∨ r = -EHOSTUNREACH) (hin : s.defer.deferInhibit = false)
    (hfull : nextSlot s.defer.qWr ≠ s.defer.qRd) (hlarge : bsize > etherAlen) :
    Settled env s route.rIface dst proto buf bsize ↔ r < 0 := by
  obtain ⟨tx, hrun⟩ := ipSend_pushed hroute hmac hr hr' (push_large hin hfull hlarge)
  rw [settled_of_run hrun]
  constructor
  · intro hout
    by_contra hneg
    cases (hout.deferred ⟨r, hr, by omega⟩ (length_lt hfull)).1
  · intro hneg
    refine ⟨?_, fun h => absurd ((full_iff _).mpr h) hfull, fun h => by cases h⟩
    rintro ⟨r', hr', hpos⟩
    obtain rfl := hr.unique hr'
    omega

/-- A packet that is pushed: it has no size any more. -/
theorem settled_small (hs : Reachable env s) {r : ℤ} (hr : Requested env s route.rIface dst r)
    (hr' : 0 ≤ r ∨ r = -EHOSTUNREACH) (hin : s.defer.deferInhibit = false)
    (hfull : nextSlot s.defer.qWr ≠ s.defer.qRd) (hsmall : ¬ bsize > etherAlen) :
    Settled env s route.rIface dst proto buf bsize ↔ bsize = 0 := by
  obtain ⟨tx, hrun⟩ := ipSend_pushed hroute hmac hr hr' (push_ok hin hfull hsmall)
  have hqueue := queued_enqueue (sizeless hs) hfull dst proto buf bsize
  rw [settled_of_run hrun]
  constructor
  · intro hout
    have hgrown := hqueue.symm.trans (hout.zero rfl)
    have hnil : slice buf bsize = [] := by simpa using hgrown.symm
    exact (slice_eq_nil_iff buf bsize).mp hnil
  · rintro rfl
    exact ⟨fun _ _ => ⟨rfl, hqueue⟩, fun h => absurd ((full_iff _).mpr h) hfull, fun _ => hqueue⟩

/-- **An unresolved send is queued or reported iff the request could be sent, no handler has run, and
the queue is full or the packet empty** (or an error of `sendto` hides that it is too long). -/
theorem settled_iff (hs : Reachable env s) (proto : UInt8) (buf : Buf) (bsize : ℕ) :
    Settled env s route.rIface dst proto buf bsize ↔ Queues env s route.rIface dst bsize := by
  by_cases hreq : ∃ r, Requested env s route.rIface dst r ∧ (0 ≤ r ∨ r = -EHOSTUNREACH)
  · obtain ⟨r, hr, hr'⟩ := hreq
    have hqueues : Queues env s route.rIface dst bsize ↔ s.defer.deferInhibit = false ∧
        (nextSlot s.defer.qWr = s.defer.qRd ∨ bsize = 0 ∨ (r < 0 ∧ etherAlen < bsize)) := by
      rw [full_iff]
      constructor
      · rintro ⟨r', h, -, hin, hcase⟩
        obtain rfl := hr.unique h
        exact ⟨hin, hcase⟩
      · exact fun ⟨hin, hcase⟩ => ⟨r, hr, hr', hin, hcase⟩
    rw [hqueues]
    cases hin : s.defer.deferInhibit with
    | true => simpa using not_settled_inhibited hroute hmac hr hr' hin
    | false =>
      by_cases hfull : nextSlot s.defer.qWr = s.defer.qRd
      · exact iff_of_true (settled_full hroute hmac hr hr' hin hfull) ⟨rfl, Or.inl hfull⟩
      · by_cases hlarge : bsize > etherAlen
        · rw [settled_large hroute hmac hr hr' hin hfull hlarge]
          simp only [hfull, true_and, false_or]
          omega
        · rw [settled_small hroute hmac hs hr hr' hin hfull hlarge]
          simp only [hfull, true_and, false_or]
          omega
  · refine iff_of_false (not_settled hroute hmac proto buf bsize fun r h h' => hreq ⟨r, h, h'⟩) ?_
    rintro ⟨r, hr, hr', -⟩
    exact hreq ⟨r, hr, hr'⟩

end

/-- The interface 10.0.0.1/24. -/
def onlyRoute : IpRoute := ⟨0x0a000000, 0xffffff00, 0, 0x0a000001, 0⟩

/-- A stack with one interface that has not sent anything. -/
def oneIface : Stack :=
  { Stack.init (fun _ => 2) with
    rib := (Rib.init.ipRouteUpdate onlyRoute).getD Rib.init
    defer := emptyQueue }

theorem settled_iff_empty_packet :
    Settled ⟨.ofSign, fun _ => 42⟩ oneIface 0x0a000001 0x0a000005 17 (fun _ => 7) 0 := by
  have hroute : oneIface.rib.ipRouteFindByNetwork 0x0a000005 = some (some onlyRoute) := by
    decide +kernel
  have hiface : oneIface.rib.ipRouteFindByIface 0x0a000001 = some (some onlyRoute) := by
    decide +kernel
  have hmac : cachedHaddr oneIface.arp 0x0a000005 = some none := by decide +kernel
  refine (settled_iff hroute hmac (.start oneIface) 17 (fun _ => 7) 0).mpr ?_
  exact ⟨42, ⟨onlyRoute, hiface, by decide, by decide, rfl⟩, Or.inl (by decide), rfl,
    Or.inr (Or.inl rfl)⟩

/-- The same stack after a run of the handler, which had nothing to do. -/
def handlerRun : Stack := { oneIface with defer := { emptyQueue with deferInhibit := true } }

/-- The packet is in no queue, and the caller is told that it is deferred. -/
theorem silently_lost :
    Reachable ⟨.ofSign, fun _ => 42⟩ handlerRun ∧
      handlerRun.rib.ipRouteFindByNetwork 0x0a000005 = some (some onlyRoute) ∧
      cachedHaddr handlerRun.arp 0x0a000005 = some none ∧
      ¬ Settled ⟨.ofSign, fun _ => 42⟩ handlerRun 0x0a000001 0x0a000005 17 (fun _ => 7) 3 := by
  have hroute : handlerRun.rib.ipRouteFindByNetwork 0x0a000005 = some (some onlyRoute) := by
    decide +kernel
  have hiface : handlerRun.rib.ipRouteFindByIface 0x0a000001 = some (some onlyRoute) := by
    decide +kernel
  have hmac : cachedHaddr handlerRun.arp 0x0a000005 = some none := by decide +kernel
  refine ⟨.step .ipDeferHandler (.start oneIface) rfl, hroute, hmac, ?_⟩
  exact not_settled_inhibited hroute hmac ⟨onlyRoute, hiface, by decide, by decide, rfl⟩
    (Or.inl (by decide)) rfl

end Xstack.Net.Unresolved
