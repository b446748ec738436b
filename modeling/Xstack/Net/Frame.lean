import Xstack.Net.Send

/-! # What sending leaves alone

`ether_send`, `arp_cache_get_haddr`, `ip_send`: they change `errno`, the history of frames and the
counter of packets (`Quiet`), and `ip_send` may push its packet (`ipSend_steps`). With
`ip_defer_handler` the whole queue may change (`Sending`). -/

namespace Xstack.Net.Frame

open Xstack.Config Xstack.Lib.Bytes Xstack.Lib.Program Xstack.Ether Xstack.Ip.Header Xstack.Ip.Route
open Xstack.Net.State Xstack.Net.Send

/-- Nothing but `errno`, the frames sent and the counter of packets has changed. -/
def Quiet (s t : Stack) : Prop :=
  ∃ e tx id, t = { s with errno := e, tx := tx, ipGlobalId := id }

theorem Quiet.refl (s : Stack) : Quiet s s := ⟨s.errno, s.tx, s.ipGlobalId, rfl⟩

theorem Quiet.trans {s t u : Stack} (h : Quiet s t) (h' : Quiet t u) : Quiet s u := by
  obtain ⟨_, _, _, rfl⟩ := h
  obtain ⟨e, tx, id, rfl⟩ := h'
  exact ⟨e, tx, id, rfl⟩

variable (env : Env)

theorem setErrno_quiet (e : ℤ) : Steps Quiet (setErrno e) := fun s => ⟨e, s.tx, s.ipGlobalId, rfl⟩

theorem etherSend_quiet (handle : ℤ) (dst : MacAddr) (proto : UInt16) (buf : Buf) (bsize : ℕ) :
    Steps Quiet (etherSend env handle dst proto buf bsize) := by
  unfold etherSend
  refine .ite (fun _ => .pure .refl _) fun _ => .ite (fun _ => ?_) fun _ => .ite (fun _ => ?_) fun _ => ?_
  · exact .bind .trans (setErrno_quiet _) fun _ => .pure .refl _
  · exact .stuck .refl
  · refine .bind .trans (.get .refl) fun s => .bind .trans ?_ fun _ => ?_
    · exact .modify fun s => ⟨s.errno, _, s.ipGlobalId, rfl⟩
    · dsimp only
      exact .ite (fun _ => .bind .trans (setErrno_quiet _) fun _ => .pure .refl _) fun _ =>
        .pure .refl _

/-- A frame that is sent is the last one in the history. -/
theorem etherSend_ok {handle : ℤ} {dst : MacAddr} {proto : UInt16} {buf : Buf} {bsize : ℕ}
    {s t : Stack} {r : ℤ} (h : etherSend env handle dst proto buf bsize s = (some r, t))
    (hr : 0 ≤ r) :
    t.tx = s.tx ++ [etherFrame dst s.mac proto (slice buf bsize)] ∧ t.mac = s.mac := by
  unfold etherSend at h
  split_ifs at h with h1 h2 h3
  · have heq : -EMSGSIZE = r := Option.some.inj (Prod.mk.inj h).1
    have : EMSGSIZE = 90 := rfl
    omega
  · have heq : -ENODEV = r := Option.some.inj (Prod.mk.inj h).1
    have : ENODEV = 19 := rfl
    omega
  · cases h
  · rw [get_bind, modify_bind] at h
    dsimp only at h
    split_ifs at h
    · rw [← (Prod.mk.inj h).2]
      exact ⟨rfl, rfl⟩
    · rw [← (Prod.mk.inj h).2]
      exact ⟨rfl, rfl⟩

theorem etherHandle2addr_quiet (handle : ℤ) : Steps Quiet (etherHandle2addr handle) := by
  unfold etherHandle2addr
  refine .ite (fun _ => ?_) fun _ => .ite (fun _ => .stuck .refl) fun _ => ?_
  · exact .bind .trans (setErrno_quiet _) fun _ => .pure .refl _
  · exact .bind .trans (.get .refl) fun _ => .pure .refl _

theorem arpMsg_quiet (handle : ℤ) (spa tpa : InAddr) : Steps Quiet (arpMsg handle spa tpa) :=
  .bind .trans (etherHandle2addr_quiet handle) fun _ => .pure .refl _

theorem arpRequest_quiet (handle : ℤ) (spa tpa : InAddr) :
    Steps Quiet (arpRequest env handle spa tpa) :=
  .bind .trans (arpMsg_quiet handle spa tpa) fun _ =>
    .bind .trans (etherSend_quiet env _ _ _ _ _) fun _ => .pure .refl _

theorem ipRouteFindByIface_quiet (addr : InAddr) : Steps Quiet (ipRouteFindByIface addr) := by
  unfold ipRouteFindByIface
  refine .bind .trans (.get .refl) fun _ => .bind .trans (.ofOption .refl _) fun _ => ?_
  dsimp only
  exact .ite (fun _ => .bind .trans (setErrno_quiet _) fun _ => .pure .refl _) fun _ => .pure .refl _

theorem ipRouteFindByNetwork_quiet (addr : InAddr) : Steps Quiet (ipRouteFindByNetwork addr) := by
  unfold ipRouteFindByNetwork
  refine .bind .trans (.get .refl) fun _ => .bind .trans (.ofOption .refl _) fun _ => ?_
  dsimp only
  exact .ite (fun _ => .bind .trans (setErrno_quiet _) fun _ => .pure .refl _) fun _ => .pure .refl _

theorem arpCacheGetHaddr_quiet (iface ipAddr : InAddr) :
    Steps Quiet (arpCacheGetHaddr env iface ipAddr) := by
  unfold arpCacheGetHaddr
  refine .bind .trans (.get .refl) fun s => .bind .trans (.ofOption .refl _) fun haddr => ?_
  cases haddr with
  | some haddr => exact .pure .refl _
  | none =>
    refine .bind .trans (ipRouteFindByIface_quiet iface) fun route => ?_
    cases route with
    | none => exact .pure .refl _
    | some route =>
      refine .bind .trans (arpRequest_quiet env _ _ _) fun retval => ?_
      dsimp only
      exact .ite (fun _ => .bind .trans (setErrno_quiet _) fun _ => .pure .refl _) fun _ =>
        .pure .refl _

theorem sendLoop_quiet (handle : ℤ) (dstMac : MacAddr) (ipHdr : IpHdr) : ∀ (fuel : ℕ) (b : Buf)
    (bytes offset : ℕ) (retval : ℤ),
    Steps Quiet (sendLoop env handle dstMac ipHdr fuel b bytes offset retval)
  | 0, _, _, _, _ => .stuck .refl
  | fuel + 1, b, bytes, offset, retval => by
    unfold sendLoop
    refine .bind .trans (etherSend_quiet env _ _ _ _ _) fun eret => ?_
    refine .ite (fun _ => .pure .refl _) fun _ => .ite (fun _ => ?_) fun _ => .pure .refl _
    exact sendLoop_quiet handle dstMac ipHdr fuel _ _ _ _

theorem ipSendTo_quiet (route : IpRoute) (dstMac : MacAddr) (dst : InAddr) (proto : UInt8) (buf : Buf)
    (bsize : ℕ) : Steps Quiet (ipSendTo env route dstMac dst proto buf bsize) := by
  unfold ipSendTo
  refine .ite (fun _ => .stuck .refl) fun _ => .bind .trans (.get .refl) fun s => ?_
  refine .bind .trans (.modify fun s => ⟨s.errno, s.tx, _, rfl⟩) fun _ => ?_
  refine .ite (fun _ => etherSend_quiet env _ _ _ _ _) fun _ => ?_
  refine .bind .trans (sendLoop_quiet env _ _ _ _ _ _ _ _) fun retval => ?_
  exact .ite (fun _ => .bind .trans (setErrno_quiet _) fun _ => .pure .refl _) fun _ => .pure .refl _

/-! ### `ip_send` -/

/-- Nothing but what `Quiet` allows has changed, and perhaps the packet was pushed. -/
def Sent (dst : InAddr) (proto : UInt8) (buf : Buf) (bsize : ℕ) (s t : Stack) : Prop :=
  Quiet s t ∨ ∃ u, Quiet s u ∧
    Quiet { u with defer := (DeferQueue.ipDeferPush u.defer dst proto buf bsize).2 } t

/-- **What `ip_send` does to the state.** -/
theorem ipSend_steps (dst : InAddr) (proto : UInt8) (buf : Buf) (bsize : ℕ) :
    Steps (Sent dst proto buf bsize) (ipSend env dst proto buf bsize) := by
  intro s
  unfold ipSend
  have hroute := ipRouteFindByNetwork_quiet dst s
  rcases hr : ipRouteFindByNetwork dst s with ⟨_ | _ | route, t⟩ <;> rw [hr] at hroute
  · rw [bind_of_none hr]
    exact Or.inl hroute
  · rw [bind_of_some hr]
    exact Or.inl (hroute.trans ⟨_, t.tx, t.ipGlobalId, rfl⟩)
  · rw [bind_of_some hr]
    have harp := arpCacheGetHaddr_quiet env route.rIface dst t
    dsimp only
    rcases ha : arpCacheGetHaddr env route.rIface dst t with ⟨_ | _ | mac, u⟩ <;> rw [ha] at harp
    · rw [bind_of_none ha]
      exact Or.inl (hroute.trans harp)
    · rw [bind_of_some ha]
      dsimp only
      unfold ipSendLater
      rw [get_bind]
      split_ifs with he
      · refine Or.inr ⟨u, hroute.trans harp, ?_⟩
        have hp : ipDeferPush dst proto buf bsize u =
            (some (DeferQueue.ipDeferPush u.defer dst proto buf bsize).1,
              { u with defer := (DeferQueue.ipDeferPush u.defer dst proto buf bsize).2 }) := rfl
        rw [bind_of_some hp]
        split_ifs
        · exact Quiet.refl _
        · exact ⟨_, u.tx, u.ipGlobalId, rfl⟩
      · exact Or.inl (hroute.trans harp)
    · rw [bind_of_some ha]
      exact Or.inl ((hroute.trans harp).trans (ipSendTo_quiet env _ _ _ _ _ _ u))

/-! ### `ip_defer_handler` -/

/-- Nothing has changed but what `Quiet` allows and the queue of deferred packets. -/
def Sending (s t : Stack) : Prop :=
  ∃ defer log, Quiet { s with defer := defer, deferLog := log } t

theorem Sending.refl (s : Stack) : Sending s s := ⟨s.defer, s.deferLog, .refl s⟩

theorem Sending.trans {s t u : Stack} (h : Sending s t) (h' : Sending t u) : Sending s u := by
  obtain ⟨_, _, _, _, _, rfl⟩ := h
  obtain ⟨defer, log, e, tx, id, rfl⟩ := h'
  exact ⟨defer, log, e, tx, id, rfl⟩

theorem Quiet.sending {s t : Stack} (h : Quiet s t) : Sending s t := ⟨s.defer, s.deferLog, h⟩

theorem ipSend_sending (dst : InAddr) (proto : UInt8) (buf : Buf) (bsize : ℕ) :
    Steps Sending (ipSend env dst proto buf bsize) := by
  refine (ipSend_steps env dst proto buf bsize).mono fun s t h => ?_
  rcases h with h | ⟨u, hu, ht⟩
  · exact h.sending
  · exact hu.sending.trans ⟨_, u.deferLog, ht⟩

theorem deferLoop_sending : ∀ fuel, Steps Sending (deferLoop env fuel)
  | 0 => .stuck .refl
  | fuel + 1 => by
    have hmod : ∀ (f : Stack → DeferQueue) (g : Stack → List DeferEvent),
        Steps Sending (modify fun s => { s with defer := f s, deferLog := g s }) := fun f g =>
      .modify fun s => ⟨f s, g s, .refl _⟩
    have hnext : Steps Sending (ipDeferDrop >>= fun _ => deferLoop env fuel) :=
      .bind .trans (hmod _ _) fun _ => deferLoop_sending fuel
    unfold deferLoop
    refine .bind .trans (.get .refl) fun s => .ite (fun _ => .pure .refl _) fun _ => ?_
    refine .bind .trans (hmod _ Stack.deferLog) fun _ => .ite (fun _ => hnext) fun _ => ?_
    refine .bind .trans ?_ fun retval => .bind .trans (.get .refl) fun s => ?_
    · exact .bind .trans (hmod Stack.defer _) fun _ => ipSend_sending env _ _ _ _
    · exact .ite (fun _ => hmod _ Stack.deferLog) fun _ => hnext

/-- **`ip_defer_handler` only sends.** -/
theorem ipDeferHandler_sending : Steps Sending (ipDeferHandler env) :=
  .bind .trans (.modify fun s => ⟨_, s.deferLog, .refl _⟩) fun _ => deferLoop_sending env _

end Xstack.Net.Frame
