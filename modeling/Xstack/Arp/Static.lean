import Xstack.Arp.Invariant
import Xstack.Arp.Remember
import Xstack.Net.Frame
import Xstack.Net.Input

/-! # The static entry of the interface

`ip_config` puts the address of the interface into the ARP cache as a static entry. No address from
the network is put in its place: it is in the first slot, which the search of `arp_cache_insert` leaves
out while it has no better candidate (`scan_ne_zero`). But nothing keeps a frame from naming the
address itself. -/

namespace Xstack.Arp.Static

open Xstack.Config Xstack.Lib.Bytes Xstack.Lib.Program Xstack.Ether Xstack.Arp.Cache
open Xstack.Ip.Header Xstack.Net.State Xstack.Net.Send Xstack.Net.Input Xstack.Net.Frame

/-! ### Events -/

/-- What happens to the stack from outside. -/
inductive Event
  /-- A frame, and what earlier frames have left in the buffer. -/
  | frame (hdr : EtherHdr) (received : List UInt8) (rxBuffer : Buf)
  /-- The periodic tasks, in the order of the linker set. -/
  | tick (deltaTime : ℤ)

def Event.act (env : Env) : Event → Act Unit
  | .frame hdr received rxBuffer => ingress env hdr received rxBuffer
  | .tick deltaTime => do
    arpCacheUpdate deltaTime
    ipDeferHandler env

/-- The stack after a sequence of events. -/
def run (env : Env) (s : Stack) (events : List Event) : Stack :=
  events.foldl (fun s event => (event.act env s).2) s

/-- **The entry for `addr` is there, static, with the address of the interface.** This is about the
slots of `arp_cache`; `arp_cache_get_entry` need not find it, as the tree can lose an entry. -/
def HasStatic (c : ArpCache) (addr : InAddr) (mac : MacAddr) : Prop :=
  ∃ i, c.slot i = ⟨addr, mac, ArpCacheEntryType.static.toInt⟩ ∧
    ∀ j, (c.slot j).ipAddr = addr → j = i

/-- The sender of a frame that `arp_input` or `ip_input` puts into the cache. -/
def Event.sender? : Event → Option InAddr
  | .frame hdr received rxBuffer =>
    let b := put rxBuffer 0 received
    let arp := arpNtoh (ArpIp.load b)
    let ip := hdrOf (some hdr.hSrc) b
    if hdr.hProto = etherProtoArp then
      if arp.arpHtype = arpHtypeEther ∧ arp.arpPtype = etherProtoIpv4 then some arp.arpSpa else none
    else if hdr.hProto = etherProtoIpv4 then
      if ipAccepts ip received.length then some ip.ipSrc else none
    else none
  | .tick _ => none

/-! ### The cache -/

/-- The static entry is in the first slot. -/
structure First (addr : InAddr) (mac : MacAddr) (c : ArpCache) : Prop where
  entry : c.slot 0 = ⟨addr, mac, ArpCacheEntryType.static.toInt⟩
  only : ∀ j, (c.slot j).ipAddr = addr → j = 0

variable {addr ipAddr : InAddr} {mac haddr : MacAddr} {type : ArpCacheEntryType} {c c' : ArpCache}

theorem First.hasStatic (h : First addr mac c) : HasStatic c addr mac := ⟨0, h.entry, h.only⟩

theorem better_mem {entry : Option Slot} {it i : Slot} (h : c.better entry it = some i) :
    i = it ∨ entry = some i := by
  unfold ArpCache.better at h
  cases entry with
  | none =>
    dsimp only at h
    split_ifs at h
    · exact Or.inl (Option.some.inj h).symm
    · exact Or.inl (Option.some.inj h).symm
  | some e =>
    dsimp only at h
    split_ifs at h
    · exact Or.inl (Option.some.inj h).symm
    · exact Or.inl (Option.some.inj h).symm
    · exact Or.inr h

theorem scan_mem {i : Slot} : ∀ (l : List Slot) {entry : Option Slot},
    c.scan ipAddr l entry = some i → i ∈ l ∨ entry = some i
  | [], _, h => Or.inr h
  | it :: l, entry, h => by
    unfold ArpCache.scan at h
    split_ifs at h with hip
    · exact Or.inl (List.mem_cons.mpr (Or.inl (Option.some.inj h).symm))
    · rcases scan_mem l h with hi | hi
      · exact Or.inl (List.mem_cons_of_mem _ hi)
      · exact (better_mem hi).imp_left fun h => List.mem_cons.mpr (Or.inl h)

/-- **The first slot is not chosen for another address:** a static entry is no first candidate. -/
theorem scan_ne_zero (h : First addr mac c) (hne : ipAddr ≠ addr) :
    c.scan ipAddr (List.finRange xstackArpCacheSize) none ≠ some 0 := by
  have hall : List.finRange xstackArpCacheSize = 0 :: (List.finRange 49).map Fin.succ :=
    List.finRange_succ
  have hip : (c.slot 0).ipAddr ≠ ipAddr := by
    rw [h.entry]
    exact hne.symm
  have hbetter : c.better none 0 = none := by
    simp [ArpCache.better, h.entry, arpCacheFree, ArpCacheEntryType.toInt]
  intro hscan
  rw [hall, ArpCache.scan, if_neg hip, hbetter] at hscan
  rcases scan_mem _ hscan with h0 | h0
  · obtain ⟨j, -, hj⟩ := List.mem_map.mp h0
    exact Fin.succ_ne_zero j hj
  · cases h0

theorem First.insert {retval : ℤ} (h : First addr mac c) (hne : ipAddr ≠ addr)
    (hins : c.arpCacheInsert ipAddr haddr type = some (retval, c')) : First addr mac c' := by
  rcases Invariant.insert_slots hins with hslot | ⟨e, hscan, hslot⟩
  · exact ⟨by rw [hslot, h.entry], fun j hj => h.only j (by rwa [hslot] at hj)⟩
  · have he : e ≠ 0 := by
      rintro rfl
      exact scan_ne_zero h hne hscan
    refine ⟨by rw [hslot, Function.update_of_ne he.symm, h.entry], fun j hj => ?_⟩
    rw [hslot] at hj
    by_cases hje : j = e
    · rw [hje, Function.update_self] at hj
      exact absurd hj hne
    · rw [Function.update_of_ne hje] at hj
      exact h.only j hj

theorem First.update {deltaTime : ℤ} (h : First addr mac c)
    (hupd : c.arpCacheUpdate deltaTime = some c') : First addr mac c' := by
  unfold ArpCache.arpCacheUpdate at hupd
  split_ifs at hupd
  rw [← Option.some.inj hupd]
  refine ⟨?_, fun j hj => h.only j ?_⟩
  · show ArpCache.ageSlot deltaTime (c.slot 0) = _
    rw [h.entry]
    rfl
  · have hage : (ArpCache.ageSlot deltaTime (c.slot j)).ipAddr = (c.slot j).ipAddr := by
      unfold ArpCache.ageSlot
      split_ifs <;> rfl
    rw [← hage]
    exact hj

/-! ### The functions of the stack -/

section

variable (addr mac)

/-- A step keeps the static entry. -/
def Keeps (s t : Stack) : Prop := First addr mac s.arp → First addr mac t.arp

variable {addr mac}

theorem Keeps.refl (s : Stack) : Keeps addr mac s s := id

theorem Keeps.trans {s t u : Stack} (h : Keeps addr mac s t) (h' : Keeps addr mac t u) :
    Keeps addr mac s u := h' ∘ h

theorem keeps_sending {α : Type} {x : Act α} (h : Steps Sending x) : Steps (Keeps addr mac) x := by
  refine h.mono ?_
  rintro s t ⟨_, _, _, _, _, rfl⟩
  exact id

theorem keeps_quiet {α : Type} {x : Act α} (h : Steps Quiet x) : Steps (Keeps addr mac) x :=
  keeps_sending (h.mono fun _ _ => Quiet.sending)

variable (env : Env)

/-- **The insert of another address.** -/
theorem arpCacheInsert_keeps (hne : ipAddr ≠ addr) (haddr : MacAddr) (type : ArpCacheEntryType) :
    Steps (Keeps addr mac) (Net.State.arpCacheInsert ipAddr haddr type) := by
  intro s hs
  unfold Net.State.arpCacheInsert
  rw [get_bind]
  rcases hins : s.arp.arpCacheInsert ipAddr haddr type with _ | ⟨retval, c⟩
  · exact hs
  · have hfirst := hs.insert hne hins
    rw [ofOption_some, bind_pure]
    dsimp only
    rw [modify_bind]
    split_ifs
    · exact hfirst
    · exact hfirst

theorem arpInput_keeps (b : Buf) (bsize : ℕ)
    (hne : (arpNtoh (ArpIp.load b)).arpHtype = arpHtypeEther →
      (arpNtoh (ArpIp.load b)).arpPtype = etherProtoIpv4 → (arpNtoh (ArpIp.load b)).arpSpa ≠ addr) :
    Steps (Keeps addr mac) (arpInput env b bsize) := by
  unfold arpInput
  refine .ite (fun _ => .pure .refl _) fun h1 => .ite (fun _ => .pure .refl _) fun h2 => ?_
  push Not at h1 h2
  refine .bind .trans (arpCacheInsert_keeps (hne h1 h2) _ _) fun _ => ?_
  refine .bind .trans (keeps_sending (ipDeferHandler_sending env)) fun _ => ?_
  refine .ite (fun _ => ?_) fun _ => .pure .refl _
  refine .bind .trans (keeps_quiet (ipRouteFindByIface_quiet _)) fun route => ?_
  cases route with
  | none => exact .pure .refl _
  | some route =>
    exact .bind .trans (keeps_quiet (etherHandle2addr_quiet _)) fun _ => .pure .refl _

theorem protoInput_keeps (proto : Proto) (ip : IpHdr) (b : Buf) (o bsize : ℕ) :
    Steps (Keeps addr mac) (protoInput env proto ip b o bsize) := by
  refine (protoInput_handled env proto ip b o bsize).mono ?_
  rintro s _ ⟨_, _, rfl⟩
  exact id

theorem callHandler_keeps (proto : Proto) (ip : IpHdr) (b : Buf) (size : ℕ) :
    Steps (Keeps addr mac) (callHandler env proto ip b size) := by
  unfold callHandler
  refine .bind .trans (.modify fun _ => id) fun _ => ?_
  refine .bind .trans (protoInput_keeps env _ _ _ _ _) fun x => ?_
  exact .ite (fun _ => .pure .refl _) fun _ => .ite (fun _ => .pure .refl _) fun _ => .pure .refl _

/-- `ip_input` of a packet whose sender is another one, or not put into the cache. -/
theorem ipInputWith_keeps {fragmentInput : IpHdr → Buf → Act ℤ}
    (hfrag : ∀ ip b, Steps (Keeps addr mac) (fragmentInput ip b)) (src : Option MacAddr) (b : Buf)
    (bsize : ℕ) (hne : src.isSome → ipAccepts (hdrOf src b) bsize → (hdrOf src b).ipSrc ≠ addr) :
    Steps (Keeps addr mac) (ipInputWith env fragmentInput src b bsize) := by
  unfold ipInputWith
  refine .bind .trans ?_ fun dispatch => ?_
  · unfold ipCheck
    refine .ite (fun hacc => ?_) fun _ => .pure .refl _
    refine .bind .trans ?_ fun _ =>
      .bind .trans (keeps_quiet (ipRouteFindByIface_quiet _)) fun _ => .pure .refl _
    cases src with
    | none => exact .pure .refl _
    | some src =>
      exact .bind .trans (arpCacheInsert_keeps (hne rfl hacc) _ _) fun _ => .pure .refl _
  · match dispatch with
    | none => exact .pure .refl _
    | some (.unreachable _ _) => exact .pure .refl _
    | some (.fragment _) => exact .bind .trans (hfrag _ _) fun _ => .pure .refl _
    | some (.handler _ _) => exact callHandler_keeps env _ _ _ _

theorem ipFragmentInput_keeps (ip : IpHdr) (b : Buf) :
    Steps (Keeps addr mac) (ipFragmentInput env ip b) := by
  unfold ipFragmentInput
  refine .bind .trans (.get .refl) fun s => .bind .trans (.ofOption .refl _) fun x => ?_
  refine .bind .trans (.modify fun _ => id) fun _ => ?_
  match x.1 with
  | .emsgsize => exact .pure .refl _
  | .nobufs => exact .pure .refl _
  | .stored => exact .pure .refl _
  | .complete i =>
    -- the reassembled packet has no frame, so its sender is not put into the cache
    unfold completeFragments
    refine .bind .trans (.get .refl) fun s => .bind .trans ?_ fun y => ?_
    · exact ipInputWith_keeps env (fun _ _ => .stuck .refl) none _ _ fun h => by cases h
    · refine .bind .trans (.modify fun _ => id) fun _ => ?_
      refine .bind .trans (keeps_sending (ipSend_sending env _ _ _ _)) fun _ => ?_
      refine .bind .trans (.get .refl) fun s => ?_
      refine .bind .trans (.ofOption .refl _) fun pool => ?_
      exact .bind .trans (.modify fun _ => id) fun _ => .pure .refl _

/-- **An event that does not name the address.** -/
theorem event_keeps (event : Event) (h : event.sender? ≠ some addr) :
    Steps (Keeps addr mac) (event.act env) := by
  cases event with
  | tick deltaTime =>
    refine .bind .trans (fun s hs => ?_) fun _ => keeps_sending (ipDeferHandler_sending env)
    unfold Net.State.arpCacheUpdate
    rw [get_bind]
    rcases hupd : s.arp.arpCacheUpdate deltaTime with _ | c
    · exact hs
    · exact hs.update hupd
  | frame hdr received rxBuffer =>
    refine .bind .trans ?_ fun x => .ite (fun _ => ?_) fun _ => .pure .refl _
    · have hinput : ∀ fn, etherProtoInput env hdr (put rxBuffer 0 received) received.length = some fn →
          Steps (Keeps addr mac) fn := by
        intro fn hfn
        unfold etherProtoInput at hfn
        unfold Event.sender? at h
        split_ifs at hfn with h1 h2
        · rw [← Option.some.inj hfn]
          refine arpInput_keeps env _ _ fun ht hp heq => h ?_
          simp [h1, ht, hp, heq]
        · rw [← Option.some.inj hfn]
          refine ipInputWith_keeps env (ipFragmentInput_keeps env) _ _ _ fun _ hacc heq => h ?_
          simp only [if_neg h1, if_pos h2, if_pos hacc, heq]
      unfold etherInput
      rcases hfn : etherProtoInput env hdr (put rxBuffer 0 received) received.length with _ | fn
      · exact .bind .trans (keeps_quiet (setErrno_quiet _)) fun _ => .pure .refl _
      · refine .bind .trans (hinput fn hfn) fun y => .ite (fun _ => ?_) fun _ => .pure .refl _
        exact .bind .trans (keeps_quiet (setErrno_quiet _)) fun _ => .pure .refl _
    · unfold etherOutputReply
      refine .bind .trans (.bind .trans (keeps_quiet (etherSend_quiet env _ _ _ _ _)) fun _ => ?_)
        fun _ => .pure .refl _
      refine .ite (fun _ => ?_) fun _ => .pure .refl _
      exact .bind .trans (keeps_quiet (setErrno_quiet _)) fun _ => .pure .refl _

/-! ### Start-up, and then any events -/

theorem arpGratuitous_keeps (handle : ℤ) (spa : InAddr) :
    Steps (Keeps addr mac) (arpGratuitous env handle spa) := by
  refine .bind .trans (keeps_quiet (arpMsg_quiet _ _ _)) fun _ => ?_
  exact .bind .trans (keeps_quiet (etherSend_quiet env _ _ _ _ _)) fun _ => .pure .refl _

theorem ipAnnounce_keeps (handle : ℤ) (ipAddr netmask : InAddr) :
    Steps (Keeps addr mac) (ipAnnounce env handle ipAddr netmask) := by
  refine .bind .trans (.get .refl) fun s => .bind .trans (.ofOption .refl _) fun rib => ?_
  refine .bind .trans (.modify fun _ => id) fun _ => ?_
  refine .bind .trans (arpGratuitous_keeps env _ _) fun _ => ?_
  refine .bind .trans (arpGratuitous_keeps env _ _) fun _ => ?_
  exact .bind .trans (arpGratuitous_keeps env _ _) fun _ => .pure .refl _

/-- **`ip_config` puts the address of the interface into the first slot.** -/
theorem ipConfig_first {s t : Stack} {handle retval : ℤ} {netmask : InAddr}
    (hs : s.arp = ArpCache.init) (haddr : addr ≠ 0)
    (h : ipConfig env handle addr netmask s = (some retval, t)) : First addr s.mac t.arp := by
  unfold ipConfig at h
  have hmac : etherHandle2addr handle s = (some (some s.mac), s) := by
    unfold etherHandle2addr at h ⊢
    split_ifs at h ⊢
    · cases h
    · cases h
    · rfl
  rw [bind_of_some hmac] at h
  dsimp only at h
  obtain ⟨c, hins, hslot, -⟩ := Remember.insert_zero s.mac .static Remember.allZero_init haddr
  rw [← hs] at hins
  obtain ⟨e, hrun⟩ := arpCacheInsert_run hins
  rw [bind_of_some hrun] at h
  have hfirst : First addr s.mac c := by
    refine ⟨by rw [hslot, Function.update_self], fun j hj => ?_⟩
    by_contra hne
    rw [hslot, Function.update_of_ne hne] at hj
    exact haddr hj.symm
  have hkeeps : Steps (Keeps addr s.mac) (ipAnnounce env handle addr netmask) :=
    ipAnnounce_keeps env handle addr netmask
  have hfinal := hkeeps { s with arp := c, errno := e } hfirst
  rwa [h] at hfinal

end

/-- **No event changes the static entry of the interface,** unless it names its address as the
sender. -/
theorem static_kept (env : Env) {s t : Stack} {handle retval : ℤ} {addr netmask : InAddr}
    (hs : s.arp = ArpCache.init) (haddr : addr ≠ 0)
    (hconfig : ipConfig env handle addr netmask s = (some retval, t)) (events : List Event)
    (h : ∀ event ∈ events, event.sender? ≠ some addr) :
    HasStatic (run env t events).arp addr s.mac := by
  have hrun : ∀ (events : List Event) (t : Stack), (∀ event ∈ events, event.sender? ≠ some addr) →
      First addr s.mac t.arp → First addr s.mac (run env t events).arp := by
    intro events
    induction events with
    | nil => exact fun _ _ ht => ht
    | cons event events ih =>
      intro t h ht
      refine ih _ (fun x hx => h x (List.mem_cons_of_mem _ hx)) ?_
      exact event_keeps env event (h event List.mem_cons_self) t ht
  exact (hrun events t h (ipConfig_first env hs haddr hconfig)).hasStatic

/-- A frame with an ARP request from `spa`, whose sender is at 5:5:5:5:5:5, for 10.0.0.2. -/
def arpFrame (spa : InAddr) : Event :=
  .frame ⟨macBroadcastAddr, fun _ => 5, etherProtoArp⟩ (arpNtoh ⟨arpHtypeEther, etherProtoIpv4,
    6, 4, arpOperRequest, fun _ => 5, spa, fun _ => 0, 0x0a000002⟩).bytes fun _ => 0

/-- The stack once 10.0.0.2/24 is configured. -/
def configured : Stack :=
  (ipConfig ⟨.ofSign, fun _ => 42⟩ 0 0x0a000002 0xffffff00 (Stack.init fun _ => 2)).2

theorem static_kept_request :
    HasStatic (run ⟨.ofSign, fun _ => 42⟩ configured [arpFrame 0x0a000005, .tick 10]).arp 0x0a000002
      fun _ => 2 := by
  have hret : (ipConfig ⟨.ofSign, fun _ => 42⟩ 0 0x0a000002 0xffffff00
      (Stack.init fun _ => 2)).1 = some 0 := by decide +kernel
  have hconfig : ipConfig ⟨.ofSign, fun _ => 42⟩ 0 0x0a000002 0xffffff00 (Stack.init fun _ => 2) =
      (some 0, configured) := Prod.ext hret rfl
  exact static_kept _ rfl (by decide) hconfig _ (by decide +kernel)

/-- The frame names 10.0.0.2 as its own address, and gets it. -/
theorem address_taken :
    ¬ HasStatic (run ⟨.ofSign, fun _ => 42⟩ configured [arpFrame 0x0a000002]).arp 0x0a000002
      fun _ => 2 := by
  have hage : ∀ i, ((run ⟨.ofSign, fun _ => 42⟩ configured
      [arpFrame 0x0a000002]).arp.slot i).age ≠ -1 := by decide +kernel
  rintro ⟨i, hi, -⟩
  exact hage i (congrArg ArpCacheEntry.age hi)

end Xstack.Arp.Static
