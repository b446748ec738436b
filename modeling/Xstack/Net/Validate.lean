import Xstack.Arp.Remember
import Xstack.Net.Input

/-! # Header validation

What `ip_input` passes on, from both of its callers: frames, with a sender, and reassembled
datagrams, without one. Its tests let through a version other than 4 (only one bit is tested) and a
header that is longer than the packet; for all other packets the sizes are right (`guarded_iff`). -/

namespace Xstack.Net.Validate

open Xstack.Config Xstack.Lib.Bytes Xstack.Lib.Program Xstack.Ip.Header Xstack.Ip.Fragment
open Xstack.Arp.Cache Xstack.Arp.Remember Xstack.Net.State Xstack.Net.Input

/-- The version nibble. -/
def version (ip : IpHdr) : UInt8 := ip.ipVhl >>> 4

/-- The size that is passed on. -/
def Dispatch.size : Dispatch → ℕ
  | .unreachable _ size => size
  | .fragment size => size
  | .handler _ size => size

@[simp] theorem size_unreachable (code : UInt8) (size : ℕ) :
    Dispatch.size (.unreachable code size) = size := rfl

@[simp] theorem size_fragment (size : ℕ) : Dispatch.size (.fragment size) = size := rfl

@[simp] theorem size_handler (proto : Proto) (size : ℕ) :
    Dispatch.size (.handler proto size) = size := rfl

/-- **Whatever `ip_input` passes on,** in whatever state, is guarded by a sound header. -/
def Guarded (src : Option MacAddr) (b : Buf) (bsize : ℕ) : Prop :=
  ∀ s t call, ipCheck src (hdrOf src b) bsize s = (some (some call), t) →
    version (hdrOf src b) = 4 ∧ 20 ≤ ipHdrHlen (hdrOf src b) ∧
      ipHdrHlen (hdrOf src b) ≤ bsize ∧ Dispatch.size call + ipHdrHlen (hdrOf src b) = bsize

/-- The packets for which the tests are enough. -/
def Plain (ip : IpHdr) : Prop := version ip = 4 ∧ ipHdrHlen ip ≤ ip.ipLen.toNat

variable {src : Option MacAddr} {ip : IpHdr} {b : Buf} {bsize : ℕ} {s t : Stack} {call : Dispatch}

theorem ipCheck_accepts (h : ipCheck src ip bsize s = (some (some call), t)) :
    ipAccepts ip bsize ∧ ∃ isLocal, call = ipDispatch ip bsize isLocal := by
  unfold ipCheck at h
  split_ifs at h with hacc
  · refine ⟨hacc, ?_⟩
    rcases hl : learnSender src ip.ipSrc s with ⟨_ | _, u⟩
    · rw [bind_of_none hl] at h
      simp at h
    · rw [bind_of_some hl] at h
      rcases hr : ipRouteFindByIface ip.ipDst u with ⟨_ | route, v⟩
      · rw [bind_of_none hr] at h
        simp at h
      · rw [bind_of_some hr] at h
        have h : ipDispatch ip bsize route.isSome = call ∧ v = t := by simpa using h
        exact ⟨route.isSome, h.1.symm⟩
  · simp at h

/-- Nothing but `errno` and the ARP cache has changed. -/
def Learned (s t : Stack) : Prop := ∃ arp e, t = { s with arp := arp, errno := e }

theorem Learned.refl (s : Stack) : Learned s s := ⟨s.arp, s.errno, rfl⟩

theorem Learned.trans {s t u : Stack} (h : Learned s t) (h' : Learned t u) : Learned s u := by
  obtain ⟨_, _, rfl⟩ := h
  obtain ⟨arp, e, rfl⟩ := h'
  exact ⟨arp, e, rfl⟩

theorem setErrno_learned (e : ℤ) : Steps Learned (setErrno e) := fun s => ⟨s.arp, e, rfl⟩

theorem arpCacheInsert_learned (ipAddr : InAddr) (haddr : MacAddr) (type : ArpCacheEntryType) :
    Steps Learned (State.arpCacheInsert ipAddr haddr type) := by
  unfold State.arpCacheInsert
  refine .bind .trans (.get .refl) fun s => .bind .trans (.ofOption .refl _) fun r => ?_
  dsimp only
  refine .bind .trans (.modify fun s => ⟨_, s.errno, rfl⟩) fun _ => ?_
  exact .ite (fun _ => .bind .trans (setErrno_learned _) fun _ => .pure .refl _) fun _ =>
    .pure .refl _

/-- **What `ip_input` does before it makes a call.** -/
theorem ipCheck_learned (src : Option MacAddr) (ip : IpHdr) (bsize : ℕ) :
    Steps Learned (ipCheck src ip bsize) := by
  unfold ipCheck
  refine .ite (fun _ => .bind .trans ?_ fun _ => .bind .trans ?_ fun _ => .pure .refl _) fun _ =>
    .pure .refl _
  · unfold learnSender
    cases src with
    | none => exact .pure .refl _
    | some mac => exact .bind .trans (arpCacheInsert_learned _ _ _) fun _ => .pure .refl _
  · unfold ipRouteFindByIface
    refine .bind .trans (.get .refl) fun _ => .bind .trans (.ofOption .refl _) fun _ => ?_
    dsimp only
    exact .ite (fun _ => .bind .trans (setErrno_learned _) fun _ => .pure .refl _) fun _ =>
      .pure .refl _

/-- All calls get the same size. -/
theorem size_ipDispatch (hacc : ipAccepts ip bsize) (isLocal : Bool) :
    Dispatch.size (ipDispatch ip bsize isLocal) = sub64 bsize (ipHdrHlen ip) := by
  have hlen : ip.ipLen.toNat = bsize := hacc.2.2
  unfold ipDispatch
  rw [hlen]
  -- no `rfl` here: the kernel would count down from `2 ^ 64`
  split_ifs
  · exact size_unreachable _ _
  · exact size_fragment _
  · cases findProto ip.ipProto with
    | none => exact size_unreachable _ _
    | some proto => exact size_handler _ _

/-- `ip_input` of a packet for an interface, up to the call it makes. -/
theorem ipCheck_local {mac : MacAddr} {r : Ip.Route.IpRoute} (hacc : ipAccepts ip bsize)
    (harp : (s.arp.arpCacheInsert ip.ipSrc mac .dyn).isSome)
    (hlocal : s.rib.ipRouteFindByIface ip.ipDst = some (some r)) :
    ∃ arp e, ipCheck (some mac) ip bsize s =
      (some (some (ipDispatch ip bsize true)), { s with arp := arp, errno := e }) := by
  obtain ⟨⟨retval, arp⟩, ha⟩ := Option.isSome_iff_exists.mp harp
  obtain ⟨e, he⟩ := arpCacheInsert_run ha
  refine ⟨arp, e, ?_⟩
  have hl : learnSender (some mac) ip.ipSrc s = (some (), { s with arp := arp, errno := e }) :=
    bind_of_some he
  have hr : ipRouteFindByIface ip.ipDst { s with arp := arp, errno := e } =
      (some (some r), { s with arp := arp, errno := e }) := ipRouteFindByIface_found hlocal
  unfold ipCheck
  rw [if_pos hacc, bind_of_some hl, bind_of_some hr]
  rfl

/-- From start-up every packet that passes the tests leads to a call. -/
theorem ipCheck_init (src : Option MacAddr) (hacc : ipAccepts ip bsize) :
    ∃ t call, ipCheck src ip bsize (start (Stack.init fun _ => 0)) = (some (some call), t) := by
  have hlearn : ∃ c, learnSender src ip.ipSrc (start (Stack.init fun _ => 0)) =
      (some (), withArp (Stack.init fun _ => 0) c) := by
    obtain _ | mac := src
    · exact ⟨_, rfl⟩
    · by_cases hsrc : ip.ipSrc = 0
      · have h0 : ArpCache.init.arpCacheInsert ip.ipSrc mac .dyn = some (0, ArpCache.init) :=
          if_pos hsrc
        exact ⟨_, bind_of_some (act_insert h0)⟩
      · obtain ⟨c, hc, -⟩ := insert_zero mac .dyn allZero_init hsrc
        exact ⟨c, bind_of_some (act_insert hc)⟩
  obtain ⟨c, hc⟩ := hlearn
  rcases hr : ipRouteFindByIface ip.ipDst (withArp (Stack.init fun _ => 0) c) with ⟨r, u⟩
  have hroute : (ipRouteFindByIface ip.ipDst (withArp (Stack.init fun _ => 0) c)).1 = some none :=
    rfl
  rw [hr] at hroute
  dsimp only at hroute
  subst hroute
  refine ⟨u, ipDispatch ip bsize false, ?_⟩
  unfold ipCheck
  rw [if_pos hacc, bind_of_some hc, bind_of_some hr]
  rfl

/-- **`ip_input` guards the later size computations iff no packet passes its tests** with another
version than 4 or with a header longer than itself. -/
theorem guarded_iff (src : Option MacAddr) (b : Buf) (bsize : ℕ) :
    Guarded src b bsize ↔ (ipAccepts (hdrOf src b) bsize → Plain (hdrOf src b)) := by
  constructor
  · intro h hacc
    obtain ⟨t, call, hcall⟩ := ipCheck_init src hacc
    obtain ⟨h1, -, h3, -⟩ := h _ t call hcall
    exact ⟨h1, hacc.2.2 ▸ h3⟩
  · intro h s t call hcall
    obtain ⟨hacc, isLocal, rfl⟩ := ipCheck_accepts hcall
    obtain ⟨h1, h2⟩ := h hacc
    have hlen : (hdrOf src b).ipLen.toNat = bsize := hacc.2.2
    have hlt := (hdrOf src b).ipLen.toNat_lt
    rw [hlen] at h2
    refine ⟨h1, hacc.2.1, h2, ?_⟩
    rw [size_ipDispatch hacc, sub64_of_le h2 (by omega)]
    omega

/-- A frame of 46 bytes with a header of 60. -/
theorem long_header_passed : ¬ Guarded (some fun _ => 0) (ofBytes [0x4f, 0, 0, 46]) 46 := by
  intro h
  have hacc : ipAccepts (hdrOf (some fun _ => 0) (ofBytes [0x4f, 0, 0, 46])) 46 := by decide +kernel
  obtain ⟨t, call, hcall⟩ := ipCheck_init (some fun _ => 0) hacc
  exact absurd (h _ t call hcall).2.2.1 (by decide +kernel)

end Xstack.Net.Validate
