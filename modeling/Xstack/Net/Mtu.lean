import Xstack.Net.Fragmentation
import Xstack.Net.Interop

/-! # The sizes that `ip_send` hands down

`ip_send` compares the payload with `ETHER_DATA_LEN` where `ether_send` compares the packet. So a payload
of 1481 to 1500 bytes goes down as one packet that is too long, and all other payloads go down in packets
that fit (`inFrames_iff`). -/

namespace Xstack.Net.Mtu

open Xstack.Config Xstack.Lib.Bytes Xstack.Lib.Program Xstack.Ether Xstack.Ip.Header Xstack.Ip.Route
open Xstack.Net.State Xstack.Net.Send Xstack.Net.Reassemble Xstack.Net.Fragmentation Xstack.Net.Interop

section

variable (env : Env) (s : Stack) (route : IpRoute) (dstMac : MacAddr) (dst : InAddr) (proto : UInt8)
  (buf : Buf) (bsize : ℕ)

/-- The packet that `ip_send` builds. -/
def built : Buf := sendPacket (sendHdr route dst proto s.ipGlobalId (ipHdrSize + bsize)) buf bsize

/-- **The packets that `ip_send` hands to `ether_send`.** -/
def handed : List (List UInt8) :=
  if bsize ≤ etherDataLen then [slice (built s route dst proto buf bsize) (ipHdrSize + bsize)]
  else fragments (built s route dst proto buf bsize) (ipHdrSize + bsize)

/-- One `ether_send` for each of them, in order, and what `ip_send` makes of the result. -/
def sendHanded : Act ℤ := do
  let retval ← sendEach env route.rIfaceHandle dstMac (handed s route dst proto buf bsize) 0
  if ¬ bsize ≤ etherDataLen ∧ retval < 0 then
    setErrno (-retval)
    return -1
  else return retval

/-- `ether_send` refuses the packet: it returns `-EMSGSIZE` and has not sent anything. -/
def Refused (p : List UInt8) : Prop :=
  ∃ t, etherSend env route.rIfaceHandle dstMac etherProtoIpv4 (ofBytes p) p.length t =
    (some (-EMSGSIZE), t)

/-- **The packets fit:** none is longer than `ETHER_DATA_LEN` or refused, and there are several iff one
would be longer. -/
structure InFrames : Prop where
  size : ∀ p ∈ handed s route dst proto buf bsize, p.length ≤ etherDataLen
  accepted : ∀ p ∈ handed s route dst proto buf bsize, ¬ Refused env route dstMac p
  fragmented : 1 < (handed s route dst proto buf bsize).length ↔ ipHdrSize + bsize > etherDataLen

end

variable {env : Env} {s : Stack} {route : IpRoute} {dstMac : MacAddr} {dst : InAddr} {proto : UInt8}
  {buf : Buf} {bsize : ℕ}

/-- **What `ip_send` does is what it hands down.** -/
theorem ipSend_handed (hroute : s.rib.ipRouteFindByNetwork dst = some (some route))
    (hmac : cachedHaddr s.arp dst = some (some dstMac)) (hb : bsize ≤ 65515) :
    ipSend env dst proto buf bsize s =
      sendHanded env s route dstMac dst proto buf bsize { s with ipGlobalId := s.ipGlobalId + 1 } := by
  set t : Stack := { s with ipGlobalId := s.ipGlobalId + 1 }
  unfold sendHanded handed
  by_cases hle : bsize ≤ etherDataLen
  · rw [ipSend_resolved hroute hmac hle, if_pos hle]
    unfold sendEach
    rw [etherSend_slice]
    show etherSend env route.rIfaceHandle dstMac etherProtoIpv4 (built s route dst proto buf bsize)
      (ipHdrSize + bsize) t = _
    rcases hrun : etherSend env route.rIfaceHandle dstMac etherProtoIpv4
      (built s route dst proto buf bsize) (ipHdrSize + bsize) t with ⟨_ | eret, u⟩
    · rw [bind_of_none (bind_of_none hrun)]
    · have heach : (etherSend env route.rIfaceHandle dstMac etherProtoIpv4
          (built s route dst proto buf bsize) (ipHdrSize + bsize) >>= fun eret =>
            if eret < 0 then pure eret else sendEach env route.rIfaceHandle dstMac [] (0 + eret)) t =
          (some eret, u) := by
        rw [bind_of_some hrun]
        split_ifs
        · rfl
        · rw [Int.zero_add]
          rfl
      rw [bind_of_some heach, if_neg fun h => h.1 hle]
      rfl
  · rw [ipSend_known hroute hmac, if_neg hle]
    unfold ipSendTo
    rw [if_neg (by omega), get_bind, modify_bind, if_neg hle, ipSendFragments_eq]
    simp only [hle, not_false_eq_true, true_and]
    rfl

theorem not_refused {p : List UInt8} (hp : p.length ≤ etherDataLen) : ¬ Refused env route dstMac p := by
  rintro ⟨t, ht⟩
  have hsize : ¬ frameSize p.length > etherMaxlen + etherFcsLen := by
    unfold etherDataLen at hp
    unfold frameSize etherHeaderLen etherMinlen etherMaxlen etherFcsLen
    omega
  by_cases h1 : route.rIfaceHandle < etherMaxIf
  · by_cases h0 : 0 ≤ route.rIfaceHandle
    · rw [etherSend_run env h0 h1 hsize] at ht
      have htx := congrArg (fun r => r.2.tx.length) ht
      simp at htx
    · unfold etherSend at ht
      rw [if_neg hsize, if_neg (by omega), if_pos (by omega)] at ht
      cases ht
  · unfold etherSend at ht
    rw [if_neg hsize, if_pos (by omega)] at ht
    have hret : -ENODEV = -EMSGSIZE := Option.some.inj (congrArg Prod.fst ht)
    exact absurd hret (by decide)

theorem hlen_built : ipHdrHlen (IpHdr.load (built s route dst proto buf bsize)) = 20 := by
  obtain ⟨csum, hload⟩ := load_ipHton (copy (fun _ => 0) ipHdrSize buf bsize)
    (sendHdr route dst proto s.ipGlobalId (ipHdrSize + bsize))
  unfold built sendPacket
  rw [hload]
  show (ipVhlDefault &&& 0x0f).toNat * 4 = 20
  decide

theorem handed_exact (hb : bsize ≤ 65515) (hle : ¬ bsize ≤ etherDataLen) :
    Exact (built s route dst proto buf bsize) (ipHdrSize + bsize) (handed s route dst proto buf bsize) := by
  have hhdr : ipHdrSize = 20 := rfl
  have hlen : ipHdrHlen (IpHdr.load (built s route dst proto buf bsize)) = 20 := hlen_built
  unfold handed
  rw [if_neg hle]
  exact fragments_exact hlen.ge (by omega) (by omega)

/-- No packet is too long, unless one goes down that is not cut. -/
theorem length_handed_le (hb : bsize ≤ 65515) (h : bsize ≤ 1480 ∨ 1500 < bsize) :
    ∀ p ∈ handed s route dst proto buf bsize, p.length ≤ etherDataLen := by
  have hmax : etherDataLen = 1500 := rfl
  have hhdr : ipHdrSize = 20 := rfl
  by_cases hle : bsize ≤ etherDataLen
  · unfold handed
    rw [if_pos hle]
    simp only [List.mem_singleton, forall_eq, slice_length]
    omega
  · intro p hp
    obtain ⟨init, rest, heq⟩ := List.append_of_mem hp
    exact ((handed_exact hb hle).each init p rest heq).mtu

/-- A payload that is cut goes down in several packets: a single one would hold all of it. -/
theorem one_lt_length_handed (hb : bsize ≤ 65515) (hlt : 1500 < bsize) :
    1 < (handed s route dst proto buf bsize).length := by
  have hmax : etherDataLen = 1500 := rfl
  have hhdr : ipHdrSize = 20 := rfl
  have hexact : Exact (built s route dst proto buf bsize) (ipHdrSize + bsize)
      (handed s route dst proto buf bsize) := handed_exact hb (by omega)
  have htotal := hexact.total
  rw [hlen_built] at htotal
  by_contra hone
  rcases hps : handed s route dst proto buf bsize with _ | ⟨p, ps⟩
  · rw [hps] at htotal
    simp at htotal
    omega
  · rw [hps] at hone htotal
    have hnil : ps = [] := by
      rw [List.length_cons] at hone
      exact List.length_eq_zero_iff.mp (by omega)
    subst hnil
    have hlen := length_handed_le hb (Or.inr hlt) p (by rw [hps]; exact List.mem_singleton.mpr rfl)
    simp at htotal
    omega

/-- **The packets fit iff the payload is not of 1481 to 1500 bytes.** -/
theorem inFrames_iff (hroute : s.rib.ipRouteFindByNetwork dst = some (some route))
    (hmac : cachedHaddr s.arp dst = some (some dstMac)) (hb : bsize ≤ 65515) :
    ipSend env dst proto buf bsize s = sendHanded env s route dstMac dst proto buf bsize
        { s with ipGlobalId := s.ipGlobalId + 1 } ∧
      (InFrames env s route dstMac dst proto buf bsize ↔ bsize ≤ 1480 ∨ 1500 < bsize) := by
  have hmax : etherDataLen = 1500 := rfl
  have hhdr : ipHdrSize = 20 := rfl
  refine ⟨ipSend_handed hroute hmac hb, fun h => ?_, fun h => ?_⟩
  · by_contra hbad
    have hsize := h.size
    unfold handed at hsize
    rw [if_pos (by omega)] at hsize
    have hlen := hsize _ (List.mem_singleton.mpr rfl)
    rw [slice_length] at hlen
    omega
  · have hsize : ∀ p ∈ handed s route dst proto buf bsize, p.length ≤ etherDataLen :=
      length_handed_le hb h
    refine ⟨hsize, fun p hp => not_refused (hsize p hp), ?_⟩
    by_cases hle : bsize ≤ etherDataLen
    · unfold handed
      rw [if_pos hle, List.length_singleton]
      omega
    · exact iff_of_true (one_lt_length_handed hb (by omega)) (by omega)

/-- The largest payload that goes down as one packet that fits. -/
theorem inFrames_iff_full : InFrames ⟨.ofSign, fun _ => 0⟩ neighbour ⟨2, 0xffffffff, 0, 2, 0⟩
    (fun _ => 0) 2 17 (fun _ => 1) 1480 :=
  (inFrames_iff neighbour_route neighbour_mac (by decide)).2.mpr (Or.inl le_rfl)

/-- A payload of one byte more goes down as one packet that is refused. -/
theorem packet_refused : neighbour.rib.ipRouteFindByNetwork 2 = some (some ⟨2, 0xffffffff, 0, 2, 0⟩) ∧
    cachedHaddr neighbour.arp 2 = some (some fun _ => 0) ∧
    ¬ InFrames ⟨.ofSign, fun _ => 0⟩ neighbour ⟨2, 0xffffffff, 0, 2, 0⟩ (fun _ => 0) 2 17
      (fun _ => 1) 1481 ∧
    (ipSend ⟨.ofSign, fun _ => 0⟩ 2 17 (fun _ => 1) 1481 neighbour).1 = some (-EMSGSIZE) := by
  refine ⟨neighbour_route, neighbour_mac, fun h => ?_, ?_⟩
  · have hlen := h.size _ (List.mem_singleton.mpr rfl)
    rw [slice_length] at hlen
    exact absurd hlen (by decide)
  · rw [ipSend_resolved neighbour_route neighbour_mac (by decide)]
    rfl

end Xstack.Net.Mtu
