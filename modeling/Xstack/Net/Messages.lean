import Xstack.Net.Effect

/-! # ARP messages

* `load_bytes`: a message is read back from its bytes; `load_arpReply`: the reply over a request.
* `arpInput_returned`: what `arp_input` makes of a message. -/

namespace Xstack.Net.Messages

open Xstack.Config Xstack.Lib.Bytes Xstack.Lib.Program Xstack.Ether Xstack.Arp.Cache Xstack.Ip.Route
open Xstack.Net.State Xstack.Net.Send Xstack.Net.Input Xstack.Net.Frame Xstack.Net.Validate
open Xstack.Net.TwoRuns Xstack.Net.Daemon Xstack.Net.Effect

/-! ### Messages -/

variable {b c : Buf} {o k : ℕ} {l : List UInt8}

theorem rd16_put_outside (h : k + 2 ≤ o ∨ o + l.length ≤ k) : rd16 (put b o l) k = rd16 b k := by
  unfold rd16
  rw [put_outside (by omega), put_outside (by omega)]

theorem rd32_put_outside (h : k + 4 ≤ o ∨ o + l.length ≤ k) : rd32 (put b o l) k = rd32 b k :=
  rd32_congr fun i hi => put_outside (by omega)

theorem macLoad_put_outside (h : k + 6 ≤ o ∨ o + l.length ≤ k) : macLoad (put b o l) k = macLoad b k :=
  funext fun i => put_outside (by omega)

@[simp] theorem length_macBytes (mac : MacAddr) : (macBytes mac).length = 6 := List.length_ofFn

theorem macLoad_put {mac : MacAddr} (pre post : List UInt8) :
    macLoad (put b o (pre ++ macBytes mac ++ post)) (o + pre.length) = mac := by
  have hlen := length_macBytes mac
  funext i
  have hi := i.isLt
  show put b o (pre ++ macBytes mac ++ post) (o + pre.length + i.val) = mac i
  rw [Nat.add_assoc, put_of_lt (by simp only [List.length_append, hlen]; omega), List.append_assoc,
    List.getD_append_right _ _ _ _ (Nat.le_add_right _ _), Nat.add_sub_cancel_left,
    List.getD_append _ _ _ _ (by omega), List.getD_eq_getElem _ _ (by omega)]
  exact List.getElem_ofFn _

/-- A message is read back from its bytes. -/
theorem load_bytes (a : ArpIp) : ArpIp.load (ofBytes a.bytes) = a := by
  have h0 : rd16 (ofBytes a.bytes) 0 = a.arpHtype := rd16_put (o := 0) [] (a.bytes.drop 2)
  have h2 : rd16 (ofBytes a.bytes) 2 = a.arpPtype := rd16_put (o := 0) (a.bytes.take 2) (a.bytes.drop 4)
  have h4 : ofBytes a.bytes 4 = a.arpHlen := rfl
  have h5 : ofBytes a.bytes 5 = a.arpPlen := rfl
  have h6 : rd16 (ofBytes a.bytes) 6 = a.arpOper := rd16_put (o := 0) (a.bytes.take 6) (a.bytes.drop 8)
  have h8 : macLoad (ofBytes a.bytes) 8 = a.arpSha :=
    macLoad_put (o := 0) (a.bytes.take 8) (a.bytes.drop 14)
  have h14 : rd32 (ofBytes a.bytes) 14 = a.arpSpa := rd32_put (o := 0) (a.bytes.take 14) (a.bytes.drop 18)
  have h18 : macLoad (ofBytes a.bytes) 18 = a.arpTha :=
    macLoad_put (o := 0) (a.bytes.take 18) (a.bytes.drop 24)
  have h24 : rd32 (ofBytes a.bytes) 24 = a.arpTpa := rd32_put (o := 0) (a.bytes.take 24) []
  unfold ArpIp.load
  rw [h0, h2, h4, h5, h6, h8, h14, h18, h24]

theorem length_bytes (a : ArpIp) : a.bytes.length = 28 := rfl

@[simp] theorem arpNtoh_arpNtoh (a : ArpIp) : arpNtoh (arpNtoh a) = a := by simp [arpNtoh]

/-- The message that `arp_input` writes over a request: it comes from the interface, and goes back. -/
theorem load_arpReply (b : Buf) (arp : ArpIp) (sha : MacAddr) (iface : InAddr) :
    ArpIp.load (arpReply b arp (some sha) iface) = { ArpIp.load b with
      arpOper := swap16 arpOperReply, arpSha := sha, arpSpa := swap32 iface, arpTha := arp.arpSha,
      arpTpa := (ArpIp.load b).arpSpa } := by
  set d6 := put b 6 (le16 (swap16 arpOperReply)) with h6
  set d8 := put d6 8 (macBytes sha) with h8
  set d18 := put d8 18 (macBytes arp.arpSha) with h18
  set d24 := put d18 24 (le32 (rd32 d18 14)) with h24
  have hoper : rd16 d6 6 = swap16 arpOperReply := rd16_put (o := 6) [] []
  have hsha : macLoad d8 8 = sha := macLoad_put (o := 8) [] []
  have htha : macLoad d18 18 = arp.arpSha := macLoad_put (o := 18) [] []
  have htpa : rd32 d24 24 = rd32 d18 14 := rd32_put (o := 24) [] []
  have hspa : rd32 (put d24 14 (le32 (swap32 iface))) 14 = swap32 iface := rd32_put (o := 14) [] []
  show ArpIp.load (put d24 14 (le32 (swap32 iface))) = _
  unfold ArpIp.load
  simp only [ArpIp.mk.injEq]
  refine ⟨?_, ?_, ?_, ?_, ?_, ?_, hspa, ?_, ?_⟩
  · simp (disch := simp) only [h24, h18, h8, h6, rd16_put_outside]
  · simp (disch := simp) only [h24, h18, h8, h6, rd16_put_outside]
  · simp (disch := simp) only [h24, h18, h8, h6, put_outside]
  · simp (disch := simp) only [h24, h18, h8, h6, put_outside]
  · rw [rd16_put_outside (by simp), h24, rd16_put_outside (by simp), h18, rd16_put_outside (by simp), h8,
      rd16_put_outside (by simp), hoper]
  · rw [macLoad_put_outside (by simp), h24, macLoad_put_outside (by simp), h18,
      macLoad_put_outside (by simp), hsha]
  · rw [macLoad_put_outside (by simp), h24, macLoad_put_outside (by simp), htha]
  · rw [rd32_put_outside (by simp), htpa, h18, rd32_put_outside (by simp), h8, rd32_put_outside (by simp), h6,
      rd32_put_outside (by simp)]

/-- The data of a request, with whatever is behind it. -/
theorem load_requestData (mac : MacAddr) (spa tpa : InAddr) :
    ArpIp.load (ofBytes (requestData mac spa tpa)) = arpNtoh (requestMsg mac spa tpa) := by
  have hdata : requestData mac spa tpa = (arpNtoh (requestMsg mac spa tpa)).bytes :=
    slice_ofBytes _
  rw [hdata, load_bytes]

/-! ### `arp_input` -/

variable {env : Env} {s t : Stack} {n : ℕ} {r : ℤ} {arp : ArpIp}

/-- A run of `arp_cache_insert` that returns. -/
theorem arpCacheInsert_returned {ipAddr : InAddr} {haddr : MacAddr} {type : ArpCacheEntryType} {retval : ℤ}
    (h : State.arpCacheInsert ipAddr haddr type s = (some retval, t)) :
    s.arp.arpCacheInsert ipAddr haddr type = some (retval, t.arp) ∧
      t = { s with arp := t.arp, errno := t.errno } := by
  rcases hins : s.arp.arpCacheInsert ipAddr haddr type with _ | ⟨r, arp⟩
  · unfold State.arpCacheInsert at h
    rw [get_bind, hins] at h
    cases h
  · obtain ⟨e, he⟩ := arpCacheInsert_run hins
    obtain ⟨h1, rfl⟩ := Prod.mk.inj (he.symm.trans h)
    exact ⟨by rw [Option.some.inj h1], rfl⟩

theorem etherHandle2addr_returned {handle : ℤ} {sha : Option MacAddr} (hlt : handle < etherMaxIf)
    (h : State.etherHandle2addr handle s = (some sha, t)) : sha = some s.mac := by
  unfold State.etherHandle2addr at h
  rw [if_neg (not_le.mpr hlt)] at h
  split_ifs at h
  · cases h
  · exact (Option.some.inj (Prod.mk.inj h).1).symm

/-- **What `arp_input` makes of a message:** the sender goes into the cache, deferred packets are sent, and
a request for the address of an interface is answered. -/
theorem arpInput_returned (harp : arpNtoh (ArpIp.load b) = arp) (hh : arp.arpHtype = arpHtypeEther)
    (hp : arp.arpPtype = etherProtoIpv4) (h : arpInput env b n s = (some (r, c), t)) :
    Outside s t ∧ (∃ retval, s.arp.arpCacheInsert arp.arpSpa arp.arpSha .dyn = some (retval, t.arp)) ∧
      ((r = 0 ∧ c = b ∧
          (arp.arpOper = arpOperRequest → s.rib.ipRouteFindByIface arp.arpTpa = some none)) ∨
        ∃ route sha, arp.arpOper = arpOperRequest ∧
          s.rib.ipRouteFindByIface arp.arpTpa = some (some route) ∧ r = n ∧
          c = arpReply b arp sha route.rIface ∧ (route.rIfaceHandle < etherMaxIf → sha = some s.mac)) := by
  unfold arpInput at h
  simp only [harp] at h
  rw [if_neg (by simp [hh]), if_neg (by simp [hp])] at h
  obtain ⟨retval, u, h1, h2⟩ := returned h
  obtain ⟨hins, hu⟩ := arpCacheInsert_returned h1
  obtain ⟨_, v, h3, h4⟩ := returned h2
  have hsend := ipDeferHandler_sending env u
  rw [h3] at hsend
  have hv : Outside s v := Outside.trans ⟨_, _, _, _, _, _, hu⟩ (outside_sending hsend)
  have harp : v.arp = u.arp := by
    obtain ⟨_, _, _, _, _, rfl⟩ := hsend
    rfl
  rw [← harp] at hins
  -- a call that does not change the tables, after which the cache is still the one of `v`
  have hquiet : ∀ {α : Type} {x : Act α} {w w' : Stack} {y : α}, Steps Quiet x → x w = (some y, w') →
      Outside s w ∧ w.arp = v.arp → Outside s w' ∧ w'.arp = v.arp := by
    rintro α x w w' y hx hrun ⟨h1, h2⟩
    have hstep := hx w
    rw [hrun] at hstep
    refine ⟨h1.trans (outside_quiet hstep), ?_⟩
    obtain ⟨_, _, _, rfl⟩ := hstep
    exact h2
  split_ifs at h4 with hoper
  · obtain ⟨found, w, h5, h6⟩ := returned h4
    obtain ⟨hw, hwarp⟩ := hquiet (ipRouteFindByIface_quiet _) h5 ⟨hv, rfl⟩
    have hfind := (Replies.ipRouteFindByIface_returned h5).1
    have hrib : v.rib = s.rib := by
      obtain ⟨_, _, _, _, _, _, rfl⟩ := hv
      rfl
    rw [hrib] at hfind
    cases found with
    | none =>
      obtain ⟨heq, rfl⟩ := Prod.mk.inj h6
      obtain ⟨rfl, rfl⟩ := Prod.mk.inj (Option.some.inj heq)
      rw [← hwarp] at hins
      exact ⟨hw, ⟨retval, hins⟩, Or.inl ⟨rfl, rfl, fun _ => hfind⟩⟩
    | some route =>
      obtain ⟨sha, x, h7, h8⟩ := returned h6
      obtain ⟨heq, rfl⟩ := Prod.mk.inj h8
      obtain ⟨rfl, rfl⟩ := Prod.mk.inj (Option.some.inj heq)
      obtain ⟨hx, hxarp⟩ := hquiet (etherHandle2addr_quiet _) h7 ⟨hw, hwarp⟩
      rw [← hxarp] at hins
      refine ⟨hx, ⟨retval, hins⟩, Or.inr ⟨route, sha, hoper, hfind, rfl, rfl, fun hlt => ?_⟩⟩
      have hmac : w.mac = s.mac := by
        obtain ⟨_, _, _, _, _, _, rfl⟩ := hw
        rfl
      rw [← hmac]
      exact etherHandle2addr_returned hlt h7
  · obtain ⟨heq, rfl⟩ := Prod.mk.inj h4
    obtain ⟨rfl, rfl⟩ := Prod.mk.inj (Option.some.inj heq)
    exact ⟨hv, ⟨retval, hins⟩, Or.inl ⟨rfl, rfl, fun h => absurd h hoper⟩⟩

end Xstack.Net.Messages
