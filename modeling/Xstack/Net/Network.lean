import Xstack.Arp.Invariant
import Xstack.Lib.Parties
import Xstack.Net.Boot
import Xstack.Net.Chains
import Xstack.Net.Messages

/-! # Daemons on one network

Hosts that all run the daemon, on one Ethernet. A host receives frames that hosts have sent, any number of
times and in any order, next to its timer and its clients. The turns of a host are atomic: its two threads
never work on the ARP cache at the same time.

* `Genuine`: an ARP message or a packet that tells the truth about the host that sends it.
* `honest_invariant`: a host that receives genuine frames sends genuine frames.
* `no_poisoning`: so no ARP cache in the network ever has a wrong hardware address. -/

namespace Xstack.Net.Network

open Xstack.Config Xstack.Lib.Bytes Xstack.Lib.Program Xstack.Lib.Parties Xstack.Ether Xstack.Arp.Cache
open Xstack.Ip.Header Xstack.Ip.Route Xstack.Net.State Xstack.Net.Send Xstack.Net.Input Xstack.Net.Validate
open Xstack.Net.Interop Xstack.Net.TwoRuns Xstack.Net.Echo Xstack.Net.Daemon Xstack.Net.Replies
open Xstack.Net.Chains Xstack.Net.Boot Xstack.Net.Messages

variable {ι : Type} {setup : ι → Setup} {i : ι} {dst : MacAddr} {proto : UInt16} {data : List UInt8}

/-- **The address is the one of a host with that interface,** or both are those of a slot that was never
filled. -/
def Owned (setup : ι → Setup) (ipAddr : InAddr) (haddr : MacAddr) : Prop :=
  (∃ j, (setup j).ipAddr = ipAddr ∧ (setup j).mac = haddr) ∨ (ipAddr = 0 ∧ haddr = fun _ => 0)

/-- **What a host may send to `dst`.** Its messages have its own two addresses. Its packets have its own
address, and go to a station known for their destination. An ICMP error has the address that the packet was
for, but its length field is wrong. -/
inductive Genuine (host : Setup) (K : InAddr → MacAddr → Prop) (dst : MacAddr) : UInt16 → List UInt8 → Prop
  | arp {data : List UInt8} (size : arpIpSize ≤ data.length)
      (sha : (ArpIp.load (ofBytes data)).arpSha = host.mac)
      (spa : (arpNtoh (ArpIp.load (ofBytes data))).arpSpa = host.ipAddr) : Genuine host K dst etherProtoArp data
  | packet {a : InAddr} {data : List UInt8} (h : FromTo host.ipAddr a data) (hk : K a dst) :
      Genuine host K dst etherProtoIpv4 data
  | error {a b : InAddr} {data : List UInt8} (h : FromTo a b data) (hk : K b dst)
      (hmis : Misfit data.length (ofBytes data)) : Genuine host K dst etherProtoIpv4 data

/-- A frame of host `i`. -/
def Sent (setup : ι → Setup) (i : ι) (frame : List UInt8) : Prop :=
  ∃ dst proto data, data.length ≤ etherDataLen ∧ Genuine (setup i) (Owned setup) dst proto data ∧
    frame = etherFrame dst (setup i).mac proto data

/-- **The state of a host that knows no wrong address.** -/
structure Honest (setup : ι → Setup) (i : ι) (s : Stack) : Prop where
  mac : s.mac = (setup i).mac
  iface : ∀ a route, s.rib.ipRouteFindByIface a = some (some route) →
    route = ownRoute (setup i) ∧ a = (setup i).ipAddr
  network : ∀ a route, s.rib.ipRouteFindByNetwork a = some (some route) → route = ownRoute (setup i)
  cached : ∀ k, Owned setup (s.arp.slot k).ipAddr (s.arp.slot k).haddr
  frames : ∀ frame ∈ s.tx, Sent setup i frame

/-- The frames that wait at the socket. -/
def frames : Turn → List (List UInt8)
  | .receive frames => frames
  | _ => []

/-- **The hosts on one Ethernet,** from the start of their threads. -/
def ethernet (env : ι → Env) (setup : ι → Setup) : Medium ι Process Turn (List UInt8) where
  init i := .boot (env i) (setup i)
  next i p turn := p.step (env i) (setup i) turn
  takes := frames
  sent p := p.stack.tx

@[simp] theorem ethernet_init (env : ι → Env) (setup : ι → Setup) (i : ι) :
    (ethernet env setup).init i = .boot (env i) (setup i) := rfl

@[simp] theorem ethernet_next (env : ι → Env) (setup : ι → Setup) (i : ι) (p : Process) (turn : Turn) :
    (ethernet env setup).next i p turn = p.step (env i) (setup i) turn := rfl

@[simp] theorem ethernet_sent (env : ι → Env) (setup : ι → Setup) (p : Process) :
    (ethernet env setup).sent p = p.stack.tx := rfl

/-! ### A frame at its receiver -/

/-- What `ether_receive` makes of a frame that a host has sent. -/
inductive Heard (setup : ι → Setup) : EtherHdr → Buf → ℕ → Prop
  | frame {j : ι} {dst : MacAddr} {proto : UInt16} {data : List UInt8} {b : Buf}
      (h : Genuine (setup j) (Owned setup) dst proto data) (hdata : data.length ≤ etherDataLen)
      (hb : Agree (max data.length 56) b (ofBytes data)) :
      Heard setup ⟨dst, (setup j).mac, proto⟩ b (receivedSize data.length)

theorem etherReceive_cons {mac : MacAddr} {rx : Buf} {frame : List UInt8} {frames : List (List UInt8)} :
    etherReceive mac rx etherMaxlen (frame :: frames) =
      (etherReceive mac rx etherMaxlen [frame]).bind fun x =>
        if x.isSome then some x else etherReceive mac rx etherMaxlen frames := by
  simp only [etherReceive]
  split_ifs
  · rfl
  · rfl
  · rfl

theorem heard_receive {mac : MacAddr} {rx : Buf} {hdr : EtherHdr} {b : Buf} {n : ℕ} :
    ∀ {frames : List (List UInt8)}, (∀ frame ∈ frames, ∃ j, Sent setup j frame) →
      etherReceive mac rx etherMaxlen frames = some (some (hdr, b, n)) → Heard setup hdr b n
  | [], _, h => by cases h
  | frame :: frames, hsent, h => by
    obtain ⟨j, dst, proto, data, hdata, hgen, rfl⟩ := hsent frame List.mem_cons_self
    rw [etherReceive_cons] at h
    by_cases hown : (setup j).mac = mac
    · rw [hown, etherReceive_own] at h
      exact heard_receive (fun f hf => hsent f (List.mem_cons_of_mem _ hf)) h
    · obtain ⟨b', hrecv, hb⟩ := etherReceive_padded dst proto rx hdata hown
      rw [hrecv] at h
      obtain ⟨rfl, rfl, rfl⟩ : (⟨dst, (setup j).mac, proto⟩ : EtherHdr) = hdr ∧ b' = b ∧
          receivedSize data.length = n := by simpa using h
      exact .frame hgen hdata hb

/-- Only a genuine packet is accepted, and it comes from the host that has sent it. -/
theorem heard_tells {hdr : EtherHdr} {b : Buf} {n : ℕ} (h : Heard setup hdr b n) : Tells (Owned setup) hdr b n := by
  have hne : etherProtoArp ≠ etherProtoIpv4 := by decide
  obtain @⟨j, dst, proto, data, _, hgen, hdata, hb⟩ := h
  refine ⟨⟨(setup j).ipAddr, Or.inl ⟨j, rfl, rfl⟩⟩, fun hproto => ?_, fun hproto hacc => ?_⟩
  · cases hgen with
    | arp size sha spa =>
      have hload : ArpIp.load b = ArpIp.load (ofBytes data) := arpLoad_congr hb (by unfold arpIpSize at size; omega)
      rw [hload, spa, sha]
      exact Or.inl ⟨j, rfl, rfl⟩
    | packet | error => exact absurd hproto.symm hne
  · have hload : IpHdr.load b = IpHdr.load (ofBytes data) := IpHdr.load_congr hb (by omega)
    cases hgen with
    | arp => exact absurd hproto hne
    | packet hpacket =>
      have hsrc : (hdrOf (some (setup j).mac) b).ipSrc = (setup j).ipAddr := by
        show (ipNtoh (IpHdr.load b)).ipSrc = _
        rw [hload, hpacket.src]
      rw [hsrc]
      exact Or.inl ⟨j, rfl, rfl⟩
    | error herr hk hmis =>
      have hlen : (ipNtoh (IpHdr.load b)).ipLen.toNat = receivedSize data.length := hacc.2.2
      rw [hload] at hlen
      exact absurd hlen hmis.len

/-! ### The replies -/

variable {env : Env} {s t : Stack} {b c : Buf} {n : ℕ} {r : ℤ}

theorem load_arpData (hn : arpIpSize ≤ n) : ArpIp.load (ofBytes (slice c n)) = ArpIp.load c := by
  refine arpLoad_congr (m := arpIpSize) (fun i hi => ?_) le_rfl
  rw [ofBytes_of_lt (by rw [slice_length]; omega)]
  simp [slice, show i < n by omega]

/-- A reply of `arp_input` is for a message that it takes. -/
theorem arpInput_taken (h : arpInput env b n s = (some (r, c), t)) (hpos : 0 < r) :
    (arpNtoh (ArpIp.load b)).arpHtype = arpHtypeEther ∧
      (arpNtoh (ArpIp.load b)).arpPtype = etherProtoIpv4 := by
  have hproto : ¬ 0 < -EPROTOTYPE := by decide
  unfold arpInput at h
  split_ifs at h with hh hp
  · obtain ⟨rfl, -⟩ := Prod.mk.inj (Option.some.inj (Prod.mk.inj h).1)
    exact absurd hpos hproto
  · obtain ⟨rfl, -⟩ := Prod.mk.inj (Option.some.inj (Prod.mk.inj h).1)
    exact absurd hpos hproto
  · exact ⟨not_not.mp hh, not_not.mp hp⟩
  · exact ⟨not_not.mp hh, not_not.mp hp⟩

/-- The ARP replies of a host. -/
theorem arp_genuine (hs : Honest setup i s) (hn : arpIpSize ≤ n) (h : arpInput env b n s = (some (r, c), t))
    (hpos : 0 < r) : Genuine (setup i) (Owned setup) dst etherProtoArp (slice c r.toNat) := by
  obtain ⟨hh, hp⟩ := arpInput_taken h hpos
  obtain ⟨-, -, hreply⟩ := arpInput_returned rfl hh hp h
  obtain ⟨route, sha, -, hroute, rfl, rfl, hsha⟩ := hreply.resolve_left fun h0 => by omega
  obtain ⟨rfl, -⟩ := hs.iface _ _ hroute
  have hhandle : etherHandle < etherMaxIf := by decide
  rw [hsha hhandle, Int.toNat_natCast]
  have hload := load_arpReply b (arpNtoh (ArpIp.load b)) s.mac (ownRoute (setup i)).rIface
  refine .arp (by rwa [slice_length]) ?_ ?_
  · rw [load_arpData hn, hload]
    exact hs.mac
  · rw [load_arpData hn, hload]
    exact swap32_swap32 _

/-- An ICMP error goes back to where the packet came from. -/
theorem error_genuine {code : UInt8} {ip : IpHdr} {size : ℕ} (hb : IpHdr.load b = ip)
    (h20 : 20 ≤ ipHdrHlen ip) (hk : Owned setup ip.ipSrc dst)
    (h : (r, c) = icmpGenerateDestUnreachable b code (ipHdrHlen ip) size) :
    Genuine (setup i) (Owned setup) dst etherProtoIpv4 (slice c r.toNat) := by
  have hmis := misfit_unreachable h
  have hsize := hmis.size
  rw [icmpGenerateDestUnreachable_eq] at h
  obtain ⟨-, hc⟩ := Prod.mk.inj h
  set q := quoted size
  have h20' : ipHdrHlen (IpHdr.load (errorPacket b code (ipHdrHlen ip) q)) = 20 := load_errorPacket _ _ _ _
  have hhdr : (IpHdr.load (errorPacket b code (ipHdrHlen ip) q)).ipSrc = ip.ipSrc := by
    unfold errorPacket
    rw [IpHdr.load_put, load_errorMsg b code h20 q, hb]
  obtain ⟨-, ⟨csum, hload⟩, -, -⟩ := ipReplyHeader_spec rfl h20'.ge (36 + q)
  rw [← hc] at hload
  have hmis' : Misfit (slice c r.toNat).length (ofBytes (slice c r.toNat)) := by
    refine ⟨by rwa [slice_length], ?_⟩
    rw [load_slice hsize, slice_length]
    exact hmis.len
  refine .error (a := (ipNtoh (IpHdr.load c)).ipSrc) ⟨by rwa [slice_length], ?_, ?_⟩ hk hmis'
  · rw [load_slice hsize]
  · rw [load_slice hsize, hload]
    exact hhdr

/-- The IP replies of a host. -/
theorem ip_genuine {src : MacAddr} (hs : Honest setup i s)
    (hk : ipAccepts (hdrOf (some src) b) n → Owned setup (hdrOf (some src) b).ipSrc src)
    (h : ipInput env (some src) b n s = (some (r, c), t)) (hpos : 0 < r) :
    Genuine (setup i) (Owned setup) src etherProtoIpv4 (slice c r.toNat) := by
  have hreply := ipInputWith_cases h
  set ip := hdrOf (some src) b
  generalize hx : (r, c) = x at hreply
  cases hreply with
  | none =>
    obtain ⟨rfl, -⟩ := Prod.mk.inj hx
    exact absurd hpos (lt_irrefl 0)
  | unreachable code hacc => exact error_genuine (IpHdr.load_put b ip) hacc.2.1 (hk hacc) hx
  | @handler proto x hacc hwhole hproto hlocal hh =>
    have h20 := hacc.2.1
    subst hx
    generalize hx : (r, c) = x at hh
    cases hh with
    | @answer r' c' hpos' hr hload hbc =>
      obtain ⟨rfl, rfl⟩ := Prod.mk.inj hx
      obtain ⟨route, hroute⟩ := hlocal
      have hown : ip.ipDst = (setup i).ipAddr := (hs.iface _ _ hroute).2
      obtain ⟨-, ⟨csum, hhdr⟩, -, -⟩ := ipReplyHeader_spec hload h20 r'.toNat
      have hsize : ipHdrSize ≤ (r' + (ipHdrHlen ip : ℤ)).toNat := by unfold ipHdrSize; omega
      refine .packet (a := ip.ipSrc) ⟨by rwa [slice_length], ?_, ?_⟩ (hk hacc)
      · rw [load_slice hsize, hhdr]
        exact hown
      · rw [load_slice hsize, hhdr]
    | error hload hbc => exact error_genuine hload h20 (hk hacc) hx
    | silent hge hr hbc =>
      obtain ⟨rfl, -⟩ := Prod.mk.inj hx
      omega

/-! ### The invariant -/

/-- **A host that receives genuine frames sends genuine frames.** -/
theorem honest_invariant (env : Env) (setup : ι → Setup) (i : ι) :
    Invariant env (Honest setup i) (Heard setup) (Owned setup) (Genuine (setup i) (Owned setup)) where
  tells _ _ _ := heard_tells
  other s t hmac harp hrib htx _ hs := by
    refine ⟨hmac.trans hs.mac, ?_, ?_, ?_, ?_⟩
    · rw [hrib]
      exact hs.iface
    · rw [hrib]
      exact hs.network
    · rw [harp]
      exact hs.cached
    · rw [htx]
      exact hs.frames
  insert s ipAddr haddr type r arp hk hins hs := by
    refine ⟨hs.mac, hs.iface, hs.network, fun k => ?_, hs.frames⟩
    show Owned setup (arp.slot k).ipAddr (arp.slot k).haddr
    rcases Arp.Invariant.insert_slots hins with hslot | ⟨e, -, hslot⟩
    · rw [hslot]
      exact hs.cached k
    · rw [hslot]
      by_cases hke : k = e
      · rw [hke, Function.update_self]
        exact hk
      · rw [Function.update_of_ne hke]
        exact hs.cached k
  update s deltaTime arp hupd hs := by
    refine ⟨hs.mac, hs.iface, hs.network, fun k => ?_, hs.frames⟩
    unfold ArpCache.arpCacheUpdate at hupd
    split_ifs at hupd
    have hage : ∀ e, (ArpCache.ageSlot deltaTime e).haddr = e.haddr ∧
        (ArpCache.ageSlot deltaTime e).ipAddr = e.ipAddr := by
      intro e
      unfold ArpCache.ageSlot
      split_ifs <;> exact ⟨rfl, rfl⟩
    obtain ⟨hhaddr, hip⟩ := hage (s.arp.slot k)
    rw [← Option.some.inj hupd]
    show Owned setup (ArpCache.ageSlot deltaTime (s.arp.slot k)).ipAddr _
    rw [hip, hhaddr]
    exact hs.cached k
  cached s k hs := hs.cached k
  sent s dst proto data _ _ hlen hgen hs := by
    refine ⟨hs.mac, hs.iface, hs.network, hs.cached, fun frame hframe => ?_⟩
    rcases List.mem_append.mp hframe with hframe | hframe
    · exact hs.frames frame hframe
    · rw [List.mem_singleton.mp hframe, hs.mac]
      exact ⟨dst, proto, data, hlen, hgen, rfl⟩
  request s t a tpa route hs ht hroute := by
    obtain ⟨rfl, -⟩ := hs.iface a route hroute
    refine .arp ?_ ?_ ?_
    · unfold requestData
      rw [slice_length]
    · rw [load_requestData]
      exact ht.mac
    · rw [load_requestData, arpNtoh_arpNtoh]
      rfl
  packet s a route dst data hs hroute hk hdata := by
    rw [hs.network a route hroute] at hdata
    exact .packet hdata hk
  reply s t hdr b c n r hs hheard hn hrun hpos := by
    rcases etherInput_positive hrun hpos with ⟨hproto, hrun⟩ | ⟨hproto, hrun⟩
    · rw [hproto]
      refine arp_genuine hs ?_ hrun hpos
      obtain ⟨-, -, -⟩ := hheard
      unfold receivedSize arpIpSize
      omega
    · rw [hproto]
      exact ip_genuine hs ((heard_tells hheard).ip hproto) hrun hpos

theorem boot_honest (env : Env) (setup : ι → Setup) (i : ι) :
    Honest setup i (Process.boot env (setup i)).stack := by
  refine (honest_invariant env setup i).boot ⟨rfl, fun a route h => ?_, fun a route h => ?_,
    fun k => Or.inr ⟨rfl, rfl⟩, fun _ h => ?_⟩ (Or.inl ⟨i, rfl, rfl⟩) (fun s rib hs _ hrib => ?_) fun t ht => ?_
  · cases h
  · cases h
  · cases h
  · refine ⟨hs.mac, fun a route hroute => ?_, fun a route hroute => network_first hrib hroute, hs.cached, hs.frames⟩
    obtain ⟨o, hfind, -, ho⟩ := agrees_first hrib a
    obtain rfl : o = some route := Option.some.inj (hfind.symm.trans hroute)
    obtain ⟨hmem, rfl⟩ := ho route rfl
    rw [List.mem_singleton.mp hmem]
    exact ⟨rfl, rfl⟩
  · refine .arp ?_ ?_ ?_
    · unfold requestData
      rw [slice_length]
    · rw [load_requestData]
      exact ht.mac
    · rw [load_requestData, arpNtoh_arpNtoh]
      rfl

/-- A turn hears of what it receives. -/
theorem hears_sent {turn : Turn} {rxBuffer : Buf}
    (h : ∀ frame ∈ frames turn, ∃ j, Sent setup j frame) : turn.Hears (Heard setup) s rxBuffer := by
  cases turn with
  | receive frames => exact fun _ _ _ hrecv => heard_receive h hrecv
  | tick | egress | sendto | recvfrom => trivial

/-- **One step of a host.** -/
theorem step_honest {p : Process} {turn : Turn} (hp : Honest setup i p.stack)
    (hturn : ∀ frame ∈ frames turn, ∃ j, Sent setup j frame) :
    Honest setup i (p.step env (setup i) turn).stack := by
  unfold Process.step Process.exec
  rcases p.rxBuffer with _ | rxBuffer
  · exact hp
  · exact (honest_invariant env setup i).turn hp turn (hears_sent hturn)

/-- **No host ever believes a wrong address,** and what the hosts send tells the truth, whatever they do and
however the network treats their frames. -/
theorem no_poisoning [DecidableEq ι] (env : ι → Env) (setup : ι → Setup) {w : ι → Process}
    (hw : (ethernet env setup).Reachable w) (i : ι) :
    (∀ k, Owned setup ((w i).stack.arp.slot k).ipAddr ((w i).stack.arp.slot k).haddr) ∧
    (∀ ipAddr haddr, cachedHaddr (w i).stack.arp ipAddr = some (some haddr) → Owned setup ipAddr haddr) ∧
      ∀ frame ∈ (w i).stack.tx, Sent setup i frame := by
  have h : Honest setup i (w i).stack :=
    hw.holds (I := fun i p => Honest setup i p.stack) (G := fun frame => ∃ j, Sent setup j frame)
      (fun i => boot_honest (env i) setup i) (fun i p hp frame hframe => ⟨i, hp.frames frame hframe⟩)
      (fun i p turn hp hturn => step_honest hp hturn) i
  exact ⟨h.cached, fun ipAddr haddr hfind => (honest_invariant (env i) setup i).cachedHaddr h hfind, h.frames⟩

/-- Two hosts. -/
def pair (second : Bool) : Setup :=
  if second then ⟨fun _ => 2, 167772162, 4294967040, [⟨.udp, ⟨167772162, 10⟩⟩], 8⟩
  else ⟨fun _ => 1, 167772161, 4294967040, [⟨.udp, ⟨167772161, 10⟩⟩], 7⟩

/-- How the first host announces itself. -/
def announcement : List UInt8 :=
  etherFrame macBroadcastAddr (fun _ => 1) etherProtoArp (requestData (fun _ => 1) 167772161 167772161)

theorem no_poisoning_pair : ∃ w, (ethernet (fun _ : Bool => ⟨.ofSign, fun _ => 74⟩) pair).Reachable w ∧
    cachedHaddr (w true).stack.arp 167772161 = some (some fun _ => 1) ∧ Owned pair 167772161 fun _ => 1 := by
  have hsent : announcement ∈ (Process.boot ⟨.ofSign, fun _ => 74⟩ (pair false)).stack.tx := by decide +kernel
  have hfind : cachedHaddr ((Process.boot ⟨.ofSign, fun _ => 74⟩ (pair true)).step ⟨.ofSign, fun _ => 74⟩
      (pair true) (.receive [announcement])).stack.arp 167772161 = some (some fun _ => 1) := by decide +kernel
  let M := ethernet (fun _ : Bool => ⟨.ofSign, fun _ => 74⟩) pair
  have hturn : M.Carries M.init (.receive [announcement]) := by
    intro frame hframe
    obtain rfl : frame = announcement := List.mem_singleton.mp hframe
    refine ⟨false, ?_⟩
    rw [ethernet_sent, ethernet_init]
    exact hsent
  refine ⟨_, .step .init true (.receive [announcement]) hturn, ?_, ?_⟩
  · rw [Function.update_self, ethernet_next, ethernet_init]
    exact hfind
  · refine (no_poisoning _ pair (.step .init true (.receive [announcement]) hturn) true).2.1 _ _ ?_
    rw [Function.update_self, ethernet_next, ethernet_init]
    exact hfind

end Xstack.Net.Network
