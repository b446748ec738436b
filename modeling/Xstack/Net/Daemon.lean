import Xstack.Lib.Hoare
import Xstack.Net.Periodic
import Xstack.Net.Validate

/-! # The daemon

`main` and the two threads of `xstack.c`, and the clients at the other end of the sockets. The turns are in
any order: the ingress thread receives into `rx_buffer` and answers (`receive`), or runs the periodic tasks
(`tick`); the egress thread passes one socket (`egress`); a client calls `xstack_sendto` or
`xstack_recvfrom`. A turn is atomic here, while in the source the threads and clients run side by side.

A turn whose behaviour is undefined, or that never returns, is the last one. So is one in which
`xstack_sock_dgram_input` finds the queue of its socket full: the ingress thread would stay in the loop with
`queue_alloc` until a client makes room.

`Invariant env I K`: what all operations of the stack keep that change the state. The sender of a frame
and the hardware addresses of the ARP cache are in `K`, and `ether_send` gets no other ones. From this
all functions keep `I` (`Invariant.boot`, `Invariant.turn`). -/

namespace Xstack.Net.Daemon

open Xstack.Config Xstack.Lib.Bytes Xstack.Lib.Program Xstack.Ether Xstack.Arp.Cache
open Xstack.Ip.Header Xstack.Ip.Fragment Xstack.Ip.Route Xstack.Sock.Queue Xstack.Udp
open Xstack.Net.State Xstack.Net.Send Xstack.Net.Input Xstack.Net.Periodic

/-- `enum xstack_sock_proto`. -/
inductive XstackSockProto
  | none
  | tcp
  | udp
  | last

/-- `proto_send[proto]` in `xstack_egress_thread`; `xstack_tcp_send` does nothing. -/
def protoSend (env : Env) (proto : XstackSockProto) (sockAddr : SockAddr) (dgram : XstackDgram) :
    Act Unit :=
  match proto with
  | .udp => do
    let _ ← xstackUdpSend env sockAddr dgram
    return
  | .tcp => return
  | .none => return
  | .last => return

/-- The body of the loop of `xstack_ingress_thread` when the given frames wait at the socket, and
`rx_buffer` after it. -/
def ingressTurn (env : Env) (frames : List (List UInt8)) (rxBuffer : Buf) : Act Buf := do
  let s ← get
  match etherReceive s.mac rxBuffer etherMaxlen frames with
  | none => stuck
  | some none => return rxBuffer
  | some (some (hdr, b, retval)) =>
    if retval > 0 then
      let (retval, b) ← etherInput env hdr b retval
      if retval > 0 then
        let _ ← etherOutputReply env hdr b retval.toNat
        return b
      else return b
    else return b

/-- `struct xstack_sock` in the array `sockets`. -/
structure XstackSock where
  sockProto : XstackSockProto
  sockAddr : SockAddr

/-- What `main` starts with: the interface and its addresses, the sockets, and the process id. -/
structure Setup where
  mac : MacAddr
  ipAddr : InAddr
  netmask : InAddr
  sockets : List XstackSock
  pid : UInt32

/-- The values in `xstack.c`. -/
def Setup.xstack (mac : MacAddr) (pid : UInt32) : Setup :=
  ⟨mac, 167772162, 4294967040, [⟨.udp, ⟨167772162, 10⟩⟩], pid⟩

/-- Another shared memory for socket `i`. -/
def setShmem (i : ℕ) (m : Buf) : Act Unit := modify fun s => { s with
  udp := { s.udp with sock := Function.update s.udp.sock i { s.udp.sock i with shmem := m } } }

/-- `xstack_bind` of socket `i`. -/
def xstackBind (env : Env) (sock : XstackSock) (i : ℕ) : Act ℤ :=
  match sock.sockProto with
  | .udp => do
    let s ← get
    match ← ofOption (s.udp.xstackUdpBind env.mc i) with
    | .einval =>
      setErrno EINVAL
      return -1
    | .eaddrinuse =>
      setErrno EADDRINUSE
      return -1
    | .bound udp =>
      modify fun s => { s with udp := udp }
      return 0
  | _ => do
    setErrno EPROTOTYPE
    return -1

/-- The loop of `xstack_init` from socket `i` on. It exits when a socket cannot be bound. -/
def xstackInit (env : Env) (pid : UInt32) : List XstackSock → ℕ → Act Unit
  | [], _ => return
  | sock :: sockets, i => do
    setShmem i (Sock.Queue.xstackInit pid)
    let retval ← xstackBind env sock i
    if retval < 0 then stuck
    else xstackInit env pid sockets (i + 1)

/-- The body of the loop of `xstack_egress_thread` for socket `i`. -/
def egressTurn (env : Env) (sockets : List XstackSock) (i : ℕ) : Act Unit := do
  match sockets[i]? with
  | none => return
  | some sock =>
    let s ← get
    match egressStep (s.udp.sock i).shmem with
    | (none, _) => return
    | (some dgram, m) =>
      protoSend env sock.sockProto sock.sockAddr dgram
      setShmem i m

/-- `xstack_sendto` on socket `i`; a call that waits changes nothing. -/
def clientSendto (i : ℕ) (buffer : List UInt8) (destAddr : SockAddr) : Act Unit := do
  let s ← get
  match xstackSendto (s.udp.sock i).shmem buffer destAddr with
  | .nobufs => return
  | .waits => return
  | .sent m => setShmem i m

/-- `xstack_recvfrom` on socket `i`. -/
def clientRecvfrom (i : ℕ) (r : Recvfrom) : Act Unit := do
  let s ← get
  match xstackRecvfrom (s.udp.sock i).shmem r with
  | none => return
  | some (_, m) => setShmem i m

/-- What a thread or a client does in one turn. -/
inductive Turn
  | receive (frames : List (List UInt8))
  | tick (deltaTime : ℤ)
  | egress (i : ℕ)
  | sendto (i : ℕ) (buffer : List UInt8) (destAddr : SockAddr)
  | recvfrom (i : ℕ) (r : Recvfrom)

/-- The turn, from `rx_buffer` to `rx_buffer`. -/
def Turn.act (env : Env) (sockets : List XstackSock) (rxBuffer : Buf) : Turn → Act Buf
  | .receive frames => ingressTurn env frames rxBuffer
  | .tick deltaTime => do
    runPeriodicTasks env deltaTime
    return rxBuffer
  | .egress i => do
    egressTurn env sockets i
    return rxBuffer
  | .sendto i buffer destAddr => do
    clientSendto i buffer destAddr
    return rxBuffer
  | .recvfrom i r => do
    clientRecvfrom i r
    return rxBuffer

/-- The state of the daemon; `rxBuffer` is `none` once it has halted: a turn had no result, or
`xstack_sock_dgram_input` met a full queue. -/
structure Process where
  stack : Stack
  rxBuffer : Option Buf

/-- Runs a function of the daemon to its end in one turn, with no other turn in between, unless the daemon
has halted. -/
def Process.exec (p : Process) (act : Buf → Act Buf) : Process :=
  match p.rxBuffer with
  | none => p
  | some rxBuffer =>
    let (b, s) := act rxBuffer p.stack
    ⟨s, b⟩

def Process.step (env : Env) (setup : Setup) (p : Process) (turn : Turn) : Process :=
  p.exec fun rxBuffer => turn.act env setup.sockets rxBuffer

def Process.run (env : Env) (setup : Setup) (p : Process) (turns : List Turn) : Process :=
  turns.foldl (step env setup) p

/-- The static memory of the daemon: the addresses of the sockets are there from the start. -/
def Setup.stack (setup : Setup) : Stack := { Stack.init setup.mac with
  udp := ⟨fun i => ⟨(setup.sockets.getD i ⟨.none, ⟨0, 0⟩⟩).sockAddr, fun _ => 0⟩,
    setup.sockets.length, Tree.Macros.Rb.init⟩ }

/-- The route over the interface. -/
def ownRoute (setup : Setup) : IpRoute :=
  ⟨setup.ipAddr &&& setup.netmask, setup.netmask, 0, setup.ipAddr, etherHandle⟩

/-- `main` up to the threads: `ip_config`, and `xstack_init` in `xstack_start`. -/
def Setup.start (env : Env) (setup : Setup) : Act Unit := do
  let retval ← ipConfig env etherHandle setup.ipAddr setup.netmask
  if retval ≠ 0 then stuck
  else xstackInit env setup.pid setup.sockets 0

/-- The daemon when its threads start; `rx_buffer` is static memory. -/
def Process.boot (env : Env) (setup : Setup) : Process :=
  exec ⟨setup.stack, some fun _ => 0⟩ fun rxBuffer => do
    setup.start env
    return rxBuffer

/-- After a turn without a result nothing happens. -/
theorem Process.run_halted (env : Env) (setup : Setup) (turns : List Turn) : ∀ {p : Process},
    p.rxBuffer = none → p.run env setup turns = p := by
  induction turns with
  | nil => exact fun _ => rfl
  | cons turn turns ih =>
    intro p hp
    have hsame : p.step env setup turn = p := by
      unfold step exec
      rw [hp]
    exact (congrArg (run env setup · turns) hsame).trans (ih hp)

/-- The stations that a turn hears of: the sender of the frame, and in an ARP frame the one of the message.
What a message is too short for are the bytes that `rx_buffer` had there. -/
def Turn.stations (s : Stack) (rxBuffer : Buf) : Turn → Set MacAddr
  | .receive frames =>
    match etherReceive s.mac rxBuffer etherMaxlen frames with
    | some (some (hdr, b, _)) =>
      { k | k = hdr.hSrc ∨ hdr.hProto = etherProtoArp ∧ k = (ArpIp.load b).arpSha }
    | _ => ∅
  | _ => ∅

/-! ### Invariants -/

/-- The message of `arp_request` and `arp_gratuitous` on the interface `mac`. -/
def requestMsg (mac : MacAddr) (spa tpa : InAddr) : ArpIp :=
  ⟨arpHtypeEther, etherProtoIpv4, UInt8.ofNat etherAlen, 4, arpOperRequest, mac, spa, fun _ => 0, tpa⟩

/-- The data of the frame with that message. -/
def requestData (mac : MacAddr) (spa tpa : InAddr) : List UInt8 :=
  slice (ofBytes (arpNtoh (requestMsg mac spa tpa)).bytes) arpIpSize

/-- The data of a frame is an IP packet from `src` to `dst`. -/
structure FromTo (src dst : InAddr) (data : List UInt8) : Prop where
  size : ipHdrSize ≤ data.length
  src : (ipNtoh (IpHdr.load (ofBytes data))).ipSrc = src
  dst : (ipNtoh (IpHdr.load (ofBytes data))).ipDst = dst

/-- The header in the first bytes of a buffer is the header of the data. -/
theorem load_slice {c : Buf} {n : ℕ} (hn : ipHdrSize ≤ n) : IpHdr.load (ofBytes (slice c n)) = IpHdr.load c := by
  refine IpHdr.load_congr (n := n) (fun i hi => ?_) hn
  rw [ofBytes_of_lt (by rwa [slice_length])]
  simp [slice, hi]

theorem fromTo_slice {b c : Buf} (host : IpHdr) {n : ℕ} (hc : Agree ipHdrSize c (ipHton b 0 host))
    (hn : ipHdrSize ≤ n) : FromTo host.ipSrc host.ipDst (slice c n) := by
  obtain ⟨csum, hload⟩ := load_ipHton b host
  have hhdr : IpHdr.load (ofBytes (slice c n)) = { ipNtoh host with ipCsum := csum } := by
    rw [load_slice hn, ← hload]
    exact IpHdr.load_congr hc le_rfl
  refine ⟨by rwa [slice_length], ?_, ?_⟩
  · rw [hhdr]
    simp [ipNtoh]
  · rw [hhdr]
    simp [ipNtoh]

/-- A frame has not more data than fits. -/
theorem etherReceive_size {mac : MacAddr} {rx b : Buf} {hdr : EtherHdr} {n : ℕ} :
    ∀ {frames : List (List UInt8)}, etherReceive mac rx etherMaxlen frames = some (some (hdr, b, n)) →
      n ≤ etherDataLen
  | [], h => by cases h
  | frame :: frames, h => by
    have hmax : etherMaxlen = 1514 := rfl
    have hhdr : etherHeaderLen = 14 := rfl
    have hdata : etherDataLen = 1500 := rfl
    unfold etherReceive at h
    dsimp only at h
    split_ifs at h
    · exact etherReceive_size h
    · obtain ⟨-, -, rfl⟩ : _ ∧ _ = b ∧ _ = n := by simpa using h
      omega

/-- The stations that a frame in `rx_buffer` tells of: an ARP message, an IP packet that is not dropped,
and the sender who gets the reply. -/
structure Tells (K : InAddr → MacAddr → Prop) (hdr : EtherHdr) (b : Buf) (n : ℕ) : Prop where
  sender : ∃ a, K a hdr.hSrc
  arp : hdr.hProto = etherProtoArp → K (arpNtoh (ArpIp.load b)).arpSpa (ArpIp.load b).arpSha
  ip : hdr.hProto = etherProtoIpv4 → ipAccepts (hdrOf (some hdr.hSrc) b) n →
    K (hdrOf (some hdr.hSrc) b).ipSrc hdr.hSrc

/-- The frame that a turn receives, if it receives one, is in `H`. -/
def Turn.Hears (H : EtherHdr → Buf → ℕ → Prop) (s : Stack) (rxBuffer : Buf) : Turn → Prop
  | .receive frames => ∀ hdr b n, etherReceive s.mac rxBuffer etherMaxlen frames = some (some (hdr, b, n)) →
    H hdr b n
  | _ => True

theorem tells_all (hdr : EtherHdr) (b : Buf) (n : ℕ) : Tells (fun _ _ => True) hdr b n :=
  ⟨⟨0, trivial⟩, fun _ => trivial, fun _ _ => trivial⟩

theorem hears_all (turn : Turn) (s : Stack) (rxBuffer : Buf) :
    turn.Hears (fun _ _ _ => True) s rxBuffer := by
  cases turn with
  | receive frames => exact fun _ _ _ _ => trivial
  | tick | egress | sendto | recvfrom => trivial

/-- **What the functions of the stack do to the state keeps `I`,** when the frames that come are in `H`:
the stations they tell of are in `K`, and what is sent is in `F`. -/
structure Invariant (env : Env) (I : Stack → Prop) (H : EtherHdr → Buf → ℕ → Prop)
    (K : InAddr → MacAddr → Prop) (F : MacAddr → UInt16 → List UInt8 → Prop) : Prop where
  tells : ∀ hdr b n, H hdr b n → Tells K hdr b n
  /-- The parts of the state that are not about frames. A packet is deferred without its size. -/
  other : ∀ s t : Stack, t.mac = s.mac → t.arp = s.arp → t.rib = s.rib → t.tx = s.tx →
    (∀ i, (t.defer.slot i).bufSize = (s.defer.slot i).bufSize) → I s → I t
  insert : ∀ (s : Stack) (ipAddr : InAddr) (haddr : MacAddr) (type : ArpCacheEntryType) (r : ℤ)
    (arp : ArpCache), K ipAddr haddr → s.arp.arpCacheInsert ipAddr haddr type = some (r, arp) → I s →
    I { s with arp := arp }
  update : ∀ (s : Stack) (deltaTime : ℤ) (arp : ArpCache),
    s.arp.arpCacheUpdate deltaTime = some arp → I s → I { s with arp := arp }
  cached : ∀ (s : Stack) (i : Slot), I s → K (s.arp.slot i).ipAddr (s.arp.slot i).haddr
  sent : ∀ (s : Stack) (dst : MacAddr) (proto : UInt16) (data : List UInt8),
    dst = macBroadcastAddr ∨ (∃ a, K a dst) → proto = etherProtoArp ∨ proto = etherProtoIpv4 →
    data.length ≤ etherDataLen → F dst proto data → I s →
    I { s with tx := s.tx ++ [etherFrame dst s.mac proto data] }
  /-- A request has the address of the interface. -/
  request : ∀ (s t : Stack) (a tpa : InAddr) (route : IpRoute), I s → I t →
    s.rib.ipRouteFindByIface a = some (some route) →
    F macBroadcastAddr etherProtoArp (requestData t.mac route.rIface tpa)
  /-- A packet goes over a route, and to a station that is known for its destination. -/
  packet : ∀ (s : Stack) (a : InAddr) (route : IpRoute) (dst : MacAddr) (data : List UInt8), I s →
    s.rib.ipRouteFindByNetwork a = some (some route) → K a dst → FromTo route.rIface a data →
    F dst etherProtoIpv4 data
  reply : ∀ (s t : Stack) (hdr : EtherHdr) (b c : Buf) (n : ℕ) (r : ℤ), I s → H hdr b n →
    n ≤ etherDataLen → etherInput env hdr b n s = (some (r, c), t) → 0 < r →
    F hdr.hSrc hdr.hProto (slice c r.toNat)

namespace Invariant

variable {env : Env} {I : Stack → Prop} {H : EtherHdr → Buf → ℕ → Prop} {K : InAddr → MacAddr → Prop}
  {F : MacAddr → UInt16 → List UInt8 → Prop} (h : Invariant env I H K F)
include h

theorem setErrno (e : ℤ) : Ensures I (setErrno e) fun _ => True :=
  .modify fun s hs => h.other s _ rfl rfl rfl rfl (fun _ => rfl) hs

theorem etherHandle2addr (handle : ℤ) : Ensures I (etherHandle2addr handle) fun sha =>
    handle < etherMaxIf → ∃ t, I t ∧ sha = some t.mac := by
  unfold State.etherHandle2addr
  refine .ite (fun hmax => .seq (h.setErrno _) fun _ => .pure fun hlt => ?_) fun _ => ?_
  · exact absurd hlt (not_lt.mpr hmax)
  · exact .ite (fun _ => .stuck) fun _ => .bind .get fun t ht => .pure fun _ => ⟨t, ht, rfl⟩

/-- **`ether_send`** to a station. -/
theorem etherSend {dst : MacAddr} {proto : UInt16} {handle : ℤ} {buf : Buf} {bsize : ℕ}
    (hdst : dst = macBroadcastAddr ∨ ∃ a, K a dst) (hproto : proto = etherProtoArp ∨ proto = etherProtoIpv4)
    (hF : handle < etherMaxIf → F dst proto (slice buf bsize)) :
    Ensures I (etherSend env handle dst proto buf bsize) fun _ => True := by
  unfold State.etherSend
  refine .ite (fun _ => .pure trivial) fun hsize => .ite (fun _ => ?_) fun hmax => ?_
  · exact .seq (h.setErrno _) fun _ => .pure trivial
  refine .ite (fun _ => .stuck) fun _ => .get_bind fun s hs => ?_
  have hlen : (slice buf bsize).length ≤ etherDataLen := by
    unfold frameSize etherHeaderLen etherMinlen etherFcsLen etherMaxlen at hsize
    rw [slice_length]
    unfold etherDataLen
    omega
  have htx := h.sent s dst proto _ hdst hproto hlen (hF (not_le.mp hmax)) hs
  rw [modify_bind]
  dsimp only
  refine Ensures.ite (fun _ => ?_) (fun _ => .pure trivial) _ htx
  exact .seq (h.setErrno _) fun _ => .pure trivial

/-- The message of a request is built from the address of the interface. -/
theorem arpMsg (handle : ℤ) (spa tpa : InAddr) : Ensures I (arpMsg handle spa tpa) fun msg =>
    handle < etherMaxIf → ∃ t, I t ∧ msg = requestMsg t.mac spa tpa := by
  refine .bind (h.etherHandle2addr handle) fun sha hsha => .pure fun hlt => ?_
  obtain ⟨t, ht, rfl⟩ := hsha hlt
  exact ⟨t, ht, rfl⟩

/-- A request that is sent names the interface. -/
theorem sendMsg {handle : ℤ} {spa tpa : InAddr}
    (hF : ∀ t, I t → F macBroadcastAddr etherProtoArp (requestData t.mac spa tpa)) :
    Ensures I (do
      let msg ← State.arpMsg handle spa tpa
      State.etherSend env handle macBroadcastAddr etherProtoArp (ofBytes (arpNtoh msg).bytes) arpIpSize)
      fun _ => True := by
  refine .bind (h.arpMsg handle spa tpa) fun msg hmsg => h.etherSend (Or.inl rfl) (Or.inl rfl) fun hlt => ?_
  obtain ⟨t, ht, rfl⟩ := hmsg hlt
  exact hF t ht

theorem arpRequest {handle : ℤ} {spa tpa : InAddr}
    (hF : ∀ t, I t → F macBroadcastAddr etherProtoArp (requestData t.mac spa tpa)) :
    Ensures I (arpRequest env handle spa tpa) fun _ => True := by
  unfold State.arpRequest
  rw [← bind_assoc]
  exact .seq (h.sendMsg hF) fun _ => .pure trivial

theorem arpCacheInsert {ipAddr : InAddr} {haddr : MacAddr} (hk : K ipAddr haddr) (type : ArpCacheEntryType) :
    Ensures I (arpCacheInsert ipAddr haddr type) fun _ => True := by
  unfold State.arpCacheInsert
  refine .get_bind fun s hs => ?_
  rcases hins : s.arp.arpCacheInsert ipAddr haddr type with _ | ⟨r, arp⟩
  · exact ⟨hs, fun _ _ => trivial⟩
  · rw [ofOption_some, bind_pure]
    dsimp only
    rw [modify_bind]
    refine Ensures.ite (fun _ => ?_) (fun _ => .pure trivial) _ (h.insert s _ _ _ _ _ hk hins hs)
    exact .seq (h.setErrno _) fun _ => .pure trivial

theorem arpCacheUpdate (deltaTime : ℤ) : Ensures I (arpCacheUpdate deltaTime) fun _ => True := by
  unfold State.arpCacheUpdate
  refine .get_bind fun s hs => ?_
  rcases hupd : s.arp.arpCacheUpdate deltaTime with _ | arp
  · exact ⟨hs, fun _ _ => trivial⟩
  · exact ⟨h.update s _ _ hupd hs, fun _ _ => trivial⟩

/-- A route that is found is in the table of a state with the invariant. -/
theorem ipRouteFindByIface (addr : InAddr) : Ensures I (ipRouteFindByIface addr) fun r =>
    ∀ route, r = some route → ∃ s, I s ∧ s.rib.ipRouteFindByIface addr = some (some route) := by
  unfold State.ipRouteFindByIface
  refine .bind .get fun s hs => .bind (P := fun r => s.rib.ipRouteFindByIface addr = some r)
    (.ofOption fun _ hr => hr) fun r hr => ?_
  have hroute : ∀ route, r = some route → ∃ s, I s ∧ s.rib.ipRouteFindByIface addr = some (some route) := by
    rintro route rfl
    exact ⟨s, hs, hr⟩
  dsimp only
  exact .ite (fun _ => .seq (h.setErrno _) fun _ => .pure hroute) fun _ => .pure hroute

theorem ipRouteFindByNetwork (addr : InAddr) : Ensures I (ipRouteFindByNetwork addr) fun r =>
    ∀ route, r = some route → ∃ s, I s ∧ s.rib.ipRouteFindByNetwork addr = some (some route) := by
  unfold State.ipRouteFindByNetwork
  refine .bind .get fun s hs => .bind (P := fun r => s.rib.ipRouteFindByNetwork addr = some r)
    (.ofOption fun _ hr => hr) fun r hr => ?_
  have hroute : ∀ route, r = some route → ∃ s, I s ∧ s.rib.ipRouteFindByNetwork addr = some (some route) := by
    rintro route rfl
    exact ⟨s, hs, hr⟩
  dsimp only
  exact .ite (fun _ => .seq (h.setErrno _) fun _ => .pure hroute) fun _ => .pure hroute

/-- What the cache knows is a station. -/
theorem cachedHaddr {s : Stack} (hs : I s) {ipAddr : InAddr} {mac : MacAddr}
    (hmac : cachedHaddr s.arp ipAddr = some (some mac)) : K ipAddr mac := by
  unfold State.cachedHaddr at hmac
  obtain ⟨entry, hfind, hentry⟩ := Option.bind_eq_some_iff.mp hmac
  cases entry with
  | none => cases hentry
  | some i =>
    have hcmp : s.arp.arpCacheCmp ipAddr i = 0 := Tree.Find.rbFind_eq_zero hfind
    have haddr : ipAddr = (s.arp.slot i).ipAddr := addrCmp_eq_zero.mp hcmp
    dsimp only at hentry
    split_ifs at hentry
    · obtain rfl : (s.arp.slot i).haddr = mac := Option.some.inj (Option.some.inj hentry)
      rw [haddr]
      exact h.cached s i hs
    · cases hentry

theorem arpCacheGetHaddr (iface ipAddr : InAddr) :
    Ensures I (arpCacheGetHaddr env iface ipAddr) fun r => ∀ mac, r = some mac → K ipAddr mac := by
  unfold State.arpCacheGetHaddr
  refine .bind .get fun s hs => ?_
  refine .bind (P := fun r => ∀ mac, r = some mac → K ipAddr mac) (.ofOption fun r hr => ?_) fun r hr => ?_
  · rintro mac rfl
    exact h.cachedHaddr hs hr
  · cases r with
    | some mac => exact .pure hr
    | none =>
      have hnone : ∀ mac, (none : Option MacAddr) = some mac → K ipAddr mac := fun _ hmac => by cases hmac
      refine .bind (h.ipRouteFindByIface _) fun route hroute => ?_
      cases route with
      | none => exact .pure hnone
      | some route =>
        obtain ⟨u, hu, hfind⟩ := hroute route rfl
        refine .seq (h.arpRequest fun t ht => h.request u t iface ipAddr route hu ht hfind) fun retval => ?_
        dsimp only
        exact .ite (fun _ => .seq (h.setErrno _) fun _ => .pure hnone) fun _ => .pure hnone

theorem ipDeferPush (dst : InAddr) (proto : UInt8) (buf : Buf) (bsize : ℕ) :
    Ensures I (ipDeferPush dst proto buf bsize) fun _ => True := by
  intro s hs
  refine ⟨h.other s _ rfl rfl rfl rfl (fun i => ?_) hs, fun _ _ => trivial⟩
  show ((DeferQueue.ipDeferPush s.defer dst proto buf bsize).2.slot i).bufSize = _
  unfold DeferQueue.ipDeferPush
  split_ifs
  · rfl
  · rfl
  · rfl
  · by_cases hi : i = s.defer.qWr
    · subst hi
      simp
    · simp [hi]

theorem sendLoop {dstMac : MacAddr} {ipHdr : IpHdr} (hdst : ∃ a, K a dstMac) (h20 : 20 ≤ ipHdrHlen ipHdr)
    (hF : ∀ data, FromTo ipHdr.ipSrc ipHdr.ipDst data → F dstMac etherProtoIpv4 data) (handle : ℤ) :
    ∀ (fuel : ℕ) (b : Buf) (bytes offset : ℕ) (retval : ℤ),
    Ensures I (sendLoop env handle dstMac ipHdr fuel b bytes offset retval) fun _ => True
  | 0, _, _, _, _ => .stuck
  | fuel + 1, b, bytes, offset, retval => by
    have hle := ipHdrHlen_le ipHdr
    set plen := nextFragmentSize bytes (ipHdrHlen ipHdr) etherDataLen with hplen
    have hmtu : plen ≤ etherDataLen := by
      rw [hplen]
      unfold nextFragmentSize ipOffRound etherDataLen
      split_ifs
      · omega
      · omega
    have hlen : (fragmentHdr ipHdr plen (bytes - plen) offset).ipLen.toNat = ipHdrHlen ipHdr + plen := by
      show (UInt16.ofNat (ipHdrHlen ipHdr + plen)).toNat = _
      unfold etherDataLen at hmtu
      exact UInt16.toNat_ofNat_of_lt' (show _ < 65536 by omega)
    have hpacket : FromTo ipHdr.ipSrc ipHdr.ipDst
        (slice (fragmentPacket b ipHdr plen (bytes - plen) offset) (ipHdrHlen ipHdr + plen)) :=
      fromTo_slice (fragmentHdr ipHdr plen (bytes - plen) offset)
        (fun i hi => copy_outside (Or.inl (hi.trans_le h20))) (by unfold ipHdrSize; omega)
    unfold Send.sendLoop
    refine .seq (h.etherSend (Or.inr hdst) (Or.inr rfl) fun _ => ?_) fun eret => ?_
    · rw [hlen]
      exact hF _ hpacket
    · refine .ite (fun _ => .pure trivial) fun _ => .ite (fun _ => ?_) fun _ => .pure trivial
      exact sendLoop hdst h20 hF handle fuel _ _ _ _

/-- **The packets** of a datagram: each goes from the interface to its destination. -/
theorem ipSendTo {dstMac : MacAddr} {route : IpRoute} {dst : InAddr} (hdst : K dst dstMac)
    (hroute : ∃ s, I s ∧ s.rib.ipRouteFindByNetwork dst = some (some route)) (proto : UInt8)
    (buf : Buf) (bsize : ℕ) : Ensures I (ipSendTo env route dstMac dst proto buf bsize) fun _ => True := by
  obtain ⟨u, hu, hfind⟩ := hroute
  have hF : ∀ data, FromTo route.rIface dst data → F dstMac etherProtoIpv4 data := fun data =>
    h.packet u dst route dstMac data hu hfind hdst
  unfold Send.ipSendTo
  refine .ite (fun _ => .stuck) fun _ => .bind .get fun s _ => ?_
  refine .seq (.modify fun s hs => h.other s _ rfl rfl rfl rfl (fun _ => rfl) hs) fun _ => ?_
  set host := sendHdr route dst proto s.ipGlobalId (ipHdrSize + bsize) with hhost
  refine .ite (fun _ => h.etherSend (Or.inr ⟨dst, hdst⟩) (Or.inr rfl) fun _ => ?_) fun _ => ?_
  · exact hF _ (fromTo_slice host (fun _ _ => rfl) (Nat.le_add_right _ _))
  · obtain ⟨csum, hload⟩ := load_ipHton (copy (fun _ => 0) ipHdrSize buf bsize) host
    have hhdr : ipNtoh (IpHdr.load (sendPacket host buf bsize)) = { host with ipCsum := csum } := by
      unfold sendPacket
      rw [hload]
      simp [ipNtoh]
    refine .seq ?_ fun retval => ?_
    · unfold ipSendFragments
      rw [hhdr]
      refine h.sendLoop ⟨dst, hdst⟩ ?_ hF _ _ _ _ _ _
      show 20 ≤ (ipVhlDefault &&& 0x0f).toNat * 4
      decide
    · exact .ite (fun _ => .seq (h.setErrno _) fun _ => .pure trivial) fun _ => .pure trivial

theorem ipSendLater (dst : InAddr) (proto : UInt8) (buf : Buf) (bsize : ℕ) :
    Ensures I (ipSendLater dst proto buf bsize) fun _ => True := by
  unfold Send.ipSendLater
  refine .bind .get fun s _ => .ite (fun _ => ?_) fun _ => .pure trivial
  refine .seq (h.ipDeferPush _ _ _ _) fun retval => .ite (fun _ => .pure trivial) fun _ => ?_
  exact .seq (h.setErrno _) fun _ => .pure trivial

/-- **`ip_send`.** -/
theorem ipSend (dst : InAddr) (proto : UInt8) (buf : Buf) (bsize : ℕ) :
    Ensures I (ipSend env dst proto buf bsize) fun _ => True := by
  unfold Send.ipSend
  refine .bind (h.ipRouteFindByNetwork dst) fun route hroute => ?_
  cases route with
  | none => exact .seq (h.setErrno _) fun _ => .pure trivial
  | some route =>
    refine .bind (h.arpCacheGetHaddr _ _) fun mac hmac => ?_
    cases mac with
    | none => exact h.ipSendLater _ _ _ _
    | some mac => exact h.ipSendTo (hmac mac rfl) (hroute route rfl) _ _ _

theorem countTry : Ensures I countTry fun _ => True := .modify fun s hs => by
  refine h.other s _ rfl rfl rfl rfl (fun i => ?_) hs
  show ((DeferQueue.countTry s.defer).slot i).bufSize = _
  unfold DeferQueue.countTry
  by_cases hi : i = s.defer.qRd
  · subst hi
    simp
  · simp [hi]

theorem ipDeferDrop : Ensures I ipDeferDrop fun _ => True :=
  .modify fun s hs => h.other s _ rfl rfl rfl rfl (fun _ => rfl) hs

theorem sendDeferred (ipd : IpDefer) : Ensures I (sendDeferred env ipd) fun _ => True := by
  refine .seq (.modify fun s hs => h.other s _ rfl rfl rfl rfl (fun _ => rfl) hs) fun _ => ?_
  exact h.ipSend _ _ _ _

theorem deferLoop : ∀ fuel, Ensures I (deferLoop env fuel) fun _ => True
  | 0 => .stuck
  | fuel + 1 => by
    have hnext : Ensures I (Send.ipDeferDrop >>= fun _ => Send.deferLoop env fuel) fun _ => True :=
      .seq h.ipDeferDrop fun _ => deferLoop fuel
    unfold Send.deferLoop
    refine .bind .get fun s _ => .ite (fun _ => .pure trivial) fun _ => ?_
    refine .seq h.countTry fun _ => .ite (fun _ => hnext) fun _ => ?_
    refine .seq (h.sendDeferred _) fun retval => .bind .get fun s _ => ?_
    exact .ite (fun _ => h.countTry) fun _ => hnext

theorem ipDeferHandler : Ensures I (ipDeferHandler env) fun _ => True := by
  refine .seq (.modify fun s hs => h.other s _ rfl rfl rfl rfl (fun _ => rfl) hs) fun _ => ?_
  exact h.deferLoop _

/-! ### Receiving -/

theorem callHandler (proto : Proto) (ip : IpHdr) (b : Buf) (size : ℕ) :
    Ensures I (callHandler env proto ip b size) fun _ => True := by
  have hproto : Ensures I (protoInput env proto ip b (ipHdrHlen ip) size) fun _ => True := by
    refine .of_steps (protoInput_handled env proto ip b _ size) ?_
    rintro s _ ⟨tcp, udp, rfl⟩ hs
    exact h.other s _ rfl rfl rfl rfl (fun _ => rfl) hs
  unfold Input.callHandler
  refine .seq (.modify fun s hs => h.other s _ rfl rfl rfl rfl (fun _ => rfl) hs) fun _ => ?_
  refine .seq hproto fun x => ?_
  exact .ite (fun _ => .pure trivial) fun _ => .ite (fun _ => .pure trivial) fun _ => .pure trivial

theorem ipCheck {src : Option MacAddr} {ip : IpHdr} {bsize : ℕ}
    (hsrc : ∀ mac, src = some mac → ipAccepts ip bsize → K ip.ipSrc mac) :
    Ensures I (ipCheck src ip bsize) fun _ => True := by
  unfold Input.ipCheck
  refine .ite (fun hacc => .seq ?_ fun _ => .bind (h.ipRouteFindByIface _) fun _ _ => .pure trivial) fun _ =>
    .pure trivial
  unfold learnSender
  cases src with
  | none => exact .pure trivial
  | some mac => exact .seq (h.arpCacheInsert (hsrc mac rfl hacc) _) fun _ => .pure trivial

/-- `ip_input`, given that `ip_fragment_input` keeps the invariant. -/
theorem ipInputWith {fragmentInput : IpHdr → Buf → Act ℤ}
    (hfrag : ∀ ip b, Ensures I (fragmentInput ip b) fun _ => True) {src : Option MacAddr} {b : Buf} {bsize : ℕ}
    (hsrc : ∀ mac, src = some mac → ipAccepts (hdrOf src b) bsize → K (hdrOf src b).ipSrc mac) :
    Ensures I (ipInputWith env fragmentInput src b bsize) fun _ => True := by
  unfold Input.ipInputWith
  refine .seq (h.ipCheck hsrc) fun call => ?_
  match call with
  | none => exact .pure trivial
  | some (.unreachable _ _) => exact .pure trivial
  | some (.fragment _) => exact .seq (hfrag _ _) fun _ => .pure trivial
  | some (.handler _ _) => exact h.callHandler _ _ _ _

theorem setPool (pool : Pool) : Ensures I (modify fun s => { s with pool := pool }) fun _ => True :=
  .modify fun s hs => h.other s _ rfl rfl rfl rfl (fun _ => rfl) hs

/-- **`ip_fragment_input`** with the datagram that it completes. -/
theorem ipFragmentInput (ip : IpHdr) (b : Buf) : Ensures I (ipFragmentInput env ip b) fun _ => True := by
  unfold Input.ipFragmentInput
  refine .bind .get fun s _ => .seq (.ofOption fun _ _ => trivial) fun x => ?_
  refine .seq (h.setPool _) fun _ => ?_
  match x.1 with
  | .emsgsize => exact .pure trivial
  | .nobufs => exact .pure trivial
  | .stored => exact .pure trivial
  | .complete i =>
    unfold completeFragments
    refine .bind .get fun s _ => .seq ?_ fun y => ?_
    · exact h.ipInputWith (fun _ _ => .stuck) fun _ hmac => by cases hmac
    · refine .seq (.modify fun s hs => h.other s _ rfl rfl rfl rfl (fun _ => rfl) hs) fun _ => ?_
      refine .seq (h.ipSend _ _ _ _) fun _ => .bind .get fun s _ => ?_
      refine .seq (.ofOption fun _ _ => trivial) fun pool => ?_
      exact .seq (h.setPool _) fun _ => .pure trivial

theorem arpInput {b : Buf} (hsha : K (arpNtoh (ArpIp.load b)).arpSpa (ArpIp.load b).arpSha) (bsize : ℕ) :
    Ensures I (arpInput env b bsize) fun _ => True := by
  unfold Input.arpInput
  refine .ite (fun _ => .pure trivial) fun _ => .ite (fun _ => .pure trivial) fun _ => ?_
  refine .seq (h.arpCacheInsert hsha _) fun _ => .seq h.ipDeferHandler fun _ => ?_
  refine .ite (fun _ => .bind (h.ipRouteFindByIface _) fun route _ => ?_) fun _ => .pure trivial
  cases route with
  | none => exact .pure trivial
  | some route => exact .bind (h.etherHandle2addr _) fun _ _ => .pure trivial

/-- **`ether_input`** hands on frames of the two protocols only. -/
theorem etherInput {hdr : EtherHdr} {b : Buf} {bsize : ℕ} (hk : Tells K hdr b bsize) :
    Ensures I (etherInput env hdr b bsize) fun x =>
      0 < x.1 → hdr.hProto = etherProtoArp ∨ hdr.hProto = etherProtoIpv4 := by
  unfold Input.etherInput
  rcases hfn : etherProtoInput env hdr b bsize with _ | fn
  · exact .seq (h.setErrno _) fun _ => .pure fun hpos => by simp at hpos
  · have hproto : (hdr.hProto = etherProtoArp ∨ hdr.hProto = etherProtoIpv4) ∧
        Ensures I fn fun _ => True := by
      unfold etherProtoInput at hfn
      split_ifs at hfn with harp hip
      · rw [← Option.some.inj hfn]
        exact ⟨Or.inl harp, h.arpInput (hk.arp harp) _⟩
      · rw [← Option.some.inj hfn]
        refine ⟨Or.inr hip, h.ipInputWith h.ipFragmentInput fun mac hmac hacc => ?_⟩
        obtain rfl := Option.some.inj hmac
        exact hk.ip hip hacc
    refine .seq hproto.2 fun x => .ite (fun _ => ?_) fun _ => .pure fun _ => hproto.1
    exact .seq (h.setErrno _) fun _ => .pure fun _ => hproto.1

theorem etherOutputReply {hdr : EtherHdr} {b : Buf} {bsize : ℕ} (hsrc : ∃ a, K a hdr.hSrc)
    (hproto : hdr.hProto = etherProtoArp ∨ hdr.hProto = etherProtoIpv4)
    (hF : F hdr.hSrc hdr.hProto (slice b bsize)) :
    Ensures I (etherOutputReply env hdr b bsize) fun _ => True := by
  unfold Input.etherOutputReply
  refine .seq (h.etherSend (Or.inr hsrc) hproto fun _ => hF) fun retval => .ite (fun _ => ?_) fun _ =>
    .pure trivial
  exact .seq (h.setErrno _) fun _ => .pure trivial

/-! ### Start-up and turns -/

theorem arpGratuitous {handle : ℤ} {spa : InAddr}
    (hF : ∀ t, I t → F macBroadcastAddr etherProtoArp (requestData t.mac spa spa)) :
    Ensures I (arpGratuitous env handle spa) fun _ => True := by
  unfold State.arpGratuitous
  rw [← bind_assoc]
  exact .seq (h.sendMsg hF) fun _ => .pure trivial

theorem setShmem (i : ℕ) (m : Buf) : Ensures I (setShmem i m) fun _ => True :=
  .modify fun s hs => h.other s _ rfl rfl rfl rfl (fun _ => rfl) hs

theorem xstackBind (sock : XstackSock) (i : ℕ) : Ensures I (xstackBind env sock i) fun _ => True := by
  have hfail : ∀ e, Ensures I (State.setErrno e >>= fun _ => Pure.pure (-1 : ℤ)) fun _ => True := fun e =>
    .seq (h.setErrno e) fun _ => .pure trivial
  unfold Daemon.xstackBind
  cases sock.sockProto with
  | none => exact hfail _
  | tcp => exact hfail _
  | last => exact hfail _
  | udp =>
    refine .bind .get fun s _ => .seq (.ofOption fun _ _ => trivial) fun res => ?_
    cases res with
    | einval => exact hfail _
    | eaddrinuse => exact hfail _
    | bound udp =>
      exact .seq (.modify fun s hs => h.other s _ rfl rfl rfl rfl (fun _ => rfl) hs) fun _ => .pure trivial

theorem xstackInit (pid : UInt32) : ∀ (sockets : List XstackSock) (i : ℕ),
    Ensures I (xstackInit env pid sockets i) fun _ => True
  | [], _ => .pure trivial
  | sock :: sockets, i => by
    unfold Daemon.xstackInit
    refine .seq (h.setShmem _ _) fun _ => .seq (h.xstackBind _ _) fun retval => ?_
    exact .ite (fun _ => .stuck) fun _ => xstackInit pid sockets (i + 1)

/-- **`ip_config`,** from the routing table of start-up on. -/
theorem ipConfig {setup : Setup} (hs : I setup.stack) (hmac : K setup.ipAddr setup.mac)
    (hroute : ∀ s rib, I s → s.rib = Rib.init →
      Rib.init.ipRouteUpdate (ownRoute setup) = some rib → I { s with rib := rib })
    (hF : ∀ t, I t → F macBroadcastAddr etherProtoArp (requestData t.mac setup.ipAddr setup.ipAddr)) :
    I (ipConfig env etherHandle setup.ipAddr setup.netmask setup.stack).2 := by
  have haddr : State.etherHandle2addr etherHandle setup.stack = (some (some setup.mac), setup.stack) := rfl
  have hinsert := (h.arpCacheInsert hmac .static).keeps hs
  have hlearn := Validate.arpCacheInsert_learned setup.ipAddr setup.mac .static setup.stack
  unfold State.ipConfig
  rw [bind_of_some haddr]
  dsimp only
  rcases hrun : State.arpCacheInsert setup.ipAddr setup.mac .static setup.stack with ⟨_ | r, t⟩
  · rw [bind_of_none hrun]
    rwa [hrun] at hinsert
  · rw [bind_of_some hrun]
    rw [hrun] at hinsert hlearn
    obtain ⟨arp, e, rfl⟩ := hlearn
    have hone : Ensures I (State.arpGratuitous env etherHandle setup.ipAddr) fun _ => True :=
      h.arpGratuitous hF
    unfold ipAnnounce
    rw [get_bind]
    dsimp only
    rcases hupd : Rib.init.ipRouteUpdate (ownRoute setup) with _ | rib
    · have hstuck : setup.stack.rib.ipRouteUpdate (ownRoute setup) = none := hupd
      unfold ownRoute at hstuck
      rw [hstuck]
      exact hinsert
    · have hrib : setup.stack.rib.ipRouteUpdate (ownRoute setup) = some rib := hupd
      unfold ownRoute at hrib
      rw [hrib, ofOption_some, bind_pure, modify_bind]
      exact Ensures.keeps (P := fun _ => True) (.seq hone fun _ => .seq hone fun _ => .seq hone fun _ =>
        .pure trivial) (hroute _ rib hinsert rfl hupd)

/-- **Start-up.** -/
theorem boot {setup : Setup} (hs : I setup.stack) (hmac : K setup.ipAddr setup.mac)
    (hroute : ∀ s rib, I s → s.rib = Rib.init →
      Rib.init.ipRouteUpdate (ownRoute setup) = some rib → I { s with rib := rib })
    (hF : ∀ t, I t → F macBroadcastAddr etherProtoArp (requestData t.mac setup.ipAddr setup.ipAddr)) :
    I (Process.boot env setup).stack := by
  have hconfig := h.ipConfig hs hmac hroute hF
  show I ((setup.start env >>= fun _ => Pure.pure fun _ => 0 : Act Buf) setup.stack).2
  unfold Setup.start
  rw [bind_assoc]
  rcases hrun : State.ipConfig env etherHandle setup.ipAddr setup.netmask setup.stack with ⟨_ | retval, t⟩
  · rw [bind_of_none hrun]
    rwa [hrun] at hconfig
  · rw [bind_of_some hrun]
    rw [hrun] at hconfig
    refine Ensures.keeps (P := fun _ => True) (.seq (.ite (fun _ => .stuck) fun _ => ?_) fun _ => .pure trivial)
      hconfig
    exact h.xstackInit _ _ _

theorem ingressTurn {s : Stack} (hs : I s) {frames : List (List UInt8)} {rxBuffer : Buf}
    (hk : (Turn.receive frames).Hears H s rxBuffer) :
    I (ingressTurn env frames rxBuffer s).2 := by
  unfold Daemon.ingressTurn
  rw [get_bind]
  rcases hrecv : etherReceive s.mac rxBuffer etherMaxlen frames with _ | _ | ⟨hdr, b, retval⟩
  · exact hs
  · exact hs
  · have hheard := hk hdr b retval hrecv
    have htells := h.tells hdr b retval hheard
    dsimp only
    split_ifs with hn
    · have hin := h.etherInput htells s hs
      rcases hrun : Input.etherInput env hdr b retval s with ⟨_ | ⟨r, c⟩, t⟩
      · rw [bind_of_none hrun]
        rw [hrun] at hin
        exact hin.1
      · rw [bind_of_some hrun]
        rw [hrun] at hin
        dsimp only
        split_ifs with hpos
        · refine Ensures.keeps (P := fun _ => True) (.seq ?_ fun _ => .pure trivial) hin.1
          refine h.etherOutputReply htells.sender (hin.2 _ rfl hpos) ?_
          exact h.reply s t hdr b c retval r hs hheard (etherReceive_size hrecv) hrun hpos
        · exact hin.1
    · exact hs

theorem runPeriodicTasks (deltaTime : ℤ) :
    Ensures I (runPeriodicTasks env deltaTime) fun _ => True :=
  .seq (h.arpCacheUpdate deltaTime) fun _ => .seq h.ipDeferHandler fun _ => .pure trivial

theorem protoSend (proto : XstackSockProto) (sockAddr : SockAddr) (dgram : XstackDgram) :
    Ensures I (protoSend env proto sockAddr dgram) fun _ => True := by
  cases proto with
  | none => exact .pure trivial
  | tcp => exact .pure trivial
  | last => exact .pure trivial
  | udp =>
    refine .seq ?_ fun _ => .pure trivial
    unfold xstackUdpSend
    exact .ite (fun _ => .pure trivial) fun _ => h.ipSend _ _ _ _

theorem egressTurn (sockets : List XstackSock) (i : ℕ) :
    Ensures I (egressTurn env sockets i) fun _ => True := by
  unfold Daemon.egressTurn
  rcases sockets[i]? with _ | sock
  · exact .pure trivial
  · refine .bind .get fun s _ => ?_
    rcases egressStep (s.udp.sock i).shmem with ⟨_ | dgram, m⟩
    · exact .pure trivial
    · exact .seq (h.protoSend _ _ _) fun _ => h.setShmem _ _

theorem clientSendto (i : ℕ) (buffer : List UInt8) (destAddr : SockAddr) :
    Ensures I (clientSendto i buffer destAddr) fun _ => True := by
  unfold Daemon.clientSendto
  refine .bind .get fun s _ => ?_
  rcases xstackSendto (s.udp.sock i).shmem buffer destAddr with _ | _ | m
  · exact .pure trivial
  · exact .pure trivial
  · exact h.setShmem _ _

theorem clientRecvfrom (i : ℕ) (r : Recvfrom) : Ensures I (clientRecvfrom i r) fun _ => True := by
  unfold Daemon.clientRecvfrom
  refine .bind .get fun s _ => ?_
  rcases xstackRecvfrom (s.udp.sock i).shmem r with _ | ⟨_, m⟩
  · exact .pure trivial
  · exact h.setShmem _ _

/-- **A turn keeps the invariant.** -/
theorem turn {s : Stack} (hs : I s) {sockets : List XstackSock} {rxBuffer : Buf} (turn : Turn)
    (hk : turn.Hears H s rxBuffer) : I (turn.act env sockets rxBuffer s).2 := by
  have hret : ∀ {x : Act Unit}, Ensures I x (fun _ => True) → I ((x >>= fun _ => Pure.pure rxBuffer) s).2 :=
    fun hx => (Ensures.seq (Q := fun _ => True) hx fun _ => .pure trivial).keeps hs
  cases turn with
  | receive frames => exact h.ingressTurn hs hk
  | tick deltaTime => exact hret (h.runPeriodicTasks deltaTime)
  | egress i => exact hret (h.egressTurn sockets i)
  | sendto i buffer destAddr => exact hret (h.clientSendto i buffer destAddr)
  | recvfrom i r => exact hret (h.clientRecvfrom i r)

end Invariant

end Xstack.Net.Daemon
