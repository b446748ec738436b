import Xstack.Net.Boot
import Xstack.Net.Effect

/-! # From a frame to the client

The UDP datagrams that `ip_input` accepts for the address of a socket, and what the clients of the socket
receive, over whole runs of the daemon. The path of a datagram: `ip_input`, perhaps reassembly,
`udp_input`, the search for the socket, the ingress queue, `xstack_recvfrom`.

* `Ready`: what start-up leaves, and no turn changes: only the address of the interface is local, and the
  tree of sockets has the socket.
* `Feeds`: what a function adds to the calls of handlers, it adds to the queue of the socket, in the same
  order; `Returns Feeds` for all functions of the daemon but `xstack_recvfrom`.
* `Delivered`: the datagrams so far, what the clients have received, and what waits in the queue.
* `delivery`: whole runs. -/

namespace Xstack.Net.Deliver

open Xstack.Config Xstack.Lib.Bytes Xstack.Lib.Program Xstack.Ether Xstack.Ip.Header
open Xstack.Ip.Fragment Xstack.Ip.Route Xstack.Sock.Queue Xstack.Sock.Fifo Xstack.Sock.Inbox Xstack.Udp
open Xstack.Net.State Xstack.Net.Send Xstack.Net.Input Xstack.Net.Frame Xstack.Net.Validate
open Xstack.Net.Periodic Xstack.Net.Daemon Xstack.Net.Effect Xstack.Net.Boot

/-! ### Datagrams and receives -/

/-- **The datagram for socket `i`** that a call of a handler is about, with the address and the port of its
sender. `ip_input` calls handlers only for the address of the interface. -/
def datagramFor (setup : Setup) (i : ℕ) (call : HandlerCall) : Option Sock.Fifo.Input :=
  let udp := udpNtoh (UdpHdr.load call.data)
  if call.proto = ipProtoUdp ∧ udpHdrSize ≤ call.size ∧
      sockAddrOf setup i = ⟨setup.ipAddr, udp.udpDport.toUInt32⟩ then
    some ⟨⟨call.src, udp.udpSport.toUInt32⟩, slice (shift call.data udpHdrSize) (call.size - udpHdrSize)⟩
  else none

/-- The receive on socket `i` that returns in the turn, with its result. -/
def received (i : ℕ) (s : Stack) : Turn → List (Recvfrom × Received)
  | .recvfrom j r =>
    if j = i then ((xstackRecvfrom (s.udp.sock i).shmem r).map fun x => (r, x.1)).toList else []
  | _ => []

/-- All receives on socket `i` in a run. -/
def receives (env : Env) (setup : Setup) (i : ℕ) : Process → List Turn → List (Recvfrom × Received)
  | _, [] => []
  | p, turn :: turns => received i p.stack turn ++ receives env setup i (p.step env setup turn) turns

section

variable (env : Env) (setup : Setup) (i : ℕ)

/-- **What start-up leaves.** -/
structure Ready (s : Stack) : Prop where
  iface : ∀ a route, s.rib.ipRouteFindByIface a = some (some route) → a = setup.ipAddr
  table : ∃ bound, Bind.Inv env.mc ⟨s.udp, bound⟩ ∧ i ∈ bound
  addr : Bind.addr s.udp i = sockAddrOf setup i

/-- The datagrams for the socket fit in the slots of its queue. -/
def Fit (calls : List HandlerCall) : Prop :=
  ∀ x ∈ calls.filterMap (datagramFor setup i), x.buf.length ≤ dgramMax

/-- **The datagrams of the calls are appended to the queue,** and the rest of it is as before. -/
def Queued (calls : List HandlerCall) (m m' : Buf) : Prop :=
  ∀ d l, Waiting (sockAddrOf setup i) m d l →
    Waiting (sockAddrOf setup i) m' d (l ++ calls.filterMap (datagramFor setup i))

/-- **Handlers are called, and their datagrams are in the queue.** -/
def Feeds (s t : Stack) : Prop :=
  Ready env setup i s → Ready env setup i t ∧ ∃ calls, t.calls = s.calls ++ calls ∧
    (Fit setup i calls → Queued setup i calls (s.udp.sock i).shmem (t.udp.sock i).shmem)

end

variable {env : Env} {setup : Setup} {i : ℕ} {s t u : Stack}

theorem fit_append {calls calls' : List HandlerCall} (h : Fit setup i (calls ++ calls')) :
    Fit setup i calls ∧ Fit setup i calls' := by
  unfold Fit at h
  rw [List.filterMap_append] at h
  exact ⟨fun x hx => h x (List.mem_append_left _ hx), fun x hx => h x (List.mem_append_right _ hx)⟩

theorem Queued.none {call : HandlerCall} (hc : datagramFor setup i call = none) (m : Buf) :
    Queued setup i [call] m m := by
  intro d l hw
  rw [List.filterMap_cons_none hc]
  rwa [List.filterMap_nil, List.append_nil]

theorem Queued.refl (m : Buf) : Queued setup i [] m m := by
  intro d l hw
  rwa [List.filterMap_nil, List.append_nil]

theorem Queued.trans {calls calls' : List HandlerCall} {m m' m'' : Buf} (h : Queued setup i calls m m')
    (h' : Queued setup i calls' m' m'') : Queued setup i (calls ++ calls') m m'' := by
  intro d l hw
  have hboth := h' d _ (h d l hw)
  rwa [List.append_assoc, ← List.filterMap_append] at hboth

theorem Feeds.trans (h : Feeds env setup i s t) (h' : Feeds env setup i t u) :
    Feeds env setup i s u := by
  intro hs
  obtain ⟨ht, calls, hcalls, hfit⟩ := h hs
  obtain ⟨hu, calls', hcalls', hfit'⟩ := h' ht
  refine ⟨hu, calls ++ calls', by rw [hcalls', hcalls, List.append_assoc], fun hboth => ?_⟩
  exact (hfit (fit_append hboth).1).trans (hfit' (fit_append hboth).2)

/-- The parts of the state that are not about UDP. -/
theorem Feeds.of_eq (hrib : t.rib = s.rib) (hudp : t.udp = s.udp) (hcalls : t.calls = s.calls) :
    Feeds env setup i s t := by
  intro hs
  refine ⟨⟨hrib ▸ hs.iface, hudp ▸ hs.table, hudp ▸ hs.addr⟩, [], by rw [hcalls, List.append_nil],
    fun _ => ?_⟩
  rw [hudp]
  exact .refl _

theorem Feeds.refl (s : Stack) : Feeds env setup i s s := .of_eq rfl rfl rfl

/-! ### `udp_input` -/

variable {ip : IpHdr} {b c : Buf} {o size : ℕ} {r : ℤ} {udp : UdpTable}

/-- The call in which `ip_input` hands on a packet. -/
def callOf (ip : IpHdr) (b : Buf) (size : ℕ) : HandlerCall :=
  ⟨ip.ipProto, ip.ipSrc, shift b (ipHdrHlen ip), size⟩

theorem datagramFor_call (b : Buf) (size i : ℕ) (hproto : ip.ipProto = ipProtoUdp)
    (hdst : ip.ipDst = setup.ipAddr) :
    datagramFor setup i (callOf ip b size) =
      if udpHdrSize ≤ size ∧ sockAddrOf setup i = Bind.dstOf ip b (ipHdrHlen ip) then
        some ⟨Bind.srcOf ip b (ipHdrHlen ip), Bind.dataOf b (ipHdrHlen ip) size⟩
      else none := by
  unfold datagramFor callOf Bind.dstOf
  rw [hdst, Bind.dataOf_eq]
  by_cases h : udpHdrSize ≤ size ∧ sockAddrOf setup i =
      ⟨setup.ipAddr, (Bind.hdrAt b (ipHdrHlen ip)).udpDport.toUInt32⟩
  · rw [if_pos h]
    exact if_pos ⟨hproto, h⟩
  · rw [if_neg h]
    exact if_neg fun h' => h h'.2

/-- The tree finds the socket for the datagrams that are for it, and only for them. -/
theorem Ready.find (hs : Ready env setup i s) (a : SockAddr) :
    ∃ found, s.udp.findUdpSocket env.mc a = some found ∧ (found = some i ↔ sockAddrOf setup i = a) := by
  obtain ⟨bound, hI, hi⟩ := hs.table
  obtain ⟨found, h1, h2⟩ := hI.find a
  refine ⟨found, h1, ?_⟩
  rw [h2, ← hs.addr]
  exact and_iff_right hi

/-- **`udp_input`** of a packet for the interface puts the datagram into the queue if it is for the
socket. -/
theorem udpInput_feeds (hs : Ready env setup i s) (hproto : ip.ipProto = ipProtoUdp)
    (hdst : ip.ipDst = setup.ipAddr)
    (h : s.udp.udpInput env.mc ip b (ipHdrHlen ip) size = some (r, udp, c)) :
    (∃ bound, Bind.Inv env.mc ⟨udp, bound⟩ ∧ i ∈ bound) ∧ Bind.addr udp i = sockAddrOf setup i ∧
      (Fit setup i [callOf ip b size] →
        Queued setup i [callOf ip b size] (s.udp.sock i).shmem (udp.sock i).shmem) := by
  obtain ⟨bound, hI, hi⟩ := hs.table
  have hdatagram := datagramFor_call b size i hproto hdst
  refine ⟨⟨bound, (hI.input h).1, hi⟩, ?_⟩
  by_cases hshort : size < udpHdrSize
  · rw [Bind.udpInput_short hshort] at h
    obtain ⟨-, rfl, -⟩ : _ ∧ s.udp = udp ∧ _ := by simpa using h
    rw [if_neg fun hc => absurd hc.1 (not_le.mpr hshort)] at hdatagram
    exact ⟨hs.addr, fun _ => .none hdatagram _⟩
  have hsize := not_lt.mp hshort
  obtain ⟨found, hfind, hfound⟩ := hs.find (Bind.dstOf ip b (ipHdrHlen ip))
  rcases found with _ | j
  · rw [Bind.udpInput_absent hsize hfind] at h
    obtain ⟨-, rfl, -⟩ : _ ∧ s.udp = udp ∧ _ := by simpa using h
    rw [if_neg fun hc => by cases hfound.mpr hc.2] at hdatagram
    exact ⟨hs.addr, fun _ => .none hdatagram _⟩
  · rw [Bind.udpInput_found hsize hfind] at h
    unfold Bind.handTo at h
    split_ifs at h
    obtain ⟨shmem, hin, heq⟩ := Option.map_eq_some_iff.mp h
    obtain rfl : withShmem s.udp j shmem = udp := (Prod.mk.inj (Prod.mk.inj heq).2).1
    refine ⟨(addr_withShmem _ _ _ _).trans hs.addr, ?_⟩
    by_cases hj : j = i
    · subst hj
      rw [if_pos ⟨hsize, hfound.mp rfl⟩] at hdatagram
      have haddr : (s.udp.sock j).sockAddr = sockAddrOf setup j := hs.addr
      have hcalls : [callOf ip b size].filterMap (datagramFor setup j) =
          [⟨Bind.srcOf ip b (ipHdrHlen ip), Bind.dataOf b (ipHdrHlen ip) size⟩] :=
        List.filterMap_cons_some hdatagram
      rw [haddr] at hin
      intro hfit d l hw
      rw [withShmem_self, hcalls]
      exact hw.input (hfit _ (by rw [hcalls]; exact List.mem_singleton_self _)) hin
    · rw [if_neg fun hc => hj (Option.some.inj (hfound.mpr hc.2))] at hdatagram
      rw [withShmem_ne (Ne.symm hj)]
      exact fun _ => .none hdatagram _

/-! ### The calls of handlers -/

variable {proto : Proto}

theorem findProto_udp {p : UInt8} (h : findProto p = some proto) : p = ipProtoUdp ↔ proto = .udp := by
  unfold findProto at h
  split_ifs at h with h1 h2 h3
  · obtain rfl := Option.some.inj h
    rw [h1]
    decide
  · obtain rfl := Option.some.inj h
    rw [h2]
    decide
  · obtain rfl := Option.some.inj h
    exact iff_of_true h3 rfl

/-- **The call of a handler** for a packet to the interface. -/
theorem callHandler_feeds {x : ℤ × Buf} (hproto : findProto ip.ipProto = some proto)
    (hroute : ∃ route, s.rib.ipRouteFindByIface ip.ipDst = some (some route))
    (h : callHandler env proto ip b size s = (some x, t)) : Feeds env setup i s t := by
  obtain ⟨r, c, hrun⟩ := callHandler_returned h
  obtain ⟨ht, -, hudp⟩ := protoInput_returned hrun
  have hrib : t.rib = s.rib := by rw [ht]; rfl
  have hcalls : t.calls = s.calls ++ [callOf ip b size] := by rw [ht]; rfl
  intro hs
  obtain ⟨route, hroute⟩ := hroute
  have hdst := hs.iface _ _ hroute
  have hiface : ∀ a route, t.rib.ipRouteFindByIface a = some (some route) → a = setup.ipAddr := by
    rw [hrib]
    exact hs.iface
  by_cases hp : proto = .udp
  · rw [if_pos hp] at hudp
    obtain ⟨h3, h4, h5⟩ := udpInput_feeds hs ((findProto_udp hproto).mpr hp) hdst hudp
    exact ⟨⟨hiface, h3, h4⟩, _, hcalls, h5⟩
  · rw [if_neg hp] at hudp
    have hudp : t.udp = s.udp := hudp
    refine ⟨⟨hiface, hudp ▸ hs.table, hudp ▸ hs.addr⟩, _, hcalls, fun _ => ?_⟩
    rw [hudp]
    exact .none (if_neg fun hc => hp ((findProto_udp hproto).mp hc.1)) _

/-- **All functions of the daemon** but `xstack_recvfrom`. -/
theorem feeds_allowed : Allowed env (Feeds env setup i) where
  trans := .trans
  outside hs := by
    obtain ⟨_, _, _, _, _, _, rfl⟩ := hs
    exact .of_eq rfl rfl rfl
  handler := callHandler_feeds

theorem ipFragmentInput_feeds : ∀ ip b, Returns (Feeds env setup i) (ipFragmentInput env ip b) :=
  feeds_allowed.ipFragmentInput fun _ _ => .of_eq rfl rfl rfl

theorem setShmem_ready (hs : Ready env setup i s) (j : ℕ) (m : Buf) :
    Ready env setup i (setShmem j m s).2 := by
  obtain ⟨bound, hI, hi⟩ := hs.table
  exact ⟨hs.iface, ⟨bound, inv_withShmem hI j m, hi⟩, (addr_withShmem _ _ _ _).trans hs.addr⟩

/-- Memory that for the socket differs from the present one in the egress half only. -/
theorem setShmem_feeds {j : ℕ} {m : Buf} (hm : i = j → ∀ k < egressQaddr, m k = (s.udp.sock j).shmem k) :
    Feeds env setup i s (setShmem j m s).2 := by
  intro hs
  refine ⟨setShmem_ready hs j m, [], (List.append_nil _).symm, fun _ d l hw => ?_⟩
  rw [List.filterMap_nil, List.append_nil]
  show Waiting _ ((withShmem s.udp j m).sock i).shmem d l
  by_cases hj : i = j
  · subst hj
    rw [withShmem_self]
    exact hw.congr (hm rfl)
  · rwa [withShmem_ne hj]

theorem egress_feeds : Egress (Feeds env setup i) := fun _ _ _ hm => setShmem_feeds fun _ => hm

/-! ### What the clients receive -/

/-- The datagrams for socket `i` so far. -/
def datagrams (setup : Setup) (i : ℕ) (s : Stack) : List Sock.Fifo.Input :=
  s.calls.filterMap (datagramFor setup i)

/-- **The state of the delivery:** the receives so far returned the first of the datagrams, and the rest
waits. -/
structure Delivered (setup : Setup) (i : ℕ) (s : Stack) (out : List (Recvfrom × Received)) : Prop where
  order : InOrder (datagrams setup i s) out
  taken_le : taken out ≤ (datagrams setup i s).length
  waiting : ∃ d, Waiting (sockAddrOf setup i) (s.udp.sock i).shmem d
    ((datagrams setup i s).drop (taken out))

variable {inputs : List Sock.Fifo.Input} {out : List (Recvfrom × Received)}

theorem inOrder_append (h : InOrder inputs out) (more : List Sock.Fifo.Input) :
    InOrder (inputs ++ more) out := by
  intro k e he
  obtain ⟨x, hx, hres⟩ := h k e he
  refine ⟨x, ?_, hres⟩
  rw [List.getElem?_append_left (List.getElem?_eq_some_iff.mp hx).1, hx]

/-- More datagrams come. -/
theorem Delivered.feeds (h : Delivered setup i s out) (hs : Ready env setup i s)
    (hf : Feeds env setup i s t) (hfit : Fit setup i t.calls) : Delivered setup i t out := by
  obtain ⟨-, calls, hcalls, hqueued⟩ := hf hs
  rw [hcalls] at hfit
  obtain ⟨d, hw⟩ := h.waiting
  have hmore : datagrams setup i t = datagrams setup i s ++ calls.filterMap (datagramFor setup i) := by
    unfold datagrams
    rw [hcalls, List.filterMap_append]
  refine ⟨?_, ?_, d, ?_⟩
  · rw [hmore]
    exact inOrder_append h.order _
  · rw [hmore, List.length_append]
    exact h.taken_le.trans (Nat.le_add_right _ _)
  · rw [hmore, List.drop_append_of_le_length h.taken_le]
    exact hqueued (fit_append hfit).2 d _ hw

/-- A client takes the next datagram, or peeks at it, or waits. -/
theorem Delivered.recvfrom (h : Delivered setup i s out) {r : Recvfrom}
    (hrun : clientRecvfrom i r s = (some (), t)) :
    Delivered setup i t (out ++ received i s (.recvfrom i r)) := by
  unfold clientRecvfrom at hrun
  rw [get_bind] at hrun
  dsimp only [received]
  rw [if_pos rfl]
  obtain ⟨d, hw⟩ := h.waiting
  rcases hnext : (datagrams setup i s).drop (taken out) with _ | ⟨x, l⟩
  · rw [hnext] at hw
    have hnone := hw.recvfrom_nil (r := r)
    rw [hnone] at hrun ⊢
    obtain ⟨-, rfl⟩ := Prod.mk.inj hrun
    rw [Option.map_none, Option.toList_none, List.append_nil]
    exact h
  · rw [hnext] at hw
    obtain ⟨m, hrecv, d', hw'⟩ := hw.recvfrom (r := r)
    rw [hrecv] at hrun ⊢
    obtain ⟨-, rfl⟩ := Prod.mk.inj hrun
    have hx : (datagrams setup i s)[taken out]? = some x := by
      have hhead : ((datagrams setup i s).drop (taken out))[0]? = some x := by rw [hnext]; rfl
      rwa [List.getElem?_drop, Nat.add_zero] at hhead
    have hlt := (List.getElem?_eq_some_iff.mp hx).1
    have hdrop : (datagrams setup i s).drop (taken (out ++ [(r, answer r x)])) =
        if r.peek then x :: l else l := by
      rw [taken_snoc]
      split_ifs
      · exact hnext
      · rw [← List.drop_drop, hnext]
        rfl
    refine ⟨inOrder_snoc h.order hx, ?_, d', ?_⟩
    · rw [Option.map_some, Option.toList_some, taken_snoc]
      split_ifs
      · exact h.taken_le
      · exact hlt
    · show Waiting _ ((withShmem s.udp i m).sock i).shmem d' ((datagrams setup i s).drop _)
      rw [withShmem_self, Option.map_some, Option.toList_some, hdrop]
      exact hw'

/-! ### Runs -/

/-- **One turn.** -/
theorem turn_delivered {turn : Turn} {b b' : Buf} (hs : Ready env setup i s)
    (hrun : turn.act env setup.sockets b s = (some b', t)) :
    Ready env setup i t ∧ (∃ calls, t.calls = s.calls ++ calls) ∧
      ∀ {out}, Delivered setup i s out → Fit setup i t.calls →
        Delivered setup i t (out ++ received i s turn) := by
  have hfeeds : Feeds env setup i s t → received i s turn = [] →
      Ready env setup i t ∧ (∃ calls, t.calls = s.calls ++ calls) ∧
        ∀ {out}, Delivered setup i s out → Fit setup i t.calls →
          Delivered setup i t (out ++ received i s turn) := by
    intro hf hnone
    obtain ⟨ht, calls, hcalls, -⟩ := hf hs
    refine ⟨ht, ⟨calls, hcalls⟩, fun {out} h hfit => ?_⟩
    rw [hnone, List.append_nil out]
    exact h.feeds hs hf hfit
  have hthen : ∀ {x : Act Unit}, Returns (Feeds env setup i) x →
      (x >>= fun _ => Pure.pure b) s = (some b', t) → Feeds env setup i s t := fun hx hrun =>
    (Returns.bind .trans hx fun _ => .pure .refl _).run hrun
  cases turn with
  | receive frames => exact hfeeds ((feeds_allowed.ingressTurn ipFragmentInput_feeds frames b).run hrun) rfl
  | tick deltaTime => exact hfeeds (hthen (feeds_allowed.runPeriodicTasks deltaTime) hrun) rfl
  | egress j => exact hfeeds (hthen (feeds_allowed.egressTurn egress_feeds _ j) hrun) rfl
  | sendto j buffer destAddr =>
    exact hfeeds (hthen (feeds_allowed.clientSendto egress_feeds j buffer destAddr) hrun) rfl
  | recvfrom j r =>
    obtain ⟨_, u, h1, h2⟩ := returned hrun
    obtain rfl : u = t := (Prod.mk.inj h2).2
    have hcase : u = s ∨ ∃ m, u = (setShmem j m s).2 := by
      unfold clientRecvfrom at h1
      rw [get_bind] at h1
      rcases hrecv : xstackRecvfrom (s.udp.sock j).shmem r with _ | ⟨_, m⟩
      · rw [hrecv] at h1
        exact Or.inl (Prod.mk.inj h1).2.symm
      · rw [hrecv] at h1
        exact Or.inr ⟨m, (Prod.mk.inj h1).2.symm⟩
    by_cases hj : j = i
    · subst hj
      have hu : Ready env setup j u ∧ u.calls = s.calls := by
        rcases hcase with rfl | ⟨m, rfl⟩
        · exact ⟨hs, rfl⟩
        · exact ⟨setShmem_ready hs j m, rfl⟩
      exact ⟨hu.1, ⟨[], by rw [hu.2, List.append_nil]⟩, fun h _ => h.recvfrom h1⟩
    · refine hfeeds ?_ (if_neg hj)
      rcases hcase with rfl | ⟨m, rfl⟩
      · exact .refl _
      · exact setShmem_feeds fun heq => absurd heq.symm hj

/-- **The daemon when its threads start.** -/
theorem boot_delivered (hi : i < setup.sockets.length) (hboot : (Process.boot env setup).rxBuffer.isSome) :
    Ready env setup i (Process.boot env setup).stack ∧
      Delivered setup i (Process.boot env setup).stack [] := by
  have hinit := boot_initialised hboot
  obtain ⟨bound, hI, hbound⟩ := hinit.table
  have hnil : datagrams setup i (Process.boot env setup).stack = [] := by
    unfold datagrams
    rw [hinit.calls]
    rfl
  refine ⟨⟨fun a route hfind => ?_, ⟨bound, hI, (hbound i).mpr hi⟩, hinit.addr i⟩, ?_,
    Nat.zero_le _, 0, ?_⟩
  · obtain ⟨o, ho, -, hmem⟩ := hinit.route a
    obtain ⟨hroute, rfl⟩ := hmem route (Option.some.inj (ho.symm.trans hfind))
    rw [List.mem_singleton.mp hroute]
    rfl
  · intro k e he
    cases he
  · rw [hnil]
    exact hinit.waiting i hi

theorem receives_snoc (env : Env) (setup : Setup) (i : ℕ) (turn : Turn) (turns : List Turn) :
    ∀ p : Process, receives env setup i p (turns ++ [turn]) =
      receives env setup i p turns ++ received i (p.run env setup turns).stack turn := by
  induction turns with
  | nil => exact fun p => List.append_nil _
  | cons first turns ih =>
    intro p
    rw [List.cons_append]
    show received i p.stack first ++ receives env setup i (p.step env setup first) (turns ++ [turn]) = _
    rw [ih, ← List.append_assoc]
    rfl

/-- **Every run.** -/
theorem run_delivered (hi : i < setup.sockets.length) (turns : List Turn) {p : Process}
    (hp : p = (Process.boot env setup).run env setup turns) (halive : p.rxBuffer.isSome) :
    Ready env setup i p.stack ∧ (Fit setup i p.stack.calls →
      Delivered setup i p.stack (receives env setup i (Process.boot env setup) turns)) := by
  induction turns using List.reverseRecOn generalizing p with
  | nil =>
    subst hp
    obtain ⟨h1, h2⟩ := boot_delivered hi halive
    exact ⟨h1, fun _ => h2⟩
  | append_singleton turns turn ih =>
    rw [receives_snoc]
    set q := (Process.boot env setup).run env setup turns with hq
    have hstep : p = q.step env setup turn := by
      rw [hp, hq]
      unfold Process.run
      rw [List.foldl_append]
      rfl
    rw [hstep] at halive ⊢
    obtain ⟨b, b', hb, hrun⟩ := step_returned halive
    obtain ⟨hready, hdelivered⟩ := ih rfl (by rw [hb]; rfl)
    obtain ⟨hready', ⟨calls, hcalls⟩, hturn⟩ := turn_delivered hready hrun
    refine ⟨hready', fun hfit => ?_⟩
    exact hturn (hdelivered (fit_append (hcalls ▸ hfit)).1) hfit

/-- **Datagrams are delivered in order, once, and none is lost.** In every run of the daemon that has not
come to a halt, the clients of a socket have received, in the order of the frames, the datagrams that came
for it, each with the address and the port of its sender: a receive that peeks gets the one that the next
receive gets. At most three of them wait, and `xstack_recvfrom` returns the first of these. -/
theorem delivery (env : Env) (setup : Setup) (i : ℕ) (hi : i < setup.sockets.length) (turns : List Turn)
    (p : Process) (hp : p = (Process.boot env setup).run env setup turns) (halive : p.rxBuffer.isSome)
    (hfit : ∀ x ∈ datagrams setup i p.stack, x.buf.length ≤ dgramMax) :
    InOrder (datagrams setup i p.stack) (receives env setup i (Process.boot env setup) turns) ∧
      (datagrams setup i p.stack).length ≤
        taken (receives env setup i (Process.boot env setup) turns) + 3 ∧
      ∀ r, (xstackRecvfrom (p.stack.udp.sock i).shmem r).map Prod.fst = (datagrams setup i p.stack)[
        taken (receives env setup i (Process.boot env setup) turns)]?.map (answer r) := by
  obtain ⟨-, hdelivered⟩ := run_delivered hi turns hp halive
  have h := hdelivered hfit
  set out := receives env setup i (Process.boot env setup) turns
  obtain ⟨d, hw⟩ := h.waiting
  refine ⟨h.order, ?_, fun r => ?_⟩
  · have hlt := hw.counts.lt
    rw [List.length_drop] at hlt
    omega
  · have hhead : (datagrams setup i p.stack)[taken out]? =
        ((datagrams setup i p.stack).drop (taken out))[0]? := by
      rw [List.getElem?_drop, Nat.add_zero]
    rw [hhead]
    rcases hnext : (datagrams setup i p.stack).drop (taken out) with _ | ⟨x, l⟩
    · rw [hnext] at hw
      rw [hw.recvfrom_nil]
      rfl
    · rw [hnext] at hw
      obtain ⟨m, hrecv, -⟩ := hw.recvfrom (r := r)
      rw [hrecv]
      rfl

/-- A datagram of 28 bytes for the socket, in a frame without checksum. -/
def datagram : List UInt8 := frameBody (fun _ => 1) (fun _ => 9) etherProtoIpv4
  ([0x45, 0, 0, 56, 0, 0, 0, 0, 64, 17, 0, 0, 10, 0, 0, 9, 10, 0, 0, 2, 0, 9, 0, 10, 0, 36, 0, 0] ++
    List.replicate 28 5)

/-- The frame comes, and the client peeks and receives. -/
def client : List Turn :=
  [.receive [datagram], .recvfrom 0 ⟨4, true, false⟩, .recvfrom 0 ⟨100, false, true⟩]

theorem delivery_client : ∃ p : Process,
    datagrams (.xstack (fun _ => 1) 7) 0 p.stack = [⟨⟨167772169, 9⟩, List.replicate 28 5⟩] ∧
      InOrder (datagrams (.xstack (fun _ => 1) 7) 0 p.stack) [(⟨4, true, false⟩, ⟨none, [5, 5, 5, 5]⟩),
        (⟨100, false, true⟩, ⟨some ⟨167772169, 9⟩, List.replicate 28 5⟩)] := by
  have halive : ((Process.boot ⟨.ofSign, fun _ => 74⟩ (.xstack (fun _ => 1) 7)).run
      ⟨.ofSign, fun _ => 74⟩ (.xstack (fun _ => 1) 7) client).rxBuffer.isSome = true := by decide +kernel
  have hcalls : datagrams (.xstack (fun _ => 1) 7) 0 ((Process.boot ⟨.ofSign, fun _ => 74⟩
      (.xstack (fun _ => 1) 7)).run ⟨.ofSign, fun _ => 74⟩ (.xstack (fun _ => 1) 7) client).stack =
        [⟨⟨167772169, 9⟩, List.replicate 28 5⟩] := by decide +kernel
  have hout : receives ⟨.ofSign, fun _ => 74⟩ (.xstack (fun _ => 1) 7) 0
      (Process.boot ⟨.ofSign, fun _ => 74⟩ (.xstack (fun _ => 1) 7)) client =
        [(⟨4, true, false⟩, ⟨none, [5, 5, 5, 5]⟩),
          (⟨100, false, true⟩, ⟨some ⟨167772169, 9⟩, List.replicate 28 5⟩)] := by decide +kernel
  obtain ⟨h, -⟩ := delivery ⟨.ofSign, fun _ => 74⟩ (.xstack (fun _ => 1) 7) 0 (by decide)
    client _ rfl halive (by rw [hcalls]; decide)
  rw [hout] at h
  exact ⟨_, hcalls, h⟩

end Xstack.Net.Deliver
