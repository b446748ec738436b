import Xstack.Net.Daemon
import Xstack.Net.Replies
import Xstack.Sock.Inbox

/-! # What a turn of the daemon does to its tables

A relation between states that is kept by the few functions that write to the tables (the sockets, the
connections, the reassembly buffers) is kept by all functions that call them.

* `Outside`: the changes to the rest of the state, by everything that sends and by the ARP cache.
* `Allowed`: what a relation must allow. `Allowed.ingressTurn`, `.runPeriodicTasks`, `.egressTurn`,
  `.clientSendto`: the turns of the daemon. -/

namespace Xstack.Net.Effect

open Xstack.Config Xstack.Lib.Bytes Xstack.Lib.Program Xstack.Ether Xstack.Ip.Header
open Xstack.Ip.Fragment Xstack.Ip.Route Xstack.Sock.Queue Xstack.Net.State Xstack.Net.Send
open Xstack.Net.Input Xstack.Net.Frame Xstack.Net.Validate Xstack.Net.Periodic Xstack.Net.Daemon

/-- Only what the tables do not depend on has changed. -/
def Outside (s t : Stack) : Prop :=
  ∃ e arp id defer tx log, t = { s with
    errno := e, arp := arp, ipGlobalId := id, defer := defer, tx := tx, deferLog := log }

variable {env : Env} {s t : Stack}

theorem Outside.trans {u : Stack} (h : Outside s t) (h' : Outside t u) : Outside s u := by
  obtain ⟨_, _, _, _, _, _, rfl⟩ := h
  obtain ⟨e, arp, id, defer, tx, log, rfl⟩ := h'
  exact ⟨e, arp, id, defer, tx, log, rfl⟩

theorem outside_sending (h : Sending s t) : Outside s t := by
  obtain ⟨defer, log, e, tx, id, rfl⟩ := h
  exact ⟨e, s.arp, id, defer, tx, log, rfl⟩

theorem outside_quiet (h : Quiet s t) : Outside s t := outside_sending h.sending

theorem outside_learned (h : Learned s t) : Outside s t := by
  obtain ⟨arp, e, rfl⟩ := h
  exact ⟨e, arp, s.ipGlobalId, s.defer, s.tx, s.deferLog, rfl⟩

/-! ### The handlers -/

variable {proto : Proto} {ip : IpHdr} {b c : Buf} {o size : ℕ} {r : ℤ}

/-- A handler that returns: one for TCP or UDP changes its own table, and only that. -/
theorem protoInput_returned (h : protoInput env proto ip b o size s = (some (r, c), t)) :
    t = { s with tcp := t.tcp, udp := t.udp } ∧
      (if proto = .tcp then s.tcp.tcpInput env.mc ip b o size = some (r, t.tcp, c) else t.tcp = s.tcp) ∧
      if proto = .udp then s.udp.udpInput env.mc ip b o size = some (r, t.udp, c) else t.udp = s.udp := by
  unfold protoInput at h
  rw [get_bind] at h
  cases proto with
  | icmp =>
    obtain ⟨-, rfl⟩ := returned_ofOption h
    exact ⟨rfl, rfl, rfl⟩
  | tcp =>
    obtain ⟨⟨r', tcp, c'⟩, u, h1, h2⟩ := returned h
    obtain ⟨h1, rfl⟩ := returned_ofOption h1
    obtain ⟨heq, rfl⟩ := Prod.mk.inj h2
    obtain ⟨rfl, rfl⟩ := Prod.mk.inj (Option.some.inj heq)
    exact ⟨rfl, h1, rfl⟩
  | udp =>
    obtain ⟨⟨r', udp, c'⟩, u, h1, h2⟩ := returned h
    obtain ⟨h1, rfl⟩ := returned_ofOption h1
    obtain ⟨heq, rfl⟩ := Prod.mk.inj h2
    obtain ⟨rfl, rfl⟩ := Prod.mk.inj (Option.some.inj heq)
    exact ⟨rfl, rfl, h1⟩

/-- The call of a handler is noted, and the rest of the change is the handler's. -/
theorem callHandler_returned {x : ℤ × Buf} (h : callHandler env proto ip b size s = (some x, t)) :
    ∃ r c, protoInput env proto ip b (ipHdrHlen ip) size (withCall s ip b size) = (some (r, c), t) := by
  unfold callHandler at h
  rw [modify_bind] at h
  obtain ⟨⟨r, c⟩, u, h1, h2⟩ := returned h
  obtain rfl : u = t := by
    dsimp only at h2
    split_ifs at h2
    · exact (Prod.mk.inj h2).2
    · exact (Prod.mk.inj h2).2
    · exact (Prod.mk.inj h2).2
  exact ⟨r, c, h1⟩

/-! ### The relations -/

/-- **What `R` allows.** -/
structure Allowed (env : Env) (R : Stack → Stack → Prop) : Prop where
  trans : ∀ {s t u}, R s t → R t u → R s u
  outside : ∀ {s t}, Outside s t → R s t
  /-- The call of a handler, for a packet to the address of an interface. -/
  handler : ∀ {proto : Proto} {ip : IpHdr} {b : Buf} {size : ℕ} {s t : Stack} {x : ℤ × Buf},
    findProto ip.ipProto = some proto →
    (∃ route, s.rib.ipRouteFindByIface ip.ipDst = some (some route)) →
    callHandler env proto ip b size s = (some x, t) → R s t

/-- The relation allows the memory of a socket to change in the egress half. -/
def Egress (R : Stack → Stack → Prop) : Prop := ∀ (s : Stack) (j : ℕ) (m : Buf),
  (∀ k < egressQaddr, m k = (s.udp.sock j).shmem k) → R s (setShmem j m s).2

namespace Allowed

variable {R : Stack → Stack → Prop} (h : Allowed env R)
include h

theorem refl (s : Stack) : R s s :=
  h.outside ⟨s.errno, s.arp, s.ipGlobalId, s.defer, s.tx, s.deferLog, rfl⟩

theorem pure {α : Type} (a : α) : Returns R (pure a : Act α) := .pure h.refl a

theorem bind {α β : Type} {x : Act α} {g : α → Act β} (hx : Returns R x) (hg : ∀ a, Returns R (g a)) :
    Returns R (x >>= g) := by
  intro s b t hrun
  obtain ⟨a, u, h1, h2⟩ := returned hrun
  exact h.trans (hx.run h1) ((hg a).run h2)

theorem sending {α : Type} {x : Act α} (hx : Steps Sending x) : Returns R x :=
  .of_steps hx fun _ _ hs => h.outside (outside_sending hs)

theorem quiet {α : Type} {x : Act α} (hx : Steps Quiet x) : Returns R x :=
  .of_steps hx fun _ _ hs => h.outside (outside_quiet hs)

theorem learned {α : Type} {x : Act α} (hx : Steps Learned x) : Returns R x :=
  .of_steps hx fun _ _ hs => h.outside (outside_learned hs)

/-- `ip_input`, given `ip_fragment_input`. -/
theorem ipInputWith {fragmentInput : IpHdr → Buf → Act ℤ}
    (hfrag : ∀ ip b, Returns R (fragmentInput ip b)) (src : Option MacAddr) (b : Buf) (n : ℕ) :
    Returns R (ipInputWith env fragmentInput src b n) := by
  intro s x t hrun
  unfold Input.ipInputWith at hrun
  obtain ⟨call, u, h1, h2⟩ := returned hrun
  refine h.trans ((h.learned (ipCheck_learned src (hdrOf src b) n)).run h1) ?_
  match call, h1, h2 with
  | none, _, h2 => exact (h.pure _).run h2
  | some (.unreachable _ _), _, h2 => exact (h.pure _).run h2
  | some (.fragment _), _, h2 => exact (h.bind (hfrag _ _) fun _ => h.pure _).run h2
  | some (.handler proto size), h1, h2 =>
    obtain ⟨hproto, hroute⟩ := Replies.ipCheck_handler h1
    exact h.handler hproto hroute h2

/-- **`ip_fragment_input`,** where the buffers may change. -/
theorem ipFragmentInput (hpool : ∀ (s : Stack) (pool : Pool), R s { s with pool := pool }) (ip : IpHdr)
    (b : Buf) : Returns R (ipFragmentInput env ip b) := by
  have hset : ∀ f : Stack → Pool, Returns R (modify fun s => { s with pool := f s }) := fun f =>
    .modify fun s => hpool s (f s)
  unfold Input.ipFragmentInput
  refine .get fun s => h.bind (.ofOption h.refl _) fun y => ?_
  refine h.bind (hset _) fun _ => ?_
  match y.1 with
  | .emsgsize => exact h.pure _
  | .nobufs => exact h.pure _
  | .stored => exact h.pure _
  | .complete j =>
    unfold completeFragments
    refine .get fun s => h.bind (h.ipInputWith (fun _ _ => .stuck) _ _ _) fun z => ?_
    refine h.bind (hset _) fun _ => ?_
    refine h.bind (h.sending (ipSend_sending env _ _ _ _)) fun _ => ?_
    refine .get fun s => h.bind (.ofOption h.refl _) fun pool => ?_
    exact h.bind (hset _) fun _ => h.pure _

theorem ipDeferHandler : Returns R (ipDeferHandler env) := h.sending (ipDeferHandler_sending env)

theorem arpInput (b : Buf) (n : ℕ) : Returns R (arpInput env b n) := by
  unfold Input.arpInput
  refine .ite (fun _ => h.pure _) fun _ => .ite (fun _ => h.pure _) fun _ => ?_
  refine h.bind (h.learned (arpCacheInsert_learned _ _ _)) fun _ => ?_
  refine h.bind h.ipDeferHandler fun _ => .ite (fun _ => ?_) fun _ => h.pure _
  refine h.bind (h.quiet (ipRouteFindByIface_quiet _)) fun route => ?_
  cases route with
  | none => exact h.pure _
  | some route => exact h.bind (h.quiet (etherHandle2addr_quiet _)) fun _ => h.pure _

section

variable (hfrag : ∀ ip b, Returns R (Input.ipFragmentInput env ip b))
include hfrag

theorem etherInput (hdr : EtherHdr) (b : Buf) (n : ℕ) : Returns R (etherInput env hdr b n) := by
  unfold Input.etherInput
  rcases hfn : etherProtoInput env hdr b n with _ | fn
  · exact h.bind (h.quiet (setErrno_quiet _)) fun _ => h.pure _
  · have hx : Returns R fn := by
      unfold etherProtoInput at hfn
      split_ifs at hfn
      · rw [← Option.some.inj hfn]
        exact h.arpInput _ _
      · rw [← Option.some.inj hfn]
        exact h.ipInputWith hfrag _ _ _
    refine h.bind hx fun x => .ite (fun _ => ?_) fun _ => h.pure _
    exact h.bind (h.quiet (setErrno_quiet _)) fun _ => h.pure _

/-- **The ingress thread.** -/
theorem ingressTurn (frames : List (List UInt8)) (rxBuffer : Buf) :
    Returns R (ingressTurn env frames rxBuffer) := by
  have hreply : ∀ hdr b n, Returns R (etherOutputReply env hdr b n) := fun hdr b n => by
    refine h.bind (h.quiet (etherSend_quiet env _ _ _ _ _)) fun retval => ?_
    refine .ite (fun _ => ?_) fun _ => h.pure _
    exact h.bind (h.quiet (setErrno_quiet _)) fun _ => h.pure _
  unfold Daemon.ingressTurn
  refine .get fun s => ?_
  rcases etherReceive s.mac rxBuffer etherMaxlen frames with _ | _ | ⟨hdr, b, retval⟩
  · exact .stuck
  · exact h.pure _
  · refine .ite (fun _ => h.bind (h.etherInput hfrag _ _ _) fun x => ?_) fun _ => h.pure _
    refine .ite (fun _ => h.bind (hreply _ _ _) fun _ => ?_) fun _ => h.pure _
    exact h.pure _

end

/-- **The periodic tasks.** -/
theorem runPeriodicTasks (deltaTime : ℤ) : Returns R (runPeriodicTasks env deltaTime) := by
  have hupdate : Returns R (State.arpCacheUpdate deltaTime) := by
    unfold State.arpCacheUpdate
    refine .get fun s => h.bind (.ofOption h.refl _) fun arp => .modify fun s => ?_
    exact h.outside ⟨s.errno, arp, s.ipGlobalId, s.defer, s.tx, s.deferLog, rfl⟩
  exact h.bind hupdate fun _ => h.bind h.ipDeferHandler fun _ => h.pure _

section

variable (hegress : Egress R)
include hegress

/-- **The egress thread.** -/
theorem egressTurn (sockets : List XstackSock) (j : ℕ) : Returns R (egressTurn env sockets j) := by
  have hproto : ∀ proto sockAddr dgram, Steps Sending (protoSend env proto sockAddr dgram) := by
    intro proto sockAddr dgram
    cases proto with
    | none => exact .pure .refl _
    | tcp => exact .pure .refl _
    | last => exact .pure .refl _
    | udp =>
      refine .bind .trans ?_ fun _ => .pure .refl _
      unfold xstackUdpSend
      exact .ite (fun _ => .pure .refl _) fun _ => ipSend_sending env _ _ _ _
  unfold Daemon.egressTurn
  rcases sockets[j]? with _ | sock
  · exact h.pure _
  · intro s x t hrun
    dsimp only at hrun
    rw [get_bind] at hrun
    have hbelow := Sock.Inbox.egressStep_below (s.udp.sock j).shmem
    rcases hstep : egressStep (s.udp.sock j).shmem with ⟨_ | dgram, m⟩
    · rw [hstep] at hrun
      exact (h.pure _).run hrun
    · rw [hstep] at hrun hbelow
      obtain ⟨_, u, h1, h2⟩ := returned hrun
      have hsend : Sending s u := by
        have := hproto sock.sockProto sock.sockAddr dgram s
        rwa [h1] at this
      have hudp : u.udp = s.udp := by
        obtain ⟨_, _, _, _, _, rfl⟩ := hsend
        rfl
      obtain ⟨-, rfl⟩ := Prod.mk.inj h2
      exact h.trans (h.outside (outside_sending hsend)) (hegress u j m (by rwa [hudp]))

/-- **A client that sends.** -/
theorem clientSendto (j : ℕ) (buffer : List UInt8) (destAddr : SockAddr) :
    Returns R (clientSendto j buffer destAddr) := by
  unfold Daemon.clientSendto
  intro s x t hrun
  rw [get_bind] at hrun
  rcases hsend : xstackSendto (s.udp.sock j).shmem buffer destAddr with _ | _ | m
  · rw [hsend] at hrun
    exact (h.pure _).run hrun
  · rw [hsend] at hrun
    exact (h.pure _).run hrun
  · rw [hsend] at hrun
    obtain ⟨-, rfl⟩ := Prod.mk.inj hrun
    exact hegress s j m (Sock.Inbox.sendto_below hsend)

end

/-- **A turn,** where the memory of the sockets may change. -/
theorem turn (hfrag : ∀ ip b, Returns R (Input.ipFragmentInput env ip b))
    (hshmem : ∀ (s : Stack) (j : ℕ) (m : Buf), R s (setShmem j m s).2) (sockets : List XstackSock)
    (rxBuffer : Buf) (turn : Turn) : Returns R (turn.act env sockets rxBuffer) := by
  have hegress : Egress R := fun s j m _ => hshmem s j m
  cases turn with
  | receive frames => exact h.ingressTurn hfrag frames rxBuffer
  | tick deltaTime => exact h.bind (h.runPeriodicTasks deltaTime) fun _ => h.pure _
  | egress j => exact h.bind (h.egressTurn hegress sockets j) fun _ => h.pure _
  | sendto j buffer destAddr =>
    exact h.bind (h.clientSendto hegress j buffer destAddr) fun _ => h.pure _
  | recvfrom j r =>
    refine h.bind ?_ fun _ => h.pure _
    unfold clientRecvfrom
    intro s x t hrun
    rw [get_bind] at hrun
    rcases hrecv : xstackRecvfrom (s.udp.sock j).shmem r with _ | ⟨_, m⟩
    · rw [hrecv] at hrun
      exact (h.pure _).run hrun
    · rw [hrecv] at hrun
      obtain ⟨-, rfl⟩ := Prod.mk.inj hrun
      exact hshmem s j m

end Allowed

/-! ### Runs -/

/-- A turn that has a result is a run of its function. -/
theorem step_returned {setup : Setup} {p : Process} {turn : Turn}
    (h : (p.step env setup turn).rxBuffer.isSome) : ∃ rxBuffer b, p.rxBuffer = some rxBuffer ∧
      turn.act env setup.sockets rxBuffer p.stack = (some b, (p.step env setup turn).stack) := by
  obtain ⟨b, hb⟩ := Option.isSome_iff_exists.mp h
  unfold Process.step Process.exec at hb ⊢
  rcases hrx : p.rxBuffer with _ | rxBuffer
  · rw [hrx] at hb
    exact absurd (hrx.symm.trans hb) (by simp)
  · rw [hrx] at hb
    exact ⟨rxBuffer, b, rfl, Prod.ext hb rfl⟩

/-- **A run that has not come to a halt.** -/
theorem run_along {setup : Setup} {R : Stack → Stack → Prop} (hrefl : ∀ s, R s s)
    (htrans : ∀ s t u, R s t → R t u → R s u)
    (hturn : ∀ rxBuffer turn, Returns R (Turn.act env setup.sockets rxBuffer turn)) (turns : List Turn) :
    ∀ {p : Process}, (p.run env setup turns).rxBuffer.isSome →
      p.rxBuffer.isSome ∧ R p.stack (p.run env setup turns).stack := by
  induction turns with
  | nil => exact fun {p} h => ⟨h, hrefl p.stack⟩
  | cons turn turns ih =>
    intro p h
    obtain ⟨hstep, hrest⟩ := ih (p := p.step env setup turn) h
    obtain ⟨rxBuffer, b, hrx, hrun⟩ := step_returned hstep
    exact ⟨by rw [hrx]; rfl, htrans _ _ _ ((hturn rxBuffer turn).run hrun) hrest⟩

end Xstack.Net.Effect
