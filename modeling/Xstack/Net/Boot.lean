import Xstack.Ip.IfaceIndex
import Xstack.Net.Daemon
import Xstack.Net.Validate
import Xstack.Sock.Inbox
import Xstack.Tree.Walk
import Xstack.Udp.Bind

/-! # What start-up leaves

`main` up to the threads: the route over the interface, and the sockets in the order of the array, each
with its shared memory and bound in the tree (`xstackInit_loop`). A daemon whose threads start has gone
through all of it (`boot_initialised`). -/

namespace Xstack.Net.Boot

open Xstack.Config Xstack.Lib.Bytes Xstack.Lib.Program Xstack.Ether Xstack.Ip.Route Xstack.Ip.Fragment
open Xstack.Sock.Queue Xstack.Sock.Inbox Xstack.Udp Xstack.Net.State Xstack.Net.Send Xstack.Net.Input Xstack.Net.Frame
open Xstack.Net.Validate Xstack.Net.Daemon

/-- The address of socket `i`. -/
def sockAddrOf (setup : Setup) (i : ℕ) : SockAddr :=
  (setup.sockets.getD i ⟨.none, ⟨0, 0⟩⟩).sockAddr

variable {env : Env} {setup : Setup} {s t u : Stack}

/-! ### Another shared memory -/

/-- The sockets with other memory for socket `j`. -/
def withShmem (udp : UdpTable) (j : ℕ) (m : Buf) : UdpTable :=
  { udp with sock := Function.update udp.sock j { udp.sock j with shmem := m } }

theorem addr_withShmem (udp : UdpTable) (j : ℕ) (m : Buf) (k : ℕ) :
    Bind.addr (withShmem udp j m) k = Bind.addr udp k := by
  show (Function.update udp.sock j { udp.sock j with shmem := m } k).sockAddr = (udp.sock k).sockAddr
  by_cases hk : k = j
  · subst hk
    rw [Function.update_self]
  · rw [Function.update_of_ne hk]

theorem withShmem_self (udp : UdpTable) (j : ℕ) (m : Buf) : ((withShmem udp j m).sock j).shmem = m := by
  show (Function.update udp.sock j { udp.sock j with shmem := m } j).shmem = m
  rw [Function.update_self]

theorem withShmem_ne {j k : ℕ} (h : k ≠ j) (udp : UdpTable) (m : Buf) :
    (withShmem udp j m).sock k = udp.sock k := Function.update_of_ne h _ _

/-- The tree of sockets is about addresses only. -/
theorem inv_withShmem {mc : Lib.Lex.Memcmp} {udp : UdpTable} {bound : List ℕ}
    (h : Bind.Inv mc ⟨udp, bound⟩) (j : ℕ) (m : Buf) : Bind.Inv mc ⟨withShmem udp j m, bound⟩ := by
  obtain ⟨l, hl, hp⟩ := h.holds
  exact ⟨⟨l, hl.congr fun k _ => addr_withShmem udp j m k, hp⟩, h.lt⟩

/-! ### The sockets -/

/-- **`xstack_init` after `k` sockets.** -/
structure Initialised (env : Env) (setup : Setup) (k : ℕ) (s : Stack) : Prop where
  mac : s.mac = setup.mac
  route : Ip.IfaceIndex.Agrees s.rib [ownRoute setup]
  pool : s.pool = Pool.init
  tcp : s.tcp = Tcp.TcpMap.init
  table : ∃ bound, Bind.Inv env.mc ⟨s.udp, bound⟩ ∧ ∀ j, j ∈ bound ↔ j < k
  count : s.udp.count = setup.sockets.length
  addr : ∀ j, Bind.addr s.udp j = sockAddrOf setup j
  waiting : ∀ j < k, Waiting (sockAddrOf setup j) (s.udp.sock j).shmem 0 []
  calls : s.calls = []

/-- A bind that returns 0 has put the socket into the tree. -/
theorem xstackBind_bound {sock : XstackSock} {k : ℕ} {bound : List ℕ} {retval : ℤ}
    (hI : Bind.Inv env.mc ⟨s.udp, bound⟩) (hk : k ∉ bound) (hlt : k < s.udp.count)
    (hrun : xstackBind env sock k s = (some retval, t)) (hret : ¬ retval < 0) :
    ∃ head, t = { s with udp := { s.udp with head := head } } ∧
      Bind.Inv env.mc ⟨{ s.udp with head := head }, k :: bound⟩ := by
  have hfail : ∀ {e : ℤ}, (setErrno e >>= fun _ => Pure.pure (-1 : ℤ)) s = (some retval, t) → False := by
    intro e h
    obtain rfl : -1 = retval := Option.some.inj (Prod.mk.inj h).1
    exact hret (by omega)
  unfold xstackBind at hrun
  cases hsock : sock.sockProto with
  | none => rw [hsock] at hrun; exact (hfail hrun).elim
  | tcp => rw [hsock] at hrun; exact (hfail hrun).elim
  | last => rw [hsock] at hrun; exact (hfail hrun).elim
  | udp =>
    rw [hsock] at hrun
    dsimp only at hrun
    rw [get_bind] at hrun
    by_cases hp : Bind.PortTooLarge s.udp k
    · rw [Bind.bind_einval hp, ofOption_some, bind_pure] at hrun
      exact (hfail hrun).elim
    · by_cases hu : Bind.InUse ⟨s.udp, bound⟩ k
      · rw [hI.bind_eaddrinuse hp hu, ofOption_some, bind_pure] at hrun
        exact (hfail hrun).elim
      · obtain ⟨head, h1, h2⟩ := hI.bind_bound hp hu hk hlt
        rw [h1, ofOption_some, bind_pure] at hrun
        exact ⟨head, (Prod.mk.inj hrun).2.symm, h2⟩

/-- **The loop of `xstack_init`,** for the sockets from `k` on. -/
theorem xstackInit_loop : ∀ (sockets : List XstackSock) {k : ℕ} {s t : Stack},
    k + sockets.length = setup.sockets.length → Initialised env setup k s →
    xstackInit env setup.pid sockets k s = (some (), t) →
    Initialised env setup setup.sockets.length t
  | [], k, s, t, hlen, hs, hrun => by
    obtain rfl := (Prod.mk.inj hrun).2
    rwa [← hlen]
  | sock :: sockets, k, s, t, hlen, hs, hrun => by
    rw [List.length_cons] at hlen
    unfold Daemon.xstackInit at hrun
    obtain ⟨_, u, h1, h2⟩ := returned hrun
    obtain rfl := (Prod.mk.inj h1).2
    obtain ⟨retval, v, h3, h4⟩ := returned h2
    split_ifs at h4 with hret
    · cases h4
    obtain ⟨bound, hI, hbound⟩ := hs.table
    obtain ⟨head, hv, hI'⟩ := xstackBind_bound (inv_withShmem hI k (Sock.Queue.xstackInit setup.pid))
      (fun hk => lt_irrefl k ((hbound k).mp hk))
      (by show k < s.udp.count; rw [hs.count]; omega) h3 hret
    suffices hnext : Initialised env setup (k + 1) v from xstackInit_loop sockets (by omega) hnext h4
    subst hv
    refine ⟨hs.mac, hs.route, hs.pool, hs.tcp, ⟨k :: bound, hI', fun j => ?_⟩, hs.count, fun j => ?_,
      fun j hj => ?_, hs.calls⟩
    · rw [List.mem_cons, hbound]
      omega
    · exact (addr_withShmem s.udp k _ j).trans (hs.addr j)
    · show Waiting _ ((withShmem s.udp k _).sock j).shmem 0 []
      by_cases hjk : j = k
      · subst hjk
        rw [withShmem_self]
        exact waiting_init _ _
      · rw [withShmem_ne hjk]
        exact hs.waiting j (by omega)

/-! ### The route -/

/-- The first route is the only one that a search by interface finds. -/
theorem agrees_first {route : IpRoute} {rib : Rib} (h : Rib.init.ipRouteUpdate route = some rib) :
    Ip.IfaceIndex.Agrees rib [route] := by
  have hhalf : ∀ a : InAddr, Ip.Rib.Half [a] := fun a => ⟨a, by simp [Ip.Rib.halfFrom]⟩
  have hkeeps : Ip.IfaceIndex.Keeps Rib.init [] (.update route) := by
    refine ⟨⟨by show 1 ≤ 5; omega, hhalf route.rNetwork, fun e he => ?_⟩, hhalf route.rIface, by simp⟩
    exact absurd (he.symm.trans (Ip.Rib.findNetwork_init route.rNetwork)) (by simp)
  obtain ⟨rib', hrun, hagrees⟩ := Ip.IfaceIndex.run_index [.update route] Ip.Rib.inv_init
    ⟨0, by simp⟩ Ip.IfaceIndex.index_init ⟨0, by simp⟩ ⟨hkeeps, fun _ _ => trivial⟩
  obtain rfl : rib' = rib := by
    simpa [Ip.Rib.run, Ip.Rib.call, h] using hrun.symm
  exact hagrees

/-- All entries of the table are the route. -/
theorem linked_first {route : IpRoute} {rib : Rib} (h : Rib.init.ipRouteUpdate route = some rib) :
    ∃ l, Tree.Find.Valid rib.routetree l ∧ 2 * l.length < Rib.fuel ∧ ∀ i ∈ l, rib.route i = route := by
  have hnew : ¬ Ip.Rib.Live [] route.rNetwork := fun hlive => by
    obtain ⟨x, hx, -⟩ := hlive
    cases hx
  obtain ⟨e, rib', y, l, ls, -, hrun, -, -, hI⟩ := Ip.Rib.update_new Ip.Rib.inv_init
    (Ip.Rib.half_of_all 0 rfl) hnew (by show 1 ≤ 5; omega)
    ⟨route.rNetwork, by simp [Ip.Rib.without, Ip.Rib.halfFrom]⟩
  obtain rfl : rib' = rib := Option.some.inj (hrun.symm.trans h)
  have hlen := hI.length_le
  refine ⟨l, hI.net.valid, ?_, fun i hi => ?_⟩
  · have : Rib.fuel = 12 := rfl
    have : xstackIpRibSize = 5 := rfl
    omega
  · have hmem : rib'.route i ∈ [route] := hI.routes.mem_iff.mp (List.mem_map_of_mem hi)
    exact List.mem_singleton.mp hmem

/-- The first route is the only one that a search by network finds. -/
theorem network_first {route found : IpRoute} {rib : Rib} {a : InAddr}
    (h : Rib.init.ipRouteUpdate route = some rib)
    (hfind : rib.ipRouteFindByNetwork a = some (some found)) : found = route := by
  obtain ⟨l, hv, hf, hl⟩ := linked_first h
  have hentry : ∀ n e, rib.findNetwork n = some (some e) → rib.route e = route := by
    intro n e he
    obtain ⟨r, hr, hmem, -⟩ := Tree.Find.valid_find (rib.routeNetworkCmp n) hv
      (show l.length < Rib.fuel by omega)
    exact hl e (hmem e (Option.some.inj (hr.symm.trans he))).1
  unfold Rib.ipRouteFindByNetwork at hfind
  obtain ⟨entry, h1, h2⟩ := Option.bind_eq_some_iff.mp hfind
  cases entry with
  | some e =>
    rw [← Option.some.inj (Option.some.inj h2)]
    exact hentry a e h1
  | none =>
    obtain ⟨entry, h3, h4⟩ := Option.bind_eq_some_iff.mp h2
    rw [Tree.Walk.valid_foreach _ hv hf] at h3
    cases entry with
    | some e =>
      rw [← Option.some.inj (Option.some.inj h4)]
      exact hl e (List.mem_of_find?_eq_some (Option.some.inj h3))
    | none =>
      obtain ⟨entry, h5, h6⟩ := Option.bind_eq_some_iff.mp h4
      obtain ⟨e, rfl, rfl⟩ := Option.map_eq_some_iff.mp (Option.some.inj h6)
      exact hentry 0 e h5

/-- `ip_config` leaves the sockets alone, and one route. -/
theorem ipConfig_route {retval : ℤ} (hs : s.rib = Rib.init)
    (hrun : ipConfig env etherHandle setup.ipAddr setup.netmask s = (some retval, t)) :
    t.udp = s.udp ∧ t.calls = s.calls ∧ t.mac = s.mac ∧ t.pool = s.pool ∧ t.tcp = s.tcp ∧
      Ip.IfaceIndex.Agrees t.rib [ownRoute setup] := by
  have hmac : State.etherHandle2addr etherHandle s = (some (some s.mac), s) := rfl
  unfold ipConfig at hrun
  rw [bind_of_some hmac] at hrun
  obtain ⟨_, u, h1, h2⟩ := returned hrun
  have hlearn := arpCacheInsert_learned setup.ipAddr s.mac .static s
  rw [h1] at hlearn
  obtain ⟨_, _, rfl⟩ := hlearn
  unfold ipAnnounce at h2
  rw [get_bind] at h2
  obtain ⟨rib, v, h3, h4⟩ := returned h2
  obtain ⟨hrib, rfl⟩ := returned_ofOption h3
  rw [modify_bind] at h4
  have hquiet : Returns Quiet (do
      let _ ← arpGratuitous env etherHandle setup.ipAddr
      let _ ← arpGratuitous env etherHandle setup.ipAddr
      let _ ← arpGratuitous env etherHandle setup.ipAddr
      return (0 : ℤ)) := by
    have hone : Returns Quiet (arpGratuitous env etherHandle setup.ipAddr) :=
      .of_steps (.bind .trans (arpMsg_quiet _ _ _) fun _ =>
        .bind .trans (etherSend_quiet env _ _ _ _ _) fun _ => .pure .refl _) fun _ _ h => h
    exact .bind .trans hone fun _ => .bind .trans hone fun _ => .bind .trans hone fun _ => .pure .refl _
  obtain ⟨_, _, _, rfl⟩ := hquiet.run h4
  have hrib : s.rib.ipRouteUpdate (ownRoute setup) = some rib := hrib
  rw [hs] at hrib
  exact ⟨rfl, rfl, rfl, rfl, rfl, agrees_first hrib⟩

/-- **The daemon when its threads start.** -/
theorem boot_initialised (hboot : (Process.boot env setup).rxBuffer.isSome) :
    Initialised env setup setup.sockets.length (Process.boot env setup).stack := by
  obtain ⟨b, hb⟩ := Option.isSome_iff_exists.mp hboot
  have hrun : (setup.start env >>= fun _ => Pure.pure fun _ => 0 : Act Buf) setup.stack =
      (some b, (Process.boot env setup).stack) := Prod.ext hb rfl
  obtain ⟨_, u, h1, h2⟩ := returned hrun
  unfold Setup.start at h1
  obtain ⟨retval, v, h3, h4⟩ := returned h1
  split_ifs at h4
  · cases h4
  obtain ⟨hudp, hcalls, hmac, hpool, htcp, hroute⟩ := ipConfig_route rfl h3
  have hstart : Initialised env setup 0 v := by
    refine ⟨hmac, hroute, hpool, htcp, ⟨[], ?_, by simp⟩, by rw [hudp]; rfl, fun j => ?_, by simp, hcalls⟩
    · rw [hudp]
      exact ⟨⟨[], Tree.Map.holds_init, .nil⟩, by simp⟩
    · rw [hudp]
      rfl
  obtain rfl : u = (Process.boot env setup).stack := (Prod.mk.inj h2).2
  exact xstackInit_loop setup.sockets (Nat.zero_add _) hstart h4

end Xstack.Net.Boot
