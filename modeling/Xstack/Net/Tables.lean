import Xstack.Net.Boot
import Xstack.Net.Effect
import Xstack.Net.Pool
import Xstack.Tcp.Demux

/-! # The tables of the daemon over whole runs

The routing table, the reassembly buffers, the connections and the sockets, when frames, ticks, datagrams
to send and calls of clients come in any order.

* `Advances`: the connections later on: more of them, each with its addresses and further on.
* `Kept`, `PoolKept`: what every turn does to the tables.
* `Sound`: what holds of them between turns; `run_sound`: in every run. -/

namespace Xstack.Net.Tables

open Xstack.Config Xstack.Lib.Bytes Xstack.Lib.Program Xstack.Ether Xstack.Ip.Header Xstack.Ip.Fragment
open Xstack.Ip.Feed Xstack.Ip.Route Xstack.Tcp Xstack.Tcp.Conn Xstack.Udp Xstack.Net.State Xstack.Net.Send
open Xstack.Net.Input Xstack.Net.Pool Xstack.Net.Daemon Xstack.Net.Effect Xstack.Net.Boot

/-! ### Connections -/

/-- **The connections later on:** none is given up or used again, and each moves forward. -/
structure Advances (m m' : TcpMap) : Prop where
  count : m.count ≤ m'.count
  forward : ∀ i < m.count, Forward (m.conn i) (m'.conn i)
  key : ∀ i < m.count, Demux.key m' i = Demux.key m i

variable {m m' m'' : TcpMap}

theorem forward_trans {c c' c'' : TcpConn} (h : Forward c c') (h' : Forward c' c'') : Forward c c'' := by
  obtain ⟨⟨n, n', h1, h2, h3⟩, h4⟩ := h
  obtain ⟨⟨k, k', h1', h2', h3'⟩, h4'⟩ := h'
  obtain rfl : n' = k := Option.some.inj (h2.symm.trans h1')
  refine ⟨⟨n, k', h1, h2', h3.trans h3'⟩, fun hc => ?_⟩
  obtain rfl := h4 hc
  exact h4' hc

theorem Advances.refl (hI : Conn.Inv m) : Advances m m :=
  ⟨le_rfl, fun _ hi => Forward.refl hI hi, fun _ _ => rfl⟩

theorem Advances.trans (h : Advances m m') (h' : Advances m' m'') : Advances m m'' where
  count := h.count.trans h'.count
  forward i hi := forward_trans (h.forward i hi) (h'.forward i (hi.trans_le h.count))
  key i hi := (h'.key i (hi.trans_le h.count)).trans (h.key i hi)

/-- **One segment.** -/
theorem input_advances {mc : Lib.Lex.Memcmp} {x : Seg} {r : ℤ} {c : Buf} (hI : Conn.Inv m)
    (h : input mc m x = some (r, m', c)) : Conn.Inv m' ∧ Advances m m' := by
  obtain ⟨hI', hcount, hforward, -⟩ := input_spec hI h
  refine ⟨hI', hcount, hforward, fun i hi => ?_⟩
  rcases input_cases h with ⟨-, rfl⟩ | ⟨j, m₁, hl, ha⟩
  · rfl
  · have hm : m' = (answer m₁ x j).2.1 := by rw [ha]
    have hkey : Demux.key m' i = Demux.key m₁ i := by
      rw [hm, (answer_fst m₁ x j).2]
      exact Demux.key_set m₁ j x.hdr i
    rw [hkey]
    rcases lookup_cases hl with ⟨-, rfl, -, -⟩ | ⟨-, -, rfl, -, head, rfl⟩
    · rfl
    · have hsame : (created m x head).conn i = m.conn i := set_of_ne _ hi.ne
      unfold Demux.key
      rw [hsame]

/-! ### One turn -/

/-- **The tables but the reassembly buffers.** -/
structure Kept (env : Env) (s t : Stack) : Prop where
  mac : t.mac = s.mac
  rib : t.rib = s.rib
  tcp : Conn.Inv s.tcp → Conn.Inv t.tcp ∧ Advances s.tcp t.tcp
  table : ∀ bound, Bind.Inv env.mc ⟨s.udp, bound⟩ → Bind.Inv env.mc ⟨t.udp, bound⟩
  addr : ∀ i, Bind.addr t.udp i = Bind.addr s.udp i

variable {env : Env} {s t u : Stack}

theorem Kept.of_eq (hmac : t.mac = s.mac) (hrib : t.rib = s.rib) (htcp : t.tcp = s.tcp)
    (hudp : t.udp = s.udp) : Kept env s t where
  mac := hmac
  rib := hrib
  tcp hI := by
    rw [htcp]
    exact ⟨hI, .refl hI⟩
  table bound hI := by rwa [hudp]
  addr i := by rw [hudp]

theorem Kept.trans (h : Kept env s t) (h' : Kept env t u) : Kept env s u where
  mac := h'.mac.trans h.mac
  rib := h'.rib.trans h.rib
  tcp hI := by
    obtain ⟨h1, h2⟩ := h.tcp hI
    obtain ⟨h3, h4⟩ := h'.tcp h1
    exact ⟨h3, h2.trans h4⟩
  table bound hI := h'.table bound (h.table bound hI)
  addr i := (h'.addr i).trans (h.addr i)

theorem setShmem_kept (env : Env) (s : Stack) (j : ℕ) (m : Buf) : Kept env s (setShmem j m s).2 where
  mac := rfl
  rib := rfl
  tcp hI := ⟨hI, .refl hI⟩
  table _ hI := inv_withShmem hI j m
  addr i := addr_withShmem s.udp j m i

/-- `udp_input` writes to the memory of one socket at most. -/
theorem udpInput_shmem {mc : Lib.Lex.Memcmp} {udp udp' : UdpTable} {ip : IpHdr} {b c : Buf} {o size : ℕ}
    {r : ℤ} (h : udp.udpInput mc ip b o size = some (r, udp', c)) :
    udp' = udp ∨ ∃ j m, udp' = withShmem udp j m := by
  by_cases hshort : size < udpHdrSize
  · rw [Bind.udpInput_short hshort] at h
    exact Or.inl (Prod.mk.inj (Prod.mk.inj (Option.some.inj h)).2).1.symm
  have hsize := not_lt.mp hshort
  rcases hfind : udp.findUdpSocket mc (Bind.dstOf ip b o) with _ | _ | j
  · have hfind : udp.findUdpSocket mc
        ⟨ip.ipDst, (udpNtoh (UdpHdr.load (shift b o))).udpDport.toUInt32⟩ = none := hfind
    unfold UdpTable.udpInput at h
    rw [if_neg hshort] at h
    simp only [hfind] at h
    cases h
  · rw [Bind.udpInput_absent hsize hfind] at h
    exact Or.inl (Prod.mk.inj (Prod.mk.inj (Option.some.inj h)).2).1.symm
  · rw [Bind.udpInput_found hsize hfind] at h
    unfold Bind.handTo at h
    split_ifs at h
    obtain ⟨shmem, -, heq⟩ := Option.map_eq_some_iff.mp h
    exact Or.inr ⟨j, shmem, (Prod.mk.inj (Prod.mk.inj heq).2).1.symm⟩

/-- **The call of a handler.** -/
theorem callHandler_kept {proto : Proto} {ip : IpHdr} {b : Buf} {size : ℕ} {x : ℤ × Buf}
    (h : callHandler env proto ip b size s = (some x, t)) : Kept env s t := by
  obtain ⟨r, c, hrun⟩ := callHandler_returned h
  obtain ⟨ht, htcp, hudp⟩ := protoInput_returned hrun
  have hmac : t.mac = s.mac := by rw [ht]; rfl
  have hrib : t.rib = s.rib := by rw [ht]; rfl
  have htcp : (if proto = .tcp then s.tcp.tcpInput env.mc ip b (ipHdrHlen ip) size = some (r, t.tcp, c)
      else t.tcp = s.tcp) := htcp
  have hshmem : t.udp = s.udp ∨ ∃ j m, t.udp = withShmem s.udp j m := by
    split_ifs at hudp
    · exact udpInput_shmem hudp
    · exact Or.inl hudp
  refine ⟨hmac, hrib, fun hI => ?_, fun bound hI => ?_, fun i => ?_⟩
  · split_ifs at htcp
    · exact input_advances (x := ⟨ip, b, ipHdrHlen ip, size⟩) hI htcp
    · rw [htcp]
      exact ⟨hI, .refl hI⟩
  · rcases hshmem with h | ⟨j, m, h⟩
    · rwa [h]
    · rw [h]
      exact inv_withShmem hI j m
  · rcases hshmem with h | ⟨j, m, h⟩
    · rw [h]
    · rw [h]
      exact addr_withShmem s.udp j m i

theorem kept_allowed : Allowed env (Kept env) where
  trans := .trans
  outside hs := by
    obtain ⟨_, _, _, _, _, _, rfl⟩ := hs
    exact .of_eq rfl rfl rfl rfl
  handler _ _ := callHandler_kept

/-! ### The reassembly buffers -/

/-- **The invariant of the buffers** is kept. -/
def PoolKept (s t : Stack) : Prop := (∃ l, s.pool.Inv l) → ∃ l, t.pool.Inv l

theorem PoolKept.of_eq (h : t.pool = s.pool) : PoolKept s t := fun hs => by rwa [h]

/-- A fragment that does not fit is stored by no run that returns. -/
theorem store_unfit (mc : Lib.Lex.Memcmp) {pool : Pool} {l : List (Fin 4)} {f : Pkt} (hI : pool.Inv l)
    (hf : ¬ Fits f.hdr) : ipFragmentStore mc pool f.hdr f.rx = none ∨
      ipFragmentStore mc pool f.hdr f.rx = some (.nobufs, pool) := by
  by_cases hk : ∃ i ∈ l, SameKey f.hdr (pool.buf i).ipHdr
  · obtain ⟨i, hi, hk⟩ := hk
    exact Or.inl (ipFragmentStore_unfit mc hI hi hk hf)
  · have hk : ∀ i ∈ l, ¬ SameKey f.hdr (pool.buf i).ipHdr := fun i hi h => hk ⟨i, hi, h⟩
    cases hfree : pool.firstFree with
    | none => exact Or.inr (ipFragmentStore_full mc hI hk hfree)
    | some i =>
      obtain ⟨pool', l', hsame, hI', hi, -, hbuf⟩ := ipFragmentStore_reserve mc hI hk hfree
      refine Or.inl (hsame.trans (ipFragmentStore_unfit mc hI' hi ?_ hf))
      rw [hbuf, Function.update_self]
      exact ⟨rfl, rfl, rfl, rfl⟩

/-- **`ip_fragment_input`** with the datagram that it completes. -/
theorem ipFragmentInput_pool (env : Env) (ip : IpHdr) (b : Buf) : Returns PoolKept (ipFragmentInput env ip b) := by
  rintro s r t hrun ⟨l, hI⟩
  let f : Pkt := ⟨ip, b⟩
  have hrun : ipFragmentInput env f.hdr f.rx s = (some r, t) := hrun
  have hnobufs : ipFragmentStore env.mc s.pool f.hdr f.rx = some (.nobufs, s.pool) →
      ∃ l, t.pool.Inv l := fun hstore => by
    rw [ipFragmentInput_nobufs hstore] at hrun
    obtain rfl : s = t := (Prod.mk.inj hrun).2
    exact ⟨l, hI⟩
  by_cases hf : Fits f.hdr
  · rcases store_cases env.mc hI hf with ⟨-, -, hstore⟩ | ⟨i, pool', l', -, -, hI', hk, hmem, -, hstore⟩
    · exact hnobufs hstore
    · rcases stored_cases env hI' ((hmem i).mpr (Or.inl rfl)) hk hstore with ⟨u, l'', hrun', hI'', -⟩ |
        ⟨hnone, -⟩
      · obtain rfl : u = t := (Prod.mk.inj (hrun'.symm.trans hrun)).2
        exact ⟨l'', hI''⟩
      · rw [hrun] at hnone
        cases hnone
  · rcases store_unfit env.mc hI hf with hstore | hstore
    · unfold Input.ipFragmentInput at hrun
      rw [get_bind, hstore] at hrun
      cases hrun
    · exact hnobufs hstore

theorem poolKept_allowed : Allowed env PoolKept where
  trans h h' hs := h' (h hs)
  outside hs := by
    obtain ⟨_, _, _, _, _, _, rfl⟩ := hs
    exact .of_eq rfl
  handler _ _ h := by
    obtain ⟨r, c, hrun⟩ := callHandler_returned h
    obtain ⟨ht, -, -⟩ := protoInput_returned hrun
    exact .of_eq (by rw [ht]; rfl)

/-! ### Runs -/

/-- **Between turns.** -/
structure Sound (env : Env) (setup : Setup) (s : Stack) : Prop where
  mac : s.mac = setup.mac
  /-- The route is found by the address of the interface, and no other address is local. -/
  route : Ip.IfaceIndex.Agrees s.rib [ownRoute setup]
  /-- The tree links the reserved buffers, one for each datagram. -/
  reserved : ∀ i, (s.pool.buf i).reserved = true ↔ s.pool.head.Reach i
  distinct : ∀ i j, s.pool.head.Reach i → s.pool.head.Reach j →
    SameKey (s.pool.buf i).ipHdr (s.pool.buf j).ipHdr → i = j
  fragment : ∀ f, Fits f.hdr → CallOk env s f
  staged : ∀ i < s.tcp.count, ∃ n, stage (s.tcp.conn i).state = some n
  /-- The search for a socket finds the one in the array that has the address. -/
  socket : ∀ a, ∃ found, s.udp.findUdpSocket env.mc a = some found ∧
    ∀ i, found = some i ↔ i < setup.sockets.length ∧ sockAddrOf setup i = a

variable {setup : Setup} {p : Process}

/-- A run takes the tables along both relations. -/
theorem run_kept (turns : List Turn) (h : (p.run env setup turns).rxBuffer.isSome) :
    p.rxBuffer.isSome ∧ Kept env p.stack (p.run env setup turns).stack ∧
      PoolKept p.stack (p.run env setup turns).stack := by
  have hkept := kept_allowed.turn (kept_allowed.ipFragmentInput fun _ _ => .of_eq rfl rfl rfl rfl)
    (setShmem_kept env) setup.sockets
  have hpool := poolKept_allowed.turn (ipFragmentInput_pool env) (fun _ _ _ => .of_eq rfl)
    setup.sockets
  obtain ⟨halive, h1⟩ := run_along (fun _ => .of_eq rfl rfl rfl rfl) (fun _ _ _ => .trans) hkept turns h
  exact ⟨halive, h1, (run_along (fun _ => .of_eq rfl) (fun _ _ _ h h' hs => h' (h hs)) hpool turns h).2⟩

/-- What start-up leaves is sound, and so is what is kept of it. -/
theorem sound_of_kept {b s : Stack} (hb : Initialised env setup setup.sockets.length b)
    (hk : Kept env b s) (hp : PoolKept b s) : Sound env setup s ∧ Conn.Inv s.tcp := by
  obtain ⟨l, hpool⟩ := hp ⟨[], by rw [hb.pool]; exact inv_init⟩
  have htcp := (hk.tcp (by rw [hb.tcp]; exact Conn.inv_init)).1
  obtain ⟨bound, hI, hbound⟩ := hb.table
  refine ⟨⟨hk.mac.trans hb.mac, by rw [hk.rib]; exact hb.route, fun i => ?_, fun i j hi hj hij => ?_,
    fun f hf => call_ok hpool hf, htcp.staged, fun a => ?_⟩, htcp⟩
  · rw [← hpool.reserved i, hpool.valid.reach]
  · exact hpool.eq_of_key ((hpool.valid.reach i).mp hi) ((hpool.valid.reach j).mp hj) hij
  · obtain ⟨found, h1, h2⟩ := (hk.table bound hI).find a
    refine ⟨found, h1, fun i => ?_⟩
    rw [h2, hbound, ← hb.addr i, ← hk.addr i]

/-- **The tables in every run of the daemon** that has not come to a halt, and the connections between any
two moments of it. -/
theorem run_sound (env : Env) (setup : Setup) (turns more : List Turn)
    (p q : Process) (hp : p = (Process.boot env setup).run env setup turns) (hq : q = p.run env setup more)
    (halive : q.rxBuffer.isSome) :
    Sound env setup p.stack ∧ Sound env setup q.stack ∧ Advances p.stack.tcp q.stack.tcp := by
  subst hq
  obtain ⟨hpalive, hpq, hpqpool⟩ := run_kept more halive
  subst hp
  obtain ⟨hboot, hbp, hbpool⟩ := run_kept turns hpalive
  have hinit := boot_initialised hboot
  obtain ⟨hp, hI⟩ := sound_of_kept hinit hbp hbpool
  obtain ⟨hq, -⟩ := sound_of_kept hinit (hbp.trans hpq) fun hb => hpqpool (hbpool hb)
  exact ⟨hp, hq, (hpq.tcp hI).2⟩

/-- A `SYN` in a frame without checksum. -/
def synFrame : List UInt8 := frameBody (fun _ => 1) (fun _ => 9) etherProtoIpv4
  ([0x45, 0, 0, 56, 0, 0, 0, 0, 64, 6, 0, 0, 10, 0, 0, 9, 10, 0, 0, 2, 0, 9, 0, 80, 0, 0, 0, 7,
    0, 0, 0, 0, 0x50, 2] ++ List.replicate 22 0)

theorem run_sound_syn : ∃ p q : Process, p.stack.tcp.count = 0 ∧ q.stack.tcp.count = 1 ∧
    Sound ⟨.ofSign, fun _ => 74⟩ (.xstack (fun _ => 1) 7) q.stack ∧ Advances p.stack.tcp q.stack.tcp := by
  have hnone : ((Process.boot ⟨.ofSign, fun _ => 74⟩ (.xstack (fun _ => 1) 7)).run
      ⟨.ofSign, fun _ => 74⟩ (.xstack (fun _ => 1) 7) [.tick 10]).stack.tcp.count = 0 := by decide +kernel
  have hone : (((Process.boot ⟨.ofSign, fun _ => 74⟩ (.xstack (fun _ => 1) 7)).run
      ⟨.ofSign, fun _ => 74⟩ (.xstack (fun _ => 1) 7) [.tick 10]).run ⟨.ofSign, fun _ => 74⟩
        (.xstack (fun _ => 1) 7) [.receive [synFrame]]).stack.tcp.count = 1 := by decide +kernel
  have halive : (((Process.boot ⟨.ofSign, fun _ => 74⟩ (.xstack (fun _ => 1) 7)).run
      ⟨.ofSign, fun _ => 74⟩ (.xstack (fun _ => 1) 7) [.tick 10]).run ⟨.ofSign, fun _ => 74⟩
        (.xstack (fun _ => 1) 7) [.receive [synFrame]]).rxBuffer.isSome = true := by decide +kernel
  obtain ⟨-, h1, h2⟩ := run_sound ⟨.ofSign, fun _ => 74⟩ (.xstack (fun _ => 1) 7) [.tick 10]
    [.receive [synFrame]] _ _ rfl rfl halive
  exact ⟨_, _, hnone, hone, h1, h2⟩

end Xstack.Net.Tables
