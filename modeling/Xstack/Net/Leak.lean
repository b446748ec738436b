import Xstack.Ip.Checksum
import Xstack.Net.Interop
import Xstack.Net.TwoRuns
import Xstack.Tcp.Conn

/-! # Replies and the rest of the receive buffer

All frames are received into one buffer, and replies are made in place. The bytes behind the received
ones are what earlier frames left there, and a handler that takes the size of its reply from a field of
the packet, or from the largest message, sends them out.

* `NoLeak`: the frames that are sent do not depend on these bytes. `Safe`: the condition.
* `noLeak_of_safe`: two runs on buffers with the same received bytes.
* `Bumped`: two buffers that differ in one byte. `differ_unreachable`, `differ_absent`, `differ_answered`:
  what is sent differs as well.
* `noLeak_iff_safe`: the condition is exact, but for ARP messages that have been cut off. -/

namespace Xstack.Net.Leak

open Xstack.Config Xstack.Lib.Bytes Xstack.Lib.Program Xstack.Ether Xstack.Ip.Header Xstack.Ip.Checksum
open Xstack.Tcp Xstack.Udp Xstack.Net.State Xstack.Net.Send Xstack.Net.Input Xstack.Net.Validate
open Xstack.Arp.Remember Xstack.Net.Interop Xstack.Net.TwoRuns

variable (env : Env)

/-! ### The property and the condition -/

/-- **The frames that are sent do not depend on the bytes behind the received ones.** -/
def NoLeak (hdr : EtherHdr) (received : List UInt8) (s : Stack) : Prop :=
  ∀ rx rx', (ingress env hdr received rx s).2.tx = (ingress env hdr received rx' s).2.tx

/-- A whole ARP message, or one that is refused in any case, or one that is no request, with its
sender. -/
def ArpSafe (received : List UInt8) : Prop :=
  arpIpSize ≤ received.length ∨ (∀ rx, ArpRefused (put rx 0 received)) ∨
    (18 ≤ received.length ∧ (arpNtoh (ArpIp.load (ofBytes received))).arpOper ≠ arpOperRequest)

/-- Whatever is behind the received bytes, what `ip_input` calls sends back only received bytes. -/
def IpSafe (src : MacAddr) (received : List UInt8) (s : Stack) : Prop :=
  ∀ rx call t, ipCheck (some src) (hdrOf (some src) (put rx 0 received)) received.length s =
      (some (some call), t) →
    DispatchIn env s (hdrOf (some src) (put rx 0 received)) (put rx 0 received) received.length call

/-- **The condition.** -/
def Safe (hdr : EtherHdr) (received : List UInt8) (s : Stack) : Prop :=
  if hdr.hProto = etherProtoArp then ArpSafe received
  else if hdr.hProto = etherProtoIpv4 then IpSafe env hdr.hSrc received s
  else True

/-! ### Two runs of the ingress thread -/

section

variable {env} {hdr : EtherHdr} {received : List UInt8} {s t : Stack} {b b' : Buf} {k m : ℕ}

theorem put_received (rx rx' : Buf) (received : List UInt8) :
    Agree received.length (put rx 0 received) (put rx' 0 received) := by
  intro i hi
  have h := fun rx : Buf => put_of_lt (b := rx) (o := 0) hi
  rw [Nat.zero_add] at h
  rw [h, h]

theorem hdrOf_received (h20 : 20 ≤ received.length) (src : MacAddr) (rx : Buf) :
    hdrOf (some src) (put rx 0 received) = hdrOf (some src) (ofBytes received) :=
  congrArg ipNtoh (IpHdr.load_congr (put_received rx _ received) h20)

theorem etherSend_two (hst : Alike s t) (handle : ℤ) (dst : MacAddr) (proto : UInt16)
    (h : slice b k = slice b' k) :
    Rel Alike Eq (etherSend env handle dst proto b k) (etherSend env handle dst proto b' k) s t := by
  have htx : t.tx = s.tx := by rw [hst]
  have hmac : t.mac = s.mac := by rw [hst]
  have herrno : ∀ e, Alike { s with errno := e } { t with errno := e } := by
    intro e
    rw [hst]
    rfl
  unfold etherSend
  refine .ite (fun _ => .pure hst rfl) fun _ => .ite (fun _ => ?_) fun _ =>
    .ite (fun _ => .stuck hst) fun _ => .get_bind ?_
  · exact .bind (.modify (herrno _)) fun _ _ u v _ huv _ => .pure huv rfl
  · rw [htx, hmac, h]
    refine .bind (Q := Alike) (.modify ?_) fun _ _ u v _ huv _ => ?_
    · rw [hst]
      rfl
    · dsimp only
      refine .ite (fun _ => .bind (.modify ?_) fun _ _ u v _ huv _ => .pure huv rfl) fun _ =>
        .pure huv rfl
      rw [huv]
      rfl

theorem etherOutputReply_two (hst : Alike s t) (hdr : EtherHdr) (h : slice b k = slice b' k) :
    Rel Alike Eq (etherOutputReply env hdr b k) (etherOutputReply env hdr b' k) s t := by
  unfold etherOutputReply
  refine .bind (etherSend_two hst _ _ _ h) ?_
  rintro r _ u v rfl huv -
  refine .ite (fun _ => .bind (.modify ?_) fun _ _ u v _ huv _ => .pure huv rfl) fun _ => .pure huv rfl
  rw [huv]
  rfl

theorem etherInput_two {fn fn' : Act (ℤ × Buf)} (hfn : etherProtoInput env hdr b m = some fn)
    (hfn' : etherProtoInput env hdr b' m = some fn') (h : Rel Alike (Same m m) fn fn' s s) :
    Rel Alike (Same m m) (etherInput env hdr b m) (etherInput env hdr b' m) s s := by
  unfold etherInput
  rw [hfn, hfn']
  refine .bind h ?_
  rintro ⟨r, c⟩ ⟨_, c'⟩ u v ⟨rfl, hle, hc⟩ huv -
  refine .ite (fun _ => .bind (.modify ?_) fun _ _ u v _ huv _ => ?_) fun _ => .pure huv ⟨rfl, hle, hc⟩
  · rw [huv]
    rfl
  · exact .pure huv (.silent (by decide) m hc)

/-- **The frames of two runs,** when `ether_input` returns the same size, within the received bytes. -/
theorem ingress_two {rx rx' : Buf} (h : Rel Alike (Same received.length received.length)
      (etherInput env hdr (put rx 0 received) received.length)
      (etherInput env hdr (put rx' 0 received) received.length) s s) :
    (ingress env hdr received rx s).2.tx = (ingress env hdr received rx' s).2.tx := by
  have hrel : Rel Alike Eq (ingress env hdr received rx) (ingress env hdr received rx') s s := by
    unfold ingress
    refine .bind h ?_
    rintro ⟨r, c⟩ ⟨_, c'⟩ u v ⟨rfl, hle, hc⟩ huv -
    dsimp only at hle ⊢
    refine .ite (fun hpos => ?_) fun _ => .pure huv rfl
    have hslice : slice c r.toNat = slice c' r.toNat := (hc.mono (by omega)).slice
    exact .bind (etherOutputReply_two huv hdr hslice) fun _ _ u v _ huv _ => .pure huv rfl
  have hst : Alike (ingress env hdr received rx s).2 (ingress env hdr received rx' s).2 := hrel.1
  rw [hst]

/-! ### The condition is enough -/

theorem arp_two (h : ArpSafe received) (rx : Buf) : Rel Alike (Same received.length received.length)
    (arpInput env (ofBytes received) received.length)
    (arpInput env (put rx 0 received) received.length) s s := by
  have hagree : Agree received.length (ofBytes received) (put rx 0 received) := put_received _ _ _
  rcases h with h | h | ⟨h18, hoper⟩
  · exact arpInput_two env hagree h s
  · rw [arpInput_refused env (h rx), show arpInput env (ofBytes received) received.length = _ from
      arpInput_refused env (h fun _ => 0) _]
    exact .pure (.refl s) (.silent (by decide) _ hagree)
  · exact arpInput_other env hagree h18 hoper s

/-- The handler of IP packets. -/
theorem etherProtoInput_ip (h : hdr.hProto = etherProtoIpv4) (b : Buf) (m : ℕ) :
    etherProtoInput env hdr b m = some (ipInput env (some hdr.hSrc) b m) := by
  unfold etherProtoInput
  rw [h, if_neg (by decide), if_pos rfl]

/-- What the ingress thread does with a packet, when `ip_input` returns. -/
theorem ingress_ip (h : hdr.hProto = etherProtoIpv4) {rx : Buf} {r : ℤ}
    (hrun : ipInput env (some hdr.hSrc) (put rx 0 received) received.length s = (some (r, b), t))
    (hr : 0 ≤ r) : (ingress env hdr received rx s).2 =
      if r > 0 then (etherOutputReply env hdr b r.toNat t).2 else t := by
  have hinput : etherInput env hdr (put rx 0 received) received.length s = (some (r, b), t) := by
    unfold etherInput
    rw [etherProtoInput_ip h]
    dsimp only
    rw [bind_of_some hrun]
    dsimp only
    rw [if_neg (by omega)]
    rfl
  unfold ingress
  rw [bind_of_some hinput]
  dsimp only
  split_ifs
  · rcases hout : etherOutputReply env hdr b r.toNat t with ⟨_ | _, u⟩
    · rw [bind_of_none hout]
    · rw [bind_of_some hout]
      rfl
  · rfl

/-- Nothing is sent, and nothing is to be sent back. -/
def Silent (x : Act (ℤ × Buf)) (s : Stack) : Prop :=
  (x s).2.tx = s.tx ∧ ∀ r c, (x s).1 = some (r, c) → r ≤ 0

theorem Silent.of_none {x : Act (ℤ × Buf)} (h : x s = (none, t)) (ht : t.tx = s.tx) : Silent x s := by
  unfold Silent
  rw [h]
  exact ⟨ht, fun _ _ hrc => by cases hrc⟩

theorem Silent.of_some {x : Act (ℤ × Buf)} {r : ℤ} (h : x s = (some (r, b), t)) (ht : t.tx = s.tx)
    (hr : r ≤ 0) : Silent x s := by
  unfold Silent
  rw [h]
  refine ⟨ht, fun _ _ hrc => ?_⟩
  cases hrc
  exact hr

theorem ingress_silent (hip : hdr.hProto = etherProtoIpv4) {rx : Buf}
    (h : Silent (ipInput env (some hdr.hSrc) (put rx 0 received) received.length) s) :
    (ingress env hdr received rx s).2.tx = s.tx := by
  obtain ⟨htx, hle⟩ := h
  rcases hrun : ipInput env (some hdr.hSrc) (put rx 0 received) received.length s with ⟨_ | ⟨r, c⟩, t⟩
  · rw [hrun] at htx
    unfold ingress etherInput
    rw [etherProtoInput_ip hip]
    rw [bind_of_none (bind_of_none hrun)]
    exact htx
  · rw [hrun] at htx hle
    have hr : r ≤ 0 := hle r c rfl
    by_cases hneg : r < 0
    · have hinput : etherInput env hdr (put rx 0 received) received.length s =
          (some (-1, c), { t with errno := -r }) := by
        unfold etherInput
        rw [etherProtoInput_ip hip]
        dsimp only
        rw [bind_of_some hrun]
        dsimp only
        rw [if_pos hneg]
        rfl
      unfold ingress
      rw [bind_of_some hinput]
      exact htx
    · rw [ingress_ip hip hrun (by omega), if_neg (by omega)]
      exact htx

theorem icmpInput_le {o bsize : ℕ} {r : ℤ} (hsize : ipMaxBytes < bsize)
    (h : icmpInput b o bsize = some (r, b')) : r ≤ 0 := by
  have hbad : EBADMSG = 74 := rfl
  have hmsg : ENOMSG = 42 := rfl
  unfold icmpInput at h
  split_ifs at h
  · cases h
    omega
  · cases h
    omega

theorem tcpInput_le {mc : Lib.Lex.Memcmp} {m m' : TcpMap} {x : Tcp.Conn.Seg} {r : ℤ}
    (h : Tcp.Conn.input mc m x = some (r, m', b')) (hno : ¬ Answered mc m x.ipHdr x.hdr) : r ≤ 0 := by
  rcases Tcp.Conn.input_cases h with ⟨hneg, -⟩ | ⟨i, m₁, hlookup, hanswer⟩
  · exact hneg.le
  · have hfst := (Tcp.Conn.answer_fst m₁ x i).1
    rw [hanswer] at hfst
    dsimp only at hfst
    rw [hfst]
    by_contra hpos
    exact hno ⟨i, m₁, hlookup, by omega⟩

theorem udpInput_le {mc : Lib.Lex.Memcmp} {m m' : UdpTable} {ip : IpHdr} {o bsize : ℕ} {r : ℤ}
    (h : m.udpInput mc ip b o bsize = some (r, m', b')) : r ≤ 0 := by
  have hrel := udpInput_agree mc m ip (fun _ _ => rfl : Agree (o + bsize) b b) le_rfl
  rw [h] at hrel
  obtain ⟨hsame⟩ := hrel
  exact hsame.2.le

/-- A handler that is told to read more than there can be gives up, or reads outside the buffer. -/
theorem protoInput_silent {ip : IpHdr} {o bsize : ℕ} {proto : Proto} (hsize : ipMaxBytes < bsize)
    (hno : ¬ FastReply env s ip b o bsize proto) : Silent (protoInput env proto ip b o bsize) s := by
  have hbytes : tcpHdrBytes = 20 := rfl
  have hmax : ipMaxBytes = 65535 := rfl
  have hhandled := protoInput_handled env proto ip b o bsize s
  obtain ⟨_, _, ht⟩ := hhandled
  refine ⟨by rw [ht], fun r c h => ?_⟩
  unfold protoInput at h
  rw [get_bind] at h
  cases proto with
  | icmp =>
    cases hi : icmpInput b o bsize with
    | none =>
      rw [hi] at h
      cases h
    | some p =>
      rw [hi] at h
      cases h
      exact icmpInput_le hsize hi
  | tcp =>
    cases hi : s.tcp.tcpInput env.mc ip b o bsize with
    | none =>
      simp only [hi, ofOption_none] at h
      cases h
    | some p =>
      simp only [hi, ofOption_some, bind_pure, modify_bind, pure_apply] at h
      cases h
      exact tcpInput_le (x := ⟨ip, b, o, bsize⟩) hi fun ha => hno ⟨rfl, by omega, ha⟩
  | udp =>
    cases hi : s.udp.udpInput env.mc ip b o bsize with
    | none =>
      simp only [hi, ofOption_none] at h
      cases h
    | some p =>
      simp only [hi, ofOption_some, bind_pure, modify_bind, pure_apply] at h
      cases h
      exact udpInput_le hi

theorem callHandler_silent {ip : IpHdr} {bsize n : ℕ} {proto : Proto} (hsize : ipMaxBytes < bsize)
    (hn : n < ipHdrHlen ip) (h : HandlerIn env s ip b (ipHdrHlen ip) n bsize proto) :
    Silent (callHandler env proto ip b bsize) s := by
  have hsilent : Silent (protoInput env proto ip b (ipHdrHlen ip) bsize) (withCall s ip b bsize) := by
    refine protoInput_silent hsize fun hreply => ?_
    have hfits := h.fastReply hreply
    omega
  obtain ⟨htx, hle⟩ := hsilent
  rcases hrun : protoInput env proto ip b (ipHdrHlen ip) bsize (withCall s ip b bsize) with
    ⟨_ | ⟨r, c⟩, t⟩
  · rw [hrun] at htx
    exact .of_none (callHandler_of_none env hrun) htx
  · rw [hrun] at htx hle
    have hr : r ≤ 0 := hle r c rfl
    have hsock : r ≠ -ENOTSOCK := by
      intro hr
      have hneeds := h.unreachable ((protoInput_spec env hrun).2 hr)
      unfold errorNeeds at hneeds
      omega
    have hcall := callHandler_of_some env hrun
    rw [if_neg (by omega), if_neg hsock] at hcall
    exact .of_some hcall htx hr

/-- A fragment with a header that is longer than itself. -/
theorem ipFragmentInput_tx {ip : IpHdr} {rx : Buf} (h : ¬ Ip.Fragment.Fits ip) :
    (ipFragmentInput env ip rx s).2.tx = s.tx := by
  have hstore : ∀ p : Ip.Fragment.PacketBuf, p.store ip rx = none := fun p => if_neg h
  unfold ipFragmentInput
  rw [get_bind]
  rcases hrun : Ip.Fragment.ipFragmentStore env.mc s.pool ip rx with _ | ⟨outcome, pool⟩
  · rfl
  · simp only [ofOption_some, bind_pure, modify_bind]
    cases outcome with
    | emsgsize => rfl
    | nobufs => rfl
    | stored => rfl
    | complete i =>
      unfold Ip.Fragment.ipFragmentStore at hrun
      rcases hget : s.pool.getPacketBuffer env.mc ip with _ | ⟨_ | j, pool'⟩
      · simp [hget] at hrun
      · simp only [hget, Option.bind_eq_bind, Option.bind_some] at hrun
        split_ifs at hrun
        · cases hrun
        · cases hrun
      · simp [hget, hstore] at hrun

theorem ipCall_fragment_silent {ip : IpHdr} {size : ℕ} (h : ¬ Ip.Fragment.Fits ip) :
    Silent (ipCall env (ipFragmentInput env) ip b (some (.fragment size))) s := by
  have htx : (ipFragmentInput env ip (shift b (ipHdrHlen ip)) s).2.tx = s.tx := ipFragmentInput_tx h
  rcases hrun : ipFragmentInput env ip (shift b (ipHdrHlen ip)) s with ⟨_ | _, t⟩
  · rw [hrun] at htx
    exact .of_none (bind_of_none hrun) htx
  · rw [hrun] at htx
    exact .of_some (bind_of_some hrun) htx le_rfl

/-- The call for a packet with a header that is longer than itself. -/
theorem ipCall_silent {ip : IpHdr} {n : ℕ} {call : Dispatch} (hacc : ipAccepts ip n)
    (hn : n < ipHdrHlen ip) (hsize : Dispatch.size call = sub64 n (ipHdrHlen ip)) (hlearned : Learned s t)
    (hin : DispatchIn env s ip b n call) :
    Silent (ipCall env (ipFragmentInput env) ip (put b 0 ip.bytes) (some call)) t := by
  have hle := ipHdrHlen_le ip
  rcases call with ⟨code, size⟩ | size | ⟨proto, size⟩
  · have hneeds : errorNeeds (ipHdrHlen ip) ≤ n := hin
    unfold errorNeeds at hneeds
    omega
  · refine ipCall_fragment_silent ?_
    rintro ⟨hfits, -⟩
    rw [hacc.2.2] at hfits
    omega
  · have hbig : ipMaxBytes < size := by
      rw [size_handler] at hsize
      rw [hsize]
      unfold sub64 ipMaxBytes
      omega
    exact callHandler_silent hbig hn (HandlerIn.of_learned env hlearned hacc.2.1 hin)

/-- A packet with a header that is longer than itself. -/
theorem ipInput_silent {src : MacAddr} {n : ℕ} {ip : IpHdr} (hip : hdrOf (some src) b = ip)
    (hlt : ipAccepts ip n → n < ipHdrHlen ip)
    (hin : ∀ call t, ipCheck (some src) ip n s = (some (some call), t) →
      DispatchIn env s ip b n call) : Silent (ipInput env (some src) b n) s := by
  have hlearned := ipCheck_learned (some src) ip n s
  rcases hcheck : ipCheck (some src) ip n s with ⟨call, t⟩
  rw [hcheck] at hlearned
  have htx : t.tx = s.tx := by
    obtain ⟨_, _, rfl⟩ := hlearned
    rfl
  rcases call with _ | _ | call
  · exact .of_none (ipInput_of_none hip hcheck) htx
  · exact .of_some (ipInput_of_some hip hcheck) htx le_rfl
  · have hin := hin call t hcheck
    obtain ⟨hacc, isLocal, rfl⟩ := ipCheck_accepts hcheck
    have hsilent := ipCall_silent hacc (hlt hacc) (size_ipDispatch hacc isLocal) hlearned hin
    unfold Silent at hsilent ⊢
    rw [ipInput_of_some hip hcheck, ← htx]
    exact hsilent

theorem ip_safe_two (hip : hdr.hProto = etherProtoIpv4) (h : IpSafe env hdr.hSrc received s)
    (rx : Buf) : (ingress env hdr received (fun _ => 0) s).2.tx =
      (ingress env hdr received rx s).2.tx := by
  by_cases hlen : 20 ≤ received.length ∧
      ipHdrHlen (hdrOf (some hdr.hSrc) (ofBytes received)) ≤ received.length
  · exact ingress_two (etherInput_two (etherProtoInput_ip hip _ _) (etherProtoInput_ip hip _ _)
      (ipInput_two env (put_received _ _ _) hlen.1 rfl hlen.2 (h _)))
  · have hsilent : ∀ rx, (ingress env hdr received rx s).2.tx = s.tx := by
      intro rx
      refine ingress_silent hip (ipInput_silent rfl (fun hacc => ?_) (h rx))
      by_contra hle
      have h20 : 20 ≤ received.length := hacc.2.1.trans (by omega)
      rw [hdrOf_received h20] at hle
      exact hlen ⟨h20, by omega⟩
    rw [hsilent, hsilent]

/-- **The condition is enough:** each run sends what the run on an empty buffer sends. -/
theorem noLeak_of_safe (h : Safe env hdr received s) : NoLeak env hdr received s := by
  have hzero : ∀ rx, (ingress env hdr received (fun _ => 0) s).2.tx =
      (ingress env hdr received rx s).2.tx := by
    intro rx
    unfold Safe at h
    by_cases harp : hdr.hProto = etherProtoArp
    · rw [if_pos harp] at h
      have hfn : ∀ b : Buf, etherProtoInput env hdr b received.length =
          some (arpInput env b received.length) := fun _ => if_pos harp
      exact ingress_two (etherInput_two (hfn _) (hfn _) (arp_two h rx))
    · rw [if_neg harp] at h
      by_cases hip : hdr.hProto = etherProtoIpv4
      · rw [if_pos hip] at h
        exact ip_safe_two hip h rx
      · refine ingress_two ?_
        have hfn : ∀ b : Buf, etherProtoInput env hdr b received.length = none := fun _ => by
          unfold etherProtoInput
          rw [if_neg harp, if_neg hip]
        unfold etherInput
        rw [hfn, hfn]
        exact .bind (.modify rfl) fun _ _ u v _ huv _ =>
          .pure huv (.silent (by decide) _ (put_received _ _ _))
  exact fun rx rx' => (hzero rx).symm.trans (hzero rx')

end

/-! ### One byte -/

/-- Two buffers that differ in the byte `p` only. -/
structure Bumped (p : ℕ) (b b' : Buf) : Prop where
  zero : b p = 0
  one : b' p = 1
  other : ∀ i, i ≠ p → b' i = b i

section

variable {p o : ℕ} {b b' : Buf}

theorem Bumped.agree (h : Bumped p b b') : Agree p b b' := fun i hi => (h.other i (by omega)).symm

theorem Bumped.put (h : Bumped p b b') {l : List UInt8} (hp : p < o ∨ o + l.length ≤ p) :
    Bumped p (put b o l) (put b' o l) := by
  refine ⟨by rw [put_outside hp, h.zero], by rw [put_outside hp, h.one], fun i hi => ?_⟩
  unfold Lib.Bytes.put
  split_ifs
  · rfl
  · exact h.other i hi

theorem Bumped.shift (h : Bumped p b b') (ho : o ≤ p) : Bumped (p - o) (shift b o) (shift b' o) := by
  have hp : o + (p - o) = p := by omega
  refine ⟨?_, ?_, fun i hi => h.other (o + i) (by omega)⟩
  · show b (o + (p - o)) = 0
    rw [hp, h.zero]
  · show b' (o + (p - o)) = 1
    rw [hp, h.one]

/-- A received frame in two buffers with a 0 and a 1 in the byte `p`. -/
theorem bumped_received {received : List UInt8} (rx : Buf) (hp : received.length ≤ p) :
    Bumped p (put (Function.update rx p 0) 0 received) (put (Function.update rx p 1) 0 received) := by
  have hout : p < 0 ∨ 0 + received.length ≤ p := by omega
  refine ⟨by rw [put_outside hout, Function.update_self],
    by rw [put_outside hout, Function.update_self], fun i hi => ?_⟩
  unfold put
  split_ifs
  · rfl
  · rw [Function.update_of_ne hi, Function.update_of_ne hi]

theorem agree_received (rx : Buf) (received : List UInt8) (x : UInt8) :
    Agree p (put rx 0 received) (put (Function.update rx p x) 0 received) := by
  intro i hi
  unfold put
  split_ifs
  · rfl
  · rw [Function.update_of_ne (by omega)]

theorem rd16_of_bytes (h0 : b o = b' o) (h1 : b (o + 1) = b' (o + 1)) : rd16 b o = rd16 b' o := by
  unfold rd16
  rw [h0, h1]

/-! ### ICMP errors -/

variable {code : UInt8} {q bsize : ℕ}

theorem errorMsg_raw (b : Buf) (code : UInt8) (hp : o + 28 + q ≤ p) : errorMsg b code o q p = b p := by
  unfold errorMsg
  rw [put_outside (by rw [length_le16]; omega), put_outside (Or.inr (by simp; omega)),
    copy_outside (by omega)]

theorem bumped_errorMsg (h : Bumped p b b') (code : UInt8) (hp : o + 36 + q ≤ p) :
    Bumped p (errorMsg b code o q) (errorMsg b' code o q) := by
  have hagree := errorMsg_agree h.agree code hp
  refine ⟨by rw [errorMsg_raw b code (by omega), h.zero],
    by rw [errorMsg_raw b' code (by omega), h.one], fun i hi => ?_⟩
  by_cases hip : i < p
  · exact (hagree i hip).symm
  · rw [errorMsg_raw b code (by omega), errorMsg_raw b' code (by omega), h.other i hi]

/-- Behind the message the error has the bytes of the buffer. -/
theorem unreachable_raw (b : Buf) (code : UInt8) (ho : 20 ≤ o) (hp : o + 28 + quoted bsize ≤ p) :
    (icmpGenerateDestUnreachable b code o bsize).2 p = b p := by
  rw [icmpGenerateDestUnreachable_eq]
  show ipHton (errorPacket b code o (quoted bsize)) 0 _ p = b p
  rw [ipHton_outside (by omega)]
  unfold errorPacket
  rw [put_outside (Or.inr (by simp; omega)), ipHton_outside (by omega), errorMsg_raw b code hp]

/-- The buffer whose checksum goes into the old header of an ICMP error. -/
def oldHeader (b : Buf) (code : UInt8) (o q : ℕ) : Buf :=
  shift (put (errorMsg b code o q) (o + 8) { ipNtoh (IpHdr.load b) with ipCsum := 0 }.bytes) (o + 8)

theorem unreachable_csum (b : Buf) (code : UInt8) (ho : 20 ≤ o) (bsize : ℕ) :
    rd16 (icmpGenerateDestUnreachable b code o bsize).2 (o + 18) =
      ipChecksum (oldHeader b code o (quoted bsize)) (ipHdrHlen (IpHdr.load b)) := by
  have hload := load_errorMsg b code ho (quoted bsize)
  have hbyte : ∀ i, 20 ≤ i → (icmpGenerateDestUnreachable b code o bsize).2 i =
      ipHton (errorMsg b code o (quoted bsize)) (o + 8) (IpHdr.load b) i := by
    intro i hi
    rw [icmpGenerateDestUnreachable_eq]
    show ipHton (errorPacket b code o (quoted bsize)) 0 _ i = _
    rw [ipHton_outside (by omega)]
    unfold errorPacket
    rw [put_outside (Or.inr (by simp; omega)), hload]
  rw [rd16_of_bytes (hbyte _ (by omega)) (hbyte _ (by omega))]
  exact rd16_put [] []

/-- A byte behind the received ones that an ICMP error depends on. -/
def Exposed (o bsize p : ℕ) : Prop :=
  (o + 28 + quoted bsize ≤ p ∧ p < 92 + 2 * quoted bsize) ∨
    (o + 36 + quoted bsize ≤ p ∧ p < 2 * o + 8)

/-- **An ICMP error with a byte that was not received:** the byte is sent, or the checksum of the old
header depends on it. -/
theorem unreachable_leaks (h : Bumped p b b') (hlen : ipHdrHlen (IpHdr.load b) = o) (ho : 20 ≤ o)
    (hp : Exposed o bsize p) (code : UInt8) :
    ¬ Agree (92 + 2 * quoted bsize) (icmpGenerateDestUnreachable b code o bsize).2
      (icmpGenerateDestUnreachable b' code o bsize).2 := by
  unfold Exposed at hp
  have hload : IpHdr.load b = IpHdr.load b' := IpHdr.load_congr h.agree (by omega)
  have hle := ipHdrHlen_le (IpHdr.load b)
  have heven : o % 2 = 0 := by
    unfold ipHdrHlen at hlen
    omega
  intro hagree
  rcases hp with ⟨h1, h2⟩ | ⟨h1, h2⟩
  · have heq := hagree p h2
    rw [unreachable_raw b code ho h1, unreachable_raw b' code ho h1, h.zero, h.one] at heq
    exact absurd heq (by decide)
  · have hcsum := hagree.rd16 (show o + 18 + 2 ≤ _ by omega)
    rw [unreachable_csum b code ho, unreachable_csum b' code ho, ← hload, hlen] at hcsum
    have hold : Bumped (p - (o + 8)) (oldHeader b code o (quoted bsize))
        (oldHeader b' code o (quoted bsize)) := by
      unfold oldHeader
      rw [← hload]
      exact ((bumped_errorMsg h code h1).put (Or.inr (by simp; omega))).shift (by omega)
    exact ipChecksum_ne heven (by omega) hold.other hold.zero hold.one hcsum

/-- The byte to look at, for a packet of `n` bytes. -/
theorem exists_leak {n : ℕ} (ho : o ≤ 60) (hn : n < errorNeeds o) :
    ∃ p, n ≤ p ∧ Exposed o (sub64 n o) p := by
  unfold errorNeeds at hn
  have hq : quoted (sub64 n o) = if o ≤ n then min 8 (n - o) else 8 := by
    unfold quoted sub64
    split_ifs <;> omega
  unfold Exposed
  rw [hq]
  by_cases h : n < 108
  · refine ⟨91 + 2 * if o ≤ n then min 8 (n - o) else 8, ?_, Or.inl ?_⟩
    · split_ifs <;> omega
    · split_ifs <;> omega
  · refine ⟨n, le_rfl, Or.inr ?_⟩
    split_ifs <;> omega

end

/-! ### Replies -/

section

variable {env} {hdr : EtherHdr} {received : List UInt8} {s t t' : Stack} {b b' c c' : Buf} {p : ℕ}
  {ip : IpHdr}

theorem etherOutputReply_tx (hdr : EtherHdr) {k : ℕ} (hk : k ≤ etherDataLen) :
    (etherOutputReply env hdr b k t).2.tx =
      t.tx ++ [etherFrame hdr.hSrc t.mac hdr.hProto (slice b k)] := by
  have hframe : ¬ frameSize k > etherMaxlen + etherFcsLen := by
    unfold etherDataLen at hk
    unfold frameSize etherHeaderLen etherMinlen etherMaxlen etherFcsLen
    omega
  have hrun := etherSend_run env (show 0 ≤ etherHandle from le_rfl) (by decide) hframe hdr.hSrc hdr.hProto
    b t
  unfold etherOutputReply
  rw [bind_of_some hrun]
  split_ifs
  · rfl
  · rfl

/-- Two runs that send replies of one size, and these differ. -/
def Differ (f g : Act (ℤ × Buf)) (s : Stack) : Prop :=
  ∃ (k : ℕ) (c c' : Buf) (t t' : Stack), f s = (some ((k : ℤ), c), t) ∧
    g s = (some ((k : ℤ), c'), t') ∧ t'.tx = t.tx ∧ t'.mac = t.mac ∧ 0 < k ∧ k ≤ etherDataLen ∧
    ¬ Agree k c c'

/-- Two replies that differ are two frames that differ. -/
theorem not_noLeak (hip : hdr.hProto = etherProtoIpv4) {rx rx' : Buf}
    (h : Differ (ipInput env (some hdr.hSrc) (put rx 0 received) received.length)
      (ipInput env (some hdr.hSrc) (put rx' 0 received) received.length) s) :
    ¬ NoLeak env hdr received s := by
  obtain ⟨k, c, c', t, t', hrun, hrun', htx, hmac, hpos, hk, hne⟩ := h
  intro hno
  have hframes := hno rx rx'
  have hgt : (k : ℤ) > 0 := by omega
  rw [ingress_ip hip hrun (by omega), ingress_ip hip hrun' (by omega), if_pos hgt, if_pos hgt,
    Int.toNat_natCast, etherOutputReply_tx hdr hk, etherOutputReply_tx hdr hk, htx, hmac] at hframes
  have hframe := List.singleton_inj.mp (List.append_cancel_left hframes)
  have hdata := congrArg (fun frame => (frame.drop 14).take k) hframe
  have hslice : ∀ c : Buf, ((etherFrame hdr.hSrc t.mac hdr.hProto (slice c k)).drop 14).take k =
      slice c k := by
    intro c
    have hframe : ((etherFrame hdr.hSrc t.mac hdr.hProto (slice c k)).drop 14).take
        (slice c k).length = slice c k := etherFrame_data
    rwa [slice_length] at hframe
  rw [hslice, hslice] at hdata
  exact hne (agree_of_slice hdata)

/-- The calls that `ip_input` makes for a frame, when the bytes behind it differ in one byte. -/
theorem not_noLeak_of_call (hip : hdr.hProto = etherProtoIpv4) (hp : received.length ≤ p)
    (h20 : 20 ≤ p) {rx : Buf} {call : Dispatch} (hhdr : hdrOf (some hdr.hSrc) (put rx 0 received) = ip)
    (hcheck : ipCheck (some hdr.hSrc) ip received.length s = (some (some call), t))
    (h : ∀ b b', Bumped p b b' → Agree p (put (put rx 0 received) 0 ip.bytes) b →
      Differ (ipCall env (ipFragmentInput env) ip b (some call))
        (ipCall env (ipFragmentInput env) ip b' (some call)) t) : ¬ NoLeak env hdr received s := by
  have hbumped := (bumped_received rx hp).put (o := 0) (l := ip.bytes) (Or.inr (by simpa using h20))
  have hrun : ∀ x, ipInput env (some hdr.hSrc) (put (Function.update rx p x) 0 received)
      received.length s = ipCall env (ipFragmentInput env) ip
        (put (put (Function.update rx p x) 0 received) 0 ip.bytes) (some call) t := by
    intro x
    refine ipInput_of_some ?_ hcheck
    rw [← hhdr]
    exact congrArg ipNtoh (IpHdr.load_congr (agree_received rx received x) h20).symm
  obtain ⟨k, c, c', u, u', h1, h2, hrest⟩ := h _ _ hbumped ((agree_received rx received 0).put _ _)
  exact not_noLeak hip ⟨k, c, c', u, u', (hrun 0).trans h1, (hrun 1).trans h2, hrest⟩

/-- `udp_input` finds no socket. -/
theorem callHandler_absent {size : ℕ}
    (h : NoSocket env t ip b (ipHdrHlen ip) size .udp) :
    callHandler env .udp ip b size t =
      (some (icmpGenerateDestUnreachable (Udp.Bind.swapped b (ipHdrHlen ip)) icmpCodePortunreac
        (ipHdrHlen ip) size), withCall t ip b size) := by
  have hrun : NoSocket env (withCall t ip b size) ip b (ipHdrHlen ip) size .udp := h
  rw [callHandler_of_some env (protoInput_absent env hrun)]
  rfl

/-- Before the segment, and from its urgent pointer on, the buffer is as before. -/
theorem answer_raw {m : TcpMap} {x : Tcp.Conn.Seg} {i j : ℕ} (hpos : 0 < (tcpFsm (m.conn i) x.hdr).1)
    (hj : j < x.o ∨ x.o + 18 ≤ j) : (Tcp.Conn.answer m x i).2.2 j = x.b j := by
  unfold Tcp.Conn.answer
  dsimp only
  rw [if_pos (show (tcpFsm (m.conn i) x.hdr).1 > 0 from hpos)]
  dsimp only
  by_cases hout : j < x.o ∨ x.o + 20 ≤ j
  · unfold tcpHton
    rw [put_outside (by simp only [length_le16]; omega), put_outside (by simpa using hout),
      put_outside (by simpa using hout), put_outside (by simpa using hout)]
  · have hurg : (tcpFsm (m.conn i) x.hdr).2.2.tcpUrgPtr = x.hdr.tcpUrgPtr := by
      have h := tcpFsm_urgPtr (m.conn i) x.hdr x.hdr.tcpUrgPtr
      exact congrArg (fun r => r.2.2.tcpUrgPtr) h
    set c := tcpHton _ _ _ _ _ _ with hc
    obtain ⟨csum, hload⟩ := load_tcpHton (put (put x.b x.o x.hdr.bytes) x.o
      (tcpFsm (m.conn i) x.hdr).2.2.bytes) x.o x.loc x.rem { (tcpFsm (m.conn i) x.hdr).2.2 with
        tcpSport := x.loc.port.toUInt16, tcpDport := x.rem.port.toUInt16 }
      (tcpFsm (m.conn i) x.hdr).1.toNat
    rw [← hc] at hload
    have hswap : swap16 (rd16 c (x.o + 18)) = swap16 (rd16 x.b (x.o + 18)) :=
      (congrArg TcpHdr.tcpUrgPtr hload).trans hurg
    have hrd := congrArg swap16 hswap
    rw [swap16_swap16, swap16_swap16] at hrd
    obtain ⟨h18, h19⟩ := rd16_inj hrd
    obtain rfl | rfl : j = x.o + 18 ∨ j = x.o + 18 + 1 := by omega
    · exact h18
    · exact h19

/-- `tcp_input` answers: the reply is as long as the header says, and a byte behind its checksum is the one
of the buffer. -/
theorem tcpInput_answered {mc : Lib.Lex.Memcmp} {m : TcpMap} {x : Tcp.Conn.Seg}
    (hsize : tcpHdrBytes ≤ x.bsize) (h : Answered mc m x.ipHdr x.hdr) : 5 ≤ tcpDoff x.hdr ∧ ∃ m' c,
      m.tcpInput mc x.ipHdr x.b x.o x.bsize = some (((4 * tcpDoff x.hdr : ℕ) : ℤ), m', c) ∧
        ∀ j, j < x.o ∨ x.o + 18 ≤ j → c j = x.b j := by
  obtain ⟨i, m', hlookup, hpos⟩ := h
  obtain ⟨hlen, hdoff⟩ := tcpFsm_size hpos
  have hrun := Tcp.Conn.input_eq mc m x
  rw [if_neg (show ¬ x.bsize < tcpHdrBytes by omega),
    show m.lookup mc x.loc x.rem x.hdr = some (some (i, m')) from hlookup] at hrun
  have hfst : (Tcp.Conn.answer m' x i).1 = ((4 * tcpDoff x.hdr : ℕ) : ℤ) := by
    rw [(Tcp.Conn.answer_fst m' x i).1, Nat.cast_mul]
    exact hlen
  exact ⟨hdoff, _, _, hrun.trans (congrArg some (Prod.ext hfst rfl)), fun j => answer_raw hpos⟩

/-- What decides that `tcp_input` answers is in the first 18 bytes. -/
theorem fastReply_congr {o bsize : ℕ} {proto : Proto} (hagree : Agree (o + 18) b b')
    (h : FastReply env s ip b o bsize proto) : FastReply env s ip b' o bsize proto ∧
      tcpDoff (tcpNtoh (TcpHdr.load (shift b' o))) = tcpDoff (tcpNtoh (TcpHdr.load (shift b o))) := by
  have hhdr : ∃ u, tcpNtoh (TcpHdr.load (shift b' o)) =
      { tcpNtoh (TcpHdr.load (shift b o)) with tcpUrgPtr := u } := by
    rw [TcpHdr.load_urgPtr ((hagree.shift o).mono (by omega))]
    exact ⟨_, rfl⟩
  obtain ⟨u, hhdr⟩ := hhdr
  obtain ⟨hproto, hsize, i, m', hlookup, hpos⟩ := h
  unfold FastReply Answered
  rw [hhdr]
  refine ⟨⟨hproto, hsize, i, m', ?_, ?_⟩, ?_⟩
  · rw [TcpMap.lookup_urgPtr, ← hlookup]
    rfl
  · rw [tcpFsm_urgPtr]
    exact hpos
  · unfold tcpDoff
    dsimp only

theorem noSocket_congr {o bsize : ℕ} {proto : Proto} (hagree : Agree (o + 8) b b')
    (h : NoSocket env s ip b o bsize proto) : NoSocket env s ip b' o bsize proto := by
  unfold NoSocket
  rw [← UdpHdr.load_congr (hagree.shift o) (by omega)]
  exact h

/-- The reply to a segment: its size is the one of the headers, and a byte behind the checksum is the one
of the buffer. -/
theorem callHandler_answered {size : ℕ} (hload : IpHdr.load b = ip) (h20 : 20 ≤ ipHdrHlen ip)
    (h : FastReply env t ip b (ipHdrHlen ip) size .tcp) :
    5 ≤ tcpDoff (tcpNtoh (TcpHdr.load (shift b (ipHdrHlen ip)))) ∧
      ∃ c u, callHandler env .tcp ip b size t = (some (((ipHdrHlen ip + 4 *
          tcpDoff (tcpNtoh (TcpHdr.load (shift b (ipHdrHlen ip)))) : ℕ) : ℤ), c), u) ∧
        u.tx = t.tx ∧ u.mac = t.mac ∧ ∀ j, ipHdrHlen ip + 18 ≤ j → c j = b j := by
  obtain ⟨-, hsize, hanswered⟩ := h
  obtain ⟨hpos, m', c, hrun, hraw⟩ :=
    tcpInput_answered (x := ⟨ip, b, ipHdrHlen ip, size⟩) hsize hanswered
  dsimp only [Tcp.Conn.Seg.hdr] at hpos hrun hraw
  set doff := tcpDoff (tcpNtoh (TcpHdr.load (shift b (ipHdrHlen ip))))
  have hc : IpHdr.load c = ip := by
    rw [← hload]
    exact IpHdr.load_congr (fun j hj => hraw j (Or.inl hj)) h20
  have hproto : protoInput env .tcp ip b (ipHdrHlen ip) size (withCall t ip b size) =
      (some (((4 * doff : ℕ) : ℤ), c), { withCall t ip b size with tcp := m' }) := by
    unfold protoInput
    rw [get_bind]
    dsimp only
    rw [show (withCall t ip b size).tcp = t.tcp from rfl, hrun]
    rfl
  have hreply : (ipReplyHeader c (4 * doff)).1 = ipHdrHlen ip + 4 * doff := by
    rw [← hc]
    exact Nat.add_comm _ _
  refine ⟨hpos, (ipReplyHeader c (4 * doff)).2, { withCall t ip b size with tcp := m' }, ?_, rfl, rfl,
    fun j hj => ?_⟩
  · rw [callHandler_of_some env hproto, if_pos (by omega), Int.toNat_natCast, hreply]
  · show ipHton c 0 _ j = b j
    rw [ipHton_outside (by omega), hraw j (Or.inr hj)]

/-! ### The condition is needed -/

theorem differ_unreachable {f g : Act (ℤ × Buf)} {o bsize : ℕ} {code : UInt8}
    (hf : f s = (some (icmpGenerateDestUnreachable b code o bsize), t))
    (hg : g s = (some (icmpGenerateDestUnreachable b' code o bsize), t'))
    (htx : t'.tx = t.tx) (hmac : t'.mac = t.mac) (h : Bumped p b b')
    (hlen : ipHdrHlen (IpHdr.load b) = o) (ho : 20 ≤ o)
    (hp : Exposed o bsize p) : Differ f g s := by
  have hleaks := unreachable_leaks h hlen ho hp code
  have hq := quoted_le bsize
  have hmax : etherDataLen = 1500 := rfl
  rw [icmpGenerateDestUnreachable_eq] at hf hg
  rw [icmpGenerateDestUnreachable_eq, icmpGenerateDestUnreachable_eq] at hleaks
  exact ⟨_, _, _, t, t', hf, hg, htx, hmac, by omega, by omega, hleaks⟩

theorem differ_absent {size : ℕ} (h : Bumped p b b') (hload : IpHdr.load b = ip)
    (h20 : 20 ≤ ipHdrHlen ip) (hp : Exposed (ipHdrHlen ip) size p)
    (hno : NoSocket env t ip b (ipHdrHlen ip) size .udp) :
    Differ (callHandler env .udp ip b size) (callHandler env .udp ip b' size) t := by
  have hle : ipHdrHlen ip + 8 ≤ p := by
    unfold Exposed at hp
    omega
  have hagree : Agree (ipHdrHlen ip + 8) b b' := h.agree.mono hle
  have hhdr : Udp.Bind.hdrAt b (ipHdrHlen ip) = Udp.Bind.hdrAt b' (ipHdrHlen ip) :=
    congrArg udpNtoh (UdpHdr.load_congr (hagree.shift _) (by omega))
  have hswapped : Bumped p (Udp.Bind.swapped b (ipHdrHlen ip)) (Udp.Bind.swapped b' (ipHdrHlen ip)) := by
    unfold Udp.Bind.swapped
    rw [← hhdr]
    exact h.put (Or.inr (by simpa using hle))
  have hload' : IpHdr.load (Udp.Bind.swapped b (ipHdrHlen ip)) = ip := by
    rw [← hload]
    refine IpHdr.load_congr (n := 20) (fun i hi => ?_) le_rfl
    rw [hload]
    exact put_outside (Or.inl (by omega))
  exact differ_unreachable (callHandler_absent hno) (callHandler_absent (noSocket_congr hagree hno))
    rfl rfl hswapped (by rw [hload']) h20 hp

theorem differ_answered {size : ℕ} (h : Bumped p b b') (hload : IpHdr.load b = ip)
    (h20 : 20 ≤ ipHdrHlen ip) (hreply : FastReply env t ip b (ipHdrHlen ip) size .tcp)
    (hp : p + 1 = ipHdrHlen ip + 4 * tcpDoff (tcpNtoh (TcpHdr.load (shift b (ipHdrHlen ip))))) :
    Differ (callHandler env .tcp ip b size) (callHandler env .tcp ip b' size) t := by
  obtain ⟨h5, c, u, hrun, htx, hmac, hraw⟩ := callHandler_answered hload h20 hreply
  have hlast : ipHdrHlen ip + 18 ≤ p := by omega
  have hload' : IpHdr.load b' = ip := by
    rw [← hload]
    exact (IpHdr.load_congr h.agree (by omega)).symm
  obtain ⟨hreply', hdoff⟩ := fastReply_congr (h.agree.mono hlast) hreply
  obtain ⟨-, c', u', hrun', htx', hmac', hraw'⟩ := callHandler_answered hload' h20 hreply'
  rw [hdoff, ← hp] at hrun'
  rw [← hp] at hrun
  have hle := ipHdrHlen_le ip
  have hdoff := tcpDoff_le (tcpNtoh (TcpHdr.load (shift b (ipHdrHlen ip))))
  have hmax : etherDataLen = 1500 := rfl
  refine ⟨p + 1, c, c', u, u', hrun, hrun', htx'.trans htx.symm, hmac'.trans hmac.symm, by omega,
    by omega, fun hagree => ?_⟩
  have heq := hagree p (Nat.lt_succ_self p)
  rw [hraw p hlast, hraw' p hlast, h.zero, h.one] at heq
  exact absurd heq (by decide)

/-- **The condition is needed,** for packets. -/
theorem ipSafe_of_noLeak (hip : hdr.hProto = etherProtoIpv4) (hno : NoLeak env hdr received s) :
    IpSafe env hdr.hSrc received s := by
  intro rx call t hcheck
  set ip := hdrOf (some hdr.hSrc) (put rx 0 received) with hhdr
  have hlearned := ipCheck_learned (some hdr.hSrc) ip received.length s
  rw [hcheck] at hlearned
  obtain ⟨hacc, isLocal, hcall⟩ := ipCheck_accepts hcheck
  have h20 := hacc.2.1
  have hle := ipHdrHlen_le ip
  have hsize := size_ipDispatch hacc isLocal
  rw [← hcall] at hsize
  have hloadB : IpHdr.load (put (put rx 0 received) 0 ip.bytes) = ip := IpHdr.load_put _ ip
  have hload : ∀ {p : ℕ} {b : Buf}, 20 ≤ p → Agree p (put (put rx 0 received) 0 ip.bytes) b →
      IpHdr.load b = ip := fun hp hagree => (IpHdr.load_congr hagree hp).symm.trans hloadB
  have hexposed : ∀ {p size : ℕ}, Exposed (ipHdrHlen ip) size p → ipHdrHlen ip + 28 ≤ p := by
    intro p size hp
    unfold Exposed at hp
    omega
  rcases call with ⟨code, size⟩ | size | ⟨proto, size⟩
  · by_contra hneeds
    obtain ⟨p, hp, hex⟩ := exists_leak hle (not_le.mp hneeds)
    rw [size_unreachable] at hsize
    rw [← hsize] at hex
    have hge := hexposed hex
    refine not_noLeak_of_call hip hp (by omega) hhdr.symm hcheck (fun b b' hb hagree => ?_) hno
    exact differ_unreachable rfl rfl rfl rfl hb (by rw [hload (by omega) hagree]) h20 hex
  · trivial
  · rw [size_handler] at hsize
    constructor
    · rintro hsocket
      by_contra hneeds
      obtain ⟨p, hp, hex⟩ := exists_leak hle (not_le.mp hneeds)
      rw [← hsize] at hex
      have hge := hexposed hex
      obtain rfl := hsocket.1
      have hsocket := (noSocket_learned env hlearned h20).mpr hsocket
      refine not_noLeak_of_call hip hp (by omega) hhdr.symm hcheck (fun b b' hb hagree => ?_) hno
      exact differ_absent hb (hload (by omega) hagree) h20 hex
        (noSocket_congr (hagree.mono (by omega)) hsocket)
    · rintro hreply
      by_contra hlong
      obtain rfl := hreply.1
      have hreply := (fastReply_learned env hlearned h20).mpr hreply
      rw [← shift_hdr _ ip h20] at hlong
      obtain ⟨h5, -⟩ := callHandler_answered hloadB h20 hreply
      set doff := tcpDoff (tcpNtoh (TcpHdr.load
        (shift (put (put rx 0 received) 0 ip.bytes) (ipHdrHlen ip))))
      refine not_noLeak_of_call hip (p := ipHdrHlen ip + 4 * doff - 1) (by omega) (by omega) hhdr.symm
        hcheck (fun b b' hb hagree => ?_) hno
      obtain ⟨hreply', hdoff⟩ := fastReply_congr (hagree.mono (by omega)) hreply
      exact differ_answered hb (hload (by omega) hagree) h20 hreply' (by omega)

end

/-- **Replies do not depend on the rest of the receive buffer under the condition,** and only under it,
but for ARP messages that have been cut off. -/
theorem noLeak_iff_safe (hdr : EtherHdr) (received : List UInt8) (s : Stack) :
    (Safe env hdr received s → NoLeak env hdr received s) ∧
      ((hdr.hProto = etherProtoArp → arpIpSize ≤ received.length) →
        (NoLeak env hdr received s ↔ Safe env hdr received s)) := by
  refine ⟨noLeak_of_safe, fun hwhole => ⟨fun hno => ?_, noLeak_of_safe⟩⟩
  unfold Safe
  split_ifs with harp hip
  · exact Or.inl (hwhole harp)
  · exact ipSafe_of_noLeak hip hno

/-- A packet of 46 bytes, of a protocol that there is no handler for. -/
def shortPacket : List UInt8 := [0x45, 0, 0, 46] ++ List.replicate 42 0

theorem stale_bytes_sent : ¬ NoLeak ⟨.ofSign, fun _ => 42⟩
    ⟨fun _ => 0, fun _ => 0, etherProtoIpv4⟩ shortPacket (start (Stack.init fun _ => 0)) := by
  intro hno
  have hsafe := ipSafe_of_noLeak rfl hno
  have hacc : ipAccepts (hdrOf (some fun _ => 0) (ofBytes shortPacket)) shortPacket.length := by
    decide +kernel
  obtain ⟨t, call, hcall⟩ := ipCheck_init (some fun _ => 0) hacc
  have hin := hsafe (fun _ => 0) call t hcall
  obtain ⟨-, isLocal, rfl⟩ := ipCheck_accepts hcall
  have hneeds : ¬ errorNeeds (ipHdrHlen (hdrOf (some fun _ => 0) (ofBytes shortPacket))) ≤
      shortPacket.length := by decide +kernel
  cases isLocal with
  | false => exact hneeds hin
  | true => exact hneeds hin

end Xstack.Net.Leak
