import Xstack.Net.Echo
import Xstack.Net.Replies

/-! # Replies to replies

The daemon replies to what it receives, and another daemon may receive the reply. `ether_receive` counts
padding and checksum into the size of the data, so that an IP packet is taken only if it fills its frame.

* `replyTo`: the reply that a daemon sends to one frame (`ingressTurn_reply`).
* `Answer`: the replies, as their receivers see them (`replyTo_answer`).
* `chain_length`: a reply to a reply is not replied to. -/

namespace Xstack.Net.Chains

open Xstack.Config Xstack.Lib.Bytes Xstack.Lib.Program Xstack.Ether Xstack.Arp.Cache
open Xstack.Ip.Header Xstack.Net.State Xstack.Net.Input Xstack.Net.Validate Xstack.Net.Interop
open Xstack.Net.TwoRuns Xstack.Net.Leak Xstack.Net.Echo Xstack.Net.Daemon Xstack.Net.Replies

variable {env : Env} {n m : ℕ} {b c : Buf} {r : ℤ} {s t : Stack}

/-- The frame that the ingress thread sends as the reply to a frame. -/
def replyTo (env : Env) (s : Stack) (rxBuffer : Buf) (frame : List UInt8) : Option (List UInt8) :=
  match etherReceive s.mac rxBuffer etherMaxlen [frame] with
  | none => none
  | some none => none
  | some (some (hdr, b, retval)) =>
    if retval > 0 then
      match etherInput env hdr b retval s with
      | (none, _) => none
      | (some (retval, b), t) =>
        if retval > 0 then some (etherFrame hdr.hSrc t.mac hdr.hProto (slice b retval.toNat)) else none
    else none

/-- Frames are only added to the sent ones. -/
theorem grows (env : Env) (s : Stack) : Invariant env (fun t => s.tx <+: t.tx) (fun _ _ _ => True)
    (fun _ _ => True) fun _ _ _ => True where
  tells _ _ _ _ := tells_all _ _ _
  other _ _ _ _ _ htx _ h := by rwa [htx]
  insert _ _ _ _ _ _ _ _ h := h
  update _ _ _ _ h := h
  cached _ _ _ := trivial
  sent _ _ _ _ _ _ _ _ h := h.trans (List.prefix_append _ _)
  request _ _ _ _ _ _ _ _ := trivial
  packet _ _ _ _ _ _ _ _ _ := trivial
  reply _ _ _ _ _ _ _ _ _ _ _ _ := trivial

/-- **The last frame of a turn is the reply;** what is before it was waiting for a hardware address. -/
theorem ingressTurn_reply (env : Env) (s : Stack) (rxBuffer : Buf) (frame : List UInt8) :
    ∃ sent, (ingressTurn env [frame] rxBuffer s).2.tx =
      s.tx ++ sent ++ (replyTo env s rxBuffer frame).toList := by
  unfold ingressTurn replyTo
  rw [get_bind]
  rcases hrecv : etherReceive s.mac rxBuffer etherMaxlen [frame] with _ | _ | ⟨hdr, b, n⟩
  · exact ⟨[], by simp [stuck]⟩
  · exact ⟨[], by simp⟩
  dsimp only
  split_ifs with hn
  · obtain ⟨sent, hsent⟩ := ((grows env s).etherInput (tells_all hdr b n) s (List.prefix_refl _)).1
    rcases hrun : etherInput env hdr b n s with ⟨_ | ⟨r, c⟩, t⟩
    · rw [hrun] at hsent
      exact ⟨sent, by simp [bind_of_none hrun, hsent]⟩
    · rw [hrun] at hsent
      rw [bind_of_some hrun]
      dsimp only
      split_ifs with hr
      · refine ⟨sent, ?_⟩
        have htx := ((receive_safe hrecv hrun).2 hr).2
        rcases hout : etherOutputReply env hdr c r.toNat t with ⟨_ | _, u⟩
        · rw [bind_of_none hout, hsent]
          rw [hout] at htx
          exact htx
        · rw [bind_of_some hout, hsent]
          rw [hout] at htx
          exact htx
      · exact ⟨sent, by simp [hsent]⟩
  · exact ⟨[], by simp⟩

/-! ### The frame at its receiver -/

/-- Short data is padded with zeros. -/
theorem etherFrame_padded (dst src : MacAddr) (proto : UInt16) (data : List UInt8) :
    etherFrame dst src proto (data ++ List.replicate (56 - data.length) 0) =
      etherFrame dst src proto data := by
  have hbody : frameBody dst src proto (data ++ List.replicate (56 - data.length) 0) =
      frameBody dst src proto data := by
    have hlen : (data ++ List.replicate (56 - data.length) (0 : UInt8)).length = max data.length 56 := by
      rw [List.length_append, List.length_replicate]
      omega
    have h1 : frameSize (max data.length 56) - etherHeaderLen - etherFcsLen - max data.length 56 = 0 := by
      unfold frameSize etherHeaderLen etherFcsLen etherMinlen
      omega
    have h2 : frameSize data.length - etherHeaderLen - etherFcsLen - data.length = 56 - data.length := by
      unfold frameSize etherHeaderLen etherFcsLen etherMinlen
      omega
    unfold frameBody
    rw [hlen, h1, h2, List.replicate_zero, List.append_nil, ← List.append_assoc]
  unfold etherFrame
  rw [hbody]

/-- **The data and its padding** are what `ether_receive` leaves in the buffer. -/
theorem etherReceive_padded (dst : MacAddr) {src mac : MacAddr} (proto : UInt16) (buf : Buf)
    {data : List UInt8} (hdata : data.length ≤ 1500) (hmac : src ≠ mac) :
    ∃ b, etherReceive mac buf etherMaxlen [etherFrame dst src proto data] =
        some (some (⟨dst, src, proto⟩, b, receivedSize data.length)) ∧
      Agree (max data.length 56) b (ofBytes data) := by
  set padded := data ++ List.replicate (56 - data.length) (0 : UInt8) with hpad
  have hlen : padded.length = max data.length 56 := by
    rw [hpad, List.length_append, List.length_replicate]
    omega
  have hfits : padded.length ≤ 1500 := by omega
  obtain ⟨b, hb, hget⟩ := etherReceive_frame dst proto buf hfits hmac
  refine ⟨b, ?_, fun i hi => ?_⟩
  · rw [← etherFrame_padded, ← hpad, hb, hlen]
    unfold receivedSize
    rw [max_assoc, max_self]
  · rw [hget i (by omega), hpad]
    by_cases hi' : i < data.length
    · rw [List.getD_append _ _ _ _ hi', ofBytes_of_lt hi']
    · rw [List.getD_append_right _ _ _ _ (by omega), ofBytes, put_outside (Or.inr (by omega))]
      exact List.getD_replicate _ (by omega)

/-! ### The replies -/

/-- A packet whose length field is not the size that `ether_receive` returns for it. -/
structure Misfit (n : ℕ) (b : Buf) : Prop where
  size : 20 ≤ n
  len : (ipNtoh (IpHdr.load b)).ipLen.toNat ≠ receivedSize n

/-- An ICMP echo reply of 1500 bytes, which fills its frame. -/
structure FullEcho (n : ℕ) (b : Buf) : Prop where
  size : n = 1500
  len : (ipNtoh (IpHdr.load b)).ipLen.toNat = 1500
  proto : (ipNtoh (IpHdr.load b)).ipProto = ipProtoIcmp
  type : b (ipHdrHlen (IpHdr.load b)) = icmpTypeEchoReply

theorem misfit_unreachable {code : UInt8} {o bsize : ℕ} (hr : (r, c) = icmpGenerateDestUnreachable b code o bsize) :
    Misfit r.toNat c := by
  have hq := quoted_le bsize
  rw [icmpGenerateDestUnreachable_eq] at hr
  obtain ⟨rfl, rfl⟩ := Prod.mk.inj hr
  have h20 := load_errorPacket b code o (quoted bsize)
  obtain ⟨-, ⟨csum, hhdr⟩, -, -⟩ := ipReplyHeader_spec rfl h20.ge (36 + quoted bsize)
  rw [Int.toNat_natCast]
  refine ⟨by omega, ?_⟩
  rw [hhdr, h20]
  show (UInt16.ofNat (36 + quoted bsize + 20)).toNat ≠ _
  rw [UInt16.toNat_ofNat', Nat.mod_eq_of_lt (by omega)]
  unfold receivedSize
  omega

theorem findProto_icmp {p : UInt8} (h : findProto p = some .icmp) : p = ipProtoIcmp := by
  unfold findProto at h
  split_ifs at h with h1 h2 h3
  · exact h1
  · cases h
  · cases h

/-- The replies of `ip_input`: only the answer to an echo request fits. -/
theorem ipInput_answer {src : MacAddr} (hn : n ≤ 1500) (h : ipInput env (some src) b n s = (some (r, c), t))
    (hpos : 0 < r) : Misfit r.toNat c ∨
      (FullEcho r.toNat c ∧ b (ipHdrHlen (hdrOf (some src) b)) = icmpTypeEchoRequest) := by
  have hreply := ipInputWith_cases h
  set ip := hdrOf (some src) b with hip
  generalize hx : (r, c) = x at hreply
  cases hreply with
  | none =>
    obtain ⟨rfl, -⟩ := Prod.mk.inj hx
    exact absurd hpos (lt_irrefl 0)
  | unreachable code hacc => exact Or.inl (misfit_unreachable hx)
  | @handler proto x hacc hwhole hproto hlocal hh =>
    have h20 := hacc.2.1
    have hle := ipHdrHlen_le ip
    subst hx
    generalize hx : (r, c) = x at hh
    cases hh with
    | @answer r' c' hpos' hr hload hbc =>
      obtain ⟨rfl, rfl⟩ := Prod.mk.inj hx
      obtain ⟨-, ⟨csum, hhdr⟩, hout, -⟩ := ipReplyHeader_spec hload h20 r'.toNat
      have hsize : r' ≤ 60 ∨ r' + ipHdrHlen ip = n := hr.imp_right fun hr =>
        hr.2.total hle (by unfold ipMaxBytes; omega)
      have hk : (r' + (ipHdrHlen ip : ℤ)).toNat = r'.toNat + ipHdrHlen ip := by omega
      have hlen : (ipNtoh (IpHdr.load (ipReplyHeader c' r'.toNat).2)).ipLen.toNat =
          r'.toNat + ipHdrHlen ip := by
        rw [hhdr]
        exact UInt16.toNat_ofNat_of_lt' (show _ < 65536 by omega)
      rw [hk]
      by_cases hfull : r'.toNat + ipHdrHlen ip = 1500
      · obtain ⟨rfl, hecho⟩ := hr.resolve_left (by omega)
        have hstart : ipHdrHlen (IpHdr.load (ipReplyHeader c' r'.toNat).2) = ipHdrHlen ip := by
          rw [← ipHdrHlen_ipNtoh, hhdr]
          rfl
        refine Or.inr ⟨⟨hfull, hlen.trans hfull, ?_, ?_⟩, ?_⟩
        · rw [hhdr]
          exact findProto_icmp hproto
        · rw [hstart, hout _ h20]
          exact hecho.reply
        · rw [← hecho.request, put_outside (Or.inr (by simpa using h20))]
      · refine Or.inl ⟨by omega, ?_⟩
        rw [hlen]
        exact fun hsame => hfull ((receivedSize_eq_iff (by omega)).mp hsame.symm)
    | error hload hbc => exact Or.inl (misfit_unreachable hx)
    | silent hge hr hbc =>
      obtain ⟨rfl, -⟩ := Prod.mk.inj hx
      omega

theorem byte_of_rd16 {o : ℕ} {x : UInt16} (h : rd16 b o = x) : b (o + 1) = UInt8.ofNat (x.toNat / 256) := by
  have hput : rd16 (put b o (le16 x)) o = x := rd16_put (b := b) (o := o) [] []
  obtain ⟨-, hbyte⟩ := rd16_inj (h.trans hput.symm)
  exact hbyte.trans (put_of_lt (l := le16 x) (i := 1) (by simp))

theorem arpReply_oper (arp : ArpIp) (sha : Option MacAddr) (iface : InAddr) :
    rd16 (arpReply b arp sha iface) 6 = swap16 arpOperReply := by
  set d := put b 6 (le16 (swap16 arpOperReply)) with hd
  have hget : rd16 d 6 = swap16 arpOperReply := rd16_put (b := b) (o := 6) [] []
  have hsame : ∀ i < 8, arpReply b arp sha iface i = d i := fun i hi => by
    unfold arpReply
    rw [put_outside (Or.inl (by omega)), put_outside (Or.inl (by omega)), put_outside (Or.inl (by omega)),
      put_outside (Or.inl hi)]
  rw [← hget]
  exact (show Agree 8 (arpReply b arp sha iface) d from hsame).rd16 le_rfl

/-- The replies of `arp_input` are no requests. -/
theorem arpInput_answer (h : arpInput env b n s = (some (r, c), t)) (hpos : 0 < r) :
    (arpNtoh (ArpIp.load b)).arpOper = arpOperRequest ∧ rd16 c 6 = swap16 arpOperReply := by
  have hens : Ensures (fun _ => True) (arpInput env b n) fun x => 0 < x.1 →
      (arpNtoh (ArpIp.load b)).arpOper = arpOperRequest ∧ rd16 x.2 6 = swap16 arpOperReply := by
    have hzero : ∀ c : Buf, 0 < ((0, c) : ℤ × Buf).1 → (arpNtoh (ArpIp.load b)).arpOper = arpOperRequest ∧
        rd16 ((0, c) : ℤ × Buf).2 6 = swap16 arpOperReply := fun c h => absurd h (lt_irrefl 0)
    have hproto : ¬ 0 < -EPROTOTYPE := by decide
    unfold arpInput
    refine .ite (fun _ => .pure fun h => absurd h hproto) fun _ =>
      .ite (fun _ => .pure fun h => absurd h hproto) fun _ => ?_
    refine .seq (.of_any _) fun _ => .seq (.of_any _) fun _ =>
      .ite (fun hoper => ?_) fun _ => .pure (hzero b)
    refine .seq (.of_any _) fun route => ?_
    cases route with
    | none => exact .pure (hzero b)
    | some route => exact .seq (.of_any _) fun sha => .pure fun _ => ⟨hoper, arpReply_oper _ _ _⟩
  have hx := (hens s trivial).2
  rw [h] at hx
  exact hx (r, c) rfl hpos

/-- A reply as its receiver gets it. -/
inductive Answer : UInt16 → ℕ → Buf → Prop
  | arp {n : ℕ} {c : Buf} (hoper : rd16 c 6 = swap16 arpOperReply) : Answer etherProtoArp n c
  | misfit {n : ℕ} {c : Buf} (h : Misfit n c) : Answer etherProtoIpv4 n c
  | echo {n : ℕ} {c : Buf} (h : FullEcho n c) : Answer etherProtoIpv4 n c

/-- A reply comes from one of the two input functions. -/
theorem etherInput_positive {hdr : EtherHdr} (h : etherInput env hdr b n s = (some (r, c), t)) (hpos : 0 < r) :
    (hdr.hProto = etherProtoArp ∧ arpInput env b n s = (some (r, c), t)) ∨
    (hdr.hProto = etherProtoIpv4 ∧ ipInput env (some hdr.hSrc) b n s = (some (r, c), t)) := by
  unfold etherInput at h
  rcases hfn : etherProtoInput env hdr b n with _ | fn
  · rw [hfn] at h
    obtain ⟨rfl, -⟩ : -1 = r ∧ b = c := Prod.mk.inj (Option.some.inj (Prod.mk.inj h).1)
    omega
  · rw [hfn] at h
    dsimp only at h
    have hrun : fn s = (some (r, c), t) := by
      rcases hrun : fn s with ⟨_ | y, u⟩
      · rw [bind_of_none hrun] at h
        cases h
      · rw [bind_of_some hrun] at h
        split_ifs at h
        · obtain ⟨rfl, -⟩ : -1 = r ∧ y.2 = c := Prod.mk.inj (Option.some.inj (Prod.mk.inj h).1)
          omega
        · exact h
    unfold etherProtoInput at hfn
    split_ifs at hfn with harp hip
    · obtain rfl := Option.some.inj hfn
      exact Or.inl ⟨harp, hrun⟩
    · obtain rfl := Option.some.inj hfn
      exact Or.inr ⟨hip, hrun⟩

theorem etherInput_answer {hdr : EtherHdr} (hn : n ≤ 1500) (h : etherInput env hdr b n s = (some (r, c), t))
    (hpos : 0 < r) : Answer hdr.hProto r.toNat c := by
  rcases etherInput_positive h hpos with ⟨hproto, hrun⟩ | ⟨hproto, hrun⟩
  · rw [hproto]
    exact .arp (arpInput_answer hrun hpos).2
  · rw [hproto]
    rcases ipInput_answer hn hrun hpos with hmis | ⟨hecho, -⟩
    · exact .misfit hmis
    · exact .echo hecho

/-! ### The replies to them -/

/-- A reply at its receiver: `ether_receive` has returned its padding and its checksum as well. -/
structure Received (n : ℕ) (c : Buf) (b : Buf) : Prop where
  agree : Agree (max n 56) b (ofBytes (slice c n))

theorem Received.byte {i : ℕ} (h : Received n c b) (hi : i < 56) : b i = c i ∨ b i = 0 := by
  rw [h.agree i (by omega)]
  by_cases hn : i < n
  · left
    rw [ofBytes_of_lt (by rwa [slice_length])]
    simp [slice, hn]
  · right
    exact put_outside (Or.inr (by rw [slice_length]; omega))

theorem Received.data (h : Received n c b) : Agree n b c := fun i hi => by
  rw [h.agree i (by omega), ofBytes_of_lt (by rwa [slice_length])]
  simp [slice, hi]

/-- A packet that does not fit is dropped. -/
theorem Misfit.ignored {hdr : EtherHdr} {d : Buf} (hmis : Misfit n c) (hproto : hdr.hProto = etherProtoIpv4)
    (hb : Received n c b) (h : etherInput env hdr b (receivedSize n) s = (some (r, d), t)) : ¬ 0 < r := by
  intro hpos
  rcases etherInput_positive h hpos with ⟨harp, -⟩ | ⟨-, hrun⟩
  · rw [harp] at hproto
    exact absurd hproto (by decide)
  · have hlen : (hdrOf (some hdr.hSrc) b).ipLen.toNat ≠ receivedSize n := by
      have hload := IpHdr.load_congr hb.data hmis.size
      show (ipNtoh (IpHdr.load b)).ipLen.toNat ≠ _
      rw [hload]
      exact hmis.len
    have hdrop : ipCheck (some hdr.hSrc) (hdrOf (some hdr.hSrc) b) (receivedSize n) s = (some none, s) :=
      ipCheck_dropped fun hacc => hlen hacc.2.2
    rw [ipInput_of_some rfl hdrop] at hrun
    obtain ⟨rfl, -⟩ : 0 = r ∧ _ = d := Prod.mk.inj (Option.some.inj (Prod.mk.inj hrun).1)
    exact absurd hpos (lt_irrefl 0)

/-- **The reply to a reply:** there is one to a full echo reply only, and it does not fit. -/
theorem Answer.answered {n : ℕ} {c d : Buf} {hdr : EtherHdr} (ha : Answer hdr.hProto n c)
    (hb : Received n c b) (h : etherInput env hdr b (receivedSize n) s = (some (r, d), t)) (hpos : 0 < r) :
    hdr.hProto = etherProtoIpv4 ∧ FullEcho n c ∧ Misfit r.toNat d := by
  have hrec : receivedSize n ≤ 1500 := min_le_right _ _
  have hne : etherProtoArp ≠ etherProtoIpv4 := by decide
  generalize hp : hdr.hProto = proto at ha
  cases ha with
  | arp hoper =>
    rcases etherInput_positive h hpos with ⟨-, hrun⟩ | ⟨hproto, -⟩
    · have hreq : swap16 (rd16 b 6) = arpOperRequest := (arpInput_answer hrun hpos).1
      have hbyte : b 7 = 1 := by
        refine byte_of_rd16 (o := 6) (x := swap16 arpOperRequest) ?_
        rw [← hreq, swap16_swap16]
      have hreply : c 7 = 2 := byte_of_rd16 hoper
      rcases hb.byte (show 7 < 56 by decide) with h7 | h7
      · rw [hbyte, hreply] at h7
        cases h7
      · rw [hbyte] at h7
        cases h7
    · exact absurd (hp.symm.trans hproto) hne
  | misfit hmis => exact absurd hpos (hmis.ignored hp hb h)
  | echo hecho =>
    rcases etherInput_positive h hpos with ⟨hproto, -⟩ | ⟨-, hrun⟩
    · exact absurd (hproto.symm.trans hp) hne
    · refine ⟨rfl, hecho, (ipInput_answer hrec hrun hpos).resolve_right ?_⟩
      rintro ⟨-, htype⟩
      have hle := ipHdrHlen_le (IpHdr.load c)
      have hsize := hecho.size
      have hload : IpHdr.load b = IpHdr.load c := IpHdr.load_congr hb.data (by omega)
      have hstart : ipHdrHlen (hdrOf (some hdr.hSrc) b) = ipHdrHlen (IpHdr.load c) := by
        rw [← hload]
        rfl
      rw [hstart, hb.data _ (by omega), hecho.type] at htype
      exact absurd htype (by decide)

/-! ### Chains -/

/-- A daemon in the state in which it gets a frame. -/
structure Host where
  env : Env
  stack : Stack
  rxBuffer : Buf

/-- The replies to a frame, to its reply, and so on: each goes to the next host. -/
def chain : List Host → List UInt8 → List (List UInt8)
  | [], _ => []
  | host :: hosts, frame =>
    match replyTo host.env host.stack host.rxBuffer frame with
    | none => []
    | some reply => reply :: chain hosts reply

variable {rx : Buf} {frame reply : List UInt8}

/-- The run of the daemon behind a reply. -/
theorem replyTo_run (h : replyTo env s rx frame = some reply) : ∃ hdr b n r c t,
    etherReceive s.mac rx etherMaxlen [frame] = some (some (hdr, b, n)) ∧ 0 < n ∧
    etherInput env hdr b n s = (some (r, c), t) ∧ 0 < r ∧
    reply = etherFrame hdr.hSrc t.mac hdr.hProto (slice c r.toNat) := by
  unfold replyTo at h
  rcases hrecv : etherReceive s.mac rx etherMaxlen [frame] with _ | _ | ⟨hdr, b, n⟩
  · rw [hrecv] at h
    cases h
  · rw [hrecv] at h
    cases h
  · rw [hrecv] at h
    dsimp only at h
    split_ifs at h with hn
    rcases hrun : etherInput env hdr b n s with ⟨_ | ⟨r, c⟩, t⟩
    · rw [hrun] at h
      cases h
    · rw [hrun] at h
      dsimp only at h
      split_ifs at h with hr
      exact ⟨hdr, b, n, r, c, t, rfl, hn, hrun, hr, (Option.some.inj h).symm⟩

/-- **A reply** is one of the three kinds of answers. -/
theorem replyTo_answer (h : replyTo env s rx frame = some reply) : ∃ dst src proto n c,
    reply = etherFrame dst src proto (slice c n) ∧ n ≤ 1500 ∧ Answer proto n c := by
  obtain ⟨hdr, b, n, r, c, t, hrecv, -, hrun, hpos, rfl⟩ := replyTo_run h
  have hn : n ≤ 1500 := etherReceive_size hrecv
  have hr : r ≤ (1500 : ℕ) := (etherInput_reply (by decide) hn hrun).le
  exact ⟨_, _, _, _, c, rfl, by omega, etherInput_answer hn hrun hpos⟩

/-- A reply to a frame that another daemon has sent. -/
theorem replyTo_frame {dst src : MacAddr} {proto : UInt16} (hn : n ≤ 1500)
    (h : replyTo env s rx (etherFrame dst src proto (slice c n)) = some reply) : ∃ b r d t, Received n c b ∧
      etherInput env ⟨dst, src, proto⟩ b (receivedSize n) s = (some (r, d), t) ∧ 0 < r ∧ r ≤ (1500 : ℕ) ∧
      reply = etherFrame src t.mac proto (slice d r.toNat) := by
  obtain ⟨hdr, b, m, r, d, t, hrecv, -, hrun, hpos, rfl⟩ := replyTo_run h
  by_cases hmac : src = s.mac
  · rw [hmac, etherReceive_own] at hrecv
    cases hrecv
  · have hdata : (slice c n).length ≤ 1500 := by rwa [slice_length]
    obtain ⟨b', hb', hagree⟩ := etherReceive_padded dst proto rx hdata hmac
    rw [hb', slice_length] at hrecv
    rw [slice_length] at hagree
    obtain ⟨rfl, rfl, rfl⟩ : (⟨dst, src, proto⟩ : EtherHdr) = hdr ∧ b' = b ∧ receivedSize n = m := by
      simpa using hrecv
    have hr : r ≤ (1500 : ℕ) := (etherInput_reply (by decide) (min_le_right _ _) hrun).le
    exact ⟨b', r, d, t, ⟨hagree⟩, hrun, hpos, hr, rfl⟩

theorem Misfit.replyTo_none (h : Misfit n c) (hn : n ≤ 1500) (dst src : MacAddr) :
    replyTo env s rx (etherFrame dst src etherProtoIpv4 (slice c n)) = none := by
  rcases hreply : replyTo env s rx (etherFrame dst src etherProtoIpv4 (slice c n)) with _ | reply
  · rfl
  · obtain ⟨b, r, d, t, hb, hrun, hpos, -, -⟩ := replyTo_frame hn hreply
    exact absurd hpos (h.ignored rfl hb hrun)

/-- **A reply to a reply is not replied to,** whatever the hosts and their states are; and a reply that is
replied to is an ICMP echo reply that fills its frame. -/
theorem chain_length (hosts : List Host) (frame : List UInt8) : (chain hosts frame).length ≤ 2 ∧
    ∀ reply reply', chain hosts frame = [reply, reply'] → reply.length = 1518 ∧
      ∃ dst src n c, reply = etherFrame dst src etherProtoIpv4 (slice c n) ∧ FullEcho n c := by
  rcases hosts with _ | ⟨host, hosts⟩
  · exact ⟨Nat.zero_le _, fun _ _ h => by cases h⟩
  rcases hreply : replyTo host.env host.stack host.rxBuffer frame with _ | reply
  · simp [chain, hreply]
  obtain ⟨dst, src, proto, n, c, rfl, hn, ha⟩ := replyTo_answer hreply
  rcases hosts with _ | ⟨host', hosts⟩
  · simp [chain, hreply]
  rcases hreply' : replyTo host'.env host'.stack host'.rxBuffer (etherFrame dst src proto (slice c n)) with
    _ | reply'
  · simp [chain, hreply, hreply']
  obtain ⟨b, r, d, t, hb, hrun, hpos, hr, rfl⟩ := replyTo_frame hn hreply'
  let hdr : EtherHdr := ⟨dst, src, proto⟩
  have ha : Answer hdr.hProto n c := ha
  obtain ⟨rfl, hecho, hmis⟩ := ha.answered hb hrun hpos
  have hnone : chain hosts (etherFrame src t.mac etherProtoIpv4 (slice d r.toNat)) = [] := by
    rcases hosts with _ | ⟨host'', hosts⟩
    · rfl
    · simp [chain, hmis.replyTo_none (by omega)]
  have hlen : (etherFrame dst src etherProtoIpv4 (slice c n)).length = 1518 := by
    rw [etherFrame_eq, frameTail, slice_length, hecho.size]
    simp [macBytes, slice_length, frameSize, etherHeaderLen, etherFcsLen, etherMinlen]
  have hchain : chain (host :: host' :: hosts) frame =
      [etherFrame dst src etherProtoIpv4 (slice c n), etherFrame src t.mac etherProtoIpv4 (slice d r.toNat)] := by
    simp [chain, hreply, hreply', hnone]
  rw [hchain]
  refine ⟨le_rfl, fun reply reply' h => ?_⟩
  obtain rfl := (List.cons.inj h).1
  exact ⟨hlen, dst, src, n, c, rfl, hecho⟩

end Xstack.Net.Chains
