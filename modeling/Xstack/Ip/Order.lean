import Xstack.Ip.Feed

/-! # Reassembly and the order of arrival

A datagram is cut into two or more non-empty fragments (`IsCut`); the fragments arrive in two orders
`ps`, `qs`, starting in one state with a free, cleared buffer. `ip_fragment_input` sets the recorded
length back to zero when the fragment with offset zero arrives, so an order completes, with its last
fragment, iff the fragment with offset zero comes before the final one (`orderIndependent_iff`).

* `Pieces`: what does not depend on the order, `pieces_of_isCut`, `Pieces.perm`.
* `not_complete_of_missing`: nothing completes while a fragment is missing.
* `recLen_ne_zero_iff`: when the length is known at the end. -/

namespace Xstack.Ip.Order

open Xstack.Config Xstack.Lib.Bytes Xstack.Lib.Lex Xstack.Ip.Header Xstack.Ip.Fragment
open Xstack.Ip.Feed

/-- A non-empty fragment of the datagram `key` at offset `off`. -/
def Piece (key : IpHdr) (off : ℕ) (f : Pkt) : Prop :=
  SameKey f.hdr key ∧ fragOff f.hdr = off ∧ ipHdrHlen f.hdr ≤ f.hdr.ipLen.toNat ∧
    0 < fragSize f.hdr

/-- The fragments cut a datagram from offset `off` on, in this order; the last one has no
`IP_FLAGS_MF`. Offsets are multiples of eight, so all sizes but the last one are. -/
def IsCut (key : IpHdr) : ℕ → List Pkt → Prop
  | _, [] => False
  | off, [f] => Piece key off f ∧ moreFragments f.hdr = false
  | off, f :: g :: fs =>
    Piece key off f ∧ moreFragments f.hdr = true ∧ IsCut key (off + fragSize f.hdr) (g :: fs)

/-- The payload size of the datagram. -/
def total (fs : List Pkt) : ℕ := (fs.map fun f => fragSize f.hdr).sum

/-- The fragment with offset zero comes before the final one. -/
def FirstBeforeLast (ps : List Pkt) : Prop :=
  ∃ a b, ps = a ++ b ∧ (∃ f ∈ a, fragOff f.hdr = 0) ∧ ∃ f ∈ b, moreFragments f.hdr = false

/-- The fragments lead to the completion branch. -/
def Completes (mc : Memcmp) (pool : Pool) (ps : List Pkt) : Prop :=
  ∃ k bytes, feed mc pool ps = some (some (k, bytes))

/-- They do when the last of them arrives, and not before. -/
def CompletesAtEnd (mc : Memcmp) (pool : Pool) (ps : List Pkt) : Prop :=
  ∃ k bytes, k + 1 = ps.length ∧ feed mc pool ps = some (some (k, bytes))

/-- **Independence of the order of arrival.** -/
def OrderIndependent (mc : Memcmp) (pool : Pool) (ps qs : List Pkt) : Prop :=
  (Completes mc pool ps ↔ Completes mc pool qs) ∧ CompletesAtEnd mc pool ps ∧
    CompletesAtEnd mc pool qs

/-! ### What does not depend on the order -/

/-- The ranges of two fragments do not meet. -/
def Apart (f g : Pkt) : Prop :=
  fragOff f.hdr + fragSize f.hdr ≤ fragOff g.hdr ∨ fragOff g.hdr + fragSize g.hdr ≤ fragOff f.hdr

/-- The fragments of a datagram of `n` bytes, from offset `off` on. -/
structure Pieces (key : IpHdr) (off n : ℕ) (ps : List Pkt) : Prop where
  key : ∀ f ∈ ps, SameKey f.hdr key
  hlen : ∀ f ∈ ps, ipHdrHlen f.hdr ≤ f.hdr.ipLen.toNat
  size : ∀ f ∈ ps, 0 < fragSize f.hdr
  start : ∀ f ∈ ps, off ≤ fragOff f.hdr
  bound : ∀ f ∈ ps, fragOff f.hdr + fragSize f.hdr ≤ off + n
  last : ∀ f ∈ ps, moreFragments f.hdr = false ↔ fragOff f.hdr + fragSize f.hdr = off + n
  apart : ps.Pairwise Apart
  cover : ∀ x, off ≤ x → x < off + n → ByteCov ps x

variable {key : IpHdr} {off n : ℕ} {ps qs fs : List Pkt} {p : PacketBuf}

theorem Pieces.perm (h : Pieces key off n ps) (hp : qs.Perm ps) : Pieces key off n qs where
  key f hf := h.key f (hp.mem_iff.mp hf)
  hlen f hf := h.hlen f (hp.mem_iff.mp hf)
  size f hf := h.size f (hp.mem_iff.mp hf)
  start f hf := h.start f (hp.mem_iff.mp hf)
  bound f hf := h.bound f (hp.mem_iff.mp hf)
  last f hf := h.last f (hp.mem_iff.mp hf)
  apart := (hp.pairwise_iff fun {_ _} hab => hab.symm).mpr h.apart
  cover x h1 h2 := by
    obtain ⟨f, hf, hx⟩ := h.cover x h1 h2
    exact ⟨f, hp.mem_iff.mpr hf, hx⟩

theorem pieces_of_isCut : ∀ {fs : List Pkt} {off : ℕ}, IsCut key off fs →
    Pieces key off (total fs) fs
  | [], _, h => absurd h id
  | [f], off, ⟨⟨hk, ho, hl, hs⟩, hm⟩ => by
    have ht : total [f] = fragSize f.hdr := by simp [total]
    constructor
    · simpa using hk
    · simpa using hl
    · simpa using hs
    · simpa using ho.ge
    · simp [ht, ho]
    · simp [ht, ho, hm]
    · exact List.pairwise_singleton _ _
    · intro x h1 h2
      exact ⟨f, List.mem_singleton_self f, by omega, by omega⟩
  | f :: g :: fs, off, ⟨⟨hk, ho, hl, hs⟩, hm, hrest⟩ => by
    have ih := pieces_of_isCut hrest
    have ht : total (f :: g :: fs) = fragSize f.hdr + total (g :: fs) := rfl
    have hg := ih.size g List.mem_cons_self
    have hgs := ih.start g List.mem_cons_self
    have hgb := ih.bound g List.mem_cons_self
    constructor
    · exact List.forall_mem_cons.mpr ⟨hk, ih.key⟩
    · exact List.forall_mem_cons.mpr ⟨hl, ih.hlen⟩
    · exact List.forall_mem_cons.mpr ⟨hs, ih.size⟩
    · refine List.forall_mem_cons.mpr ⟨ho.ge, fun a ha => ?_⟩
      have := ih.start a ha
      omega
    · refine List.forall_mem_cons.mpr ⟨by omega, fun a ha => ?_⟩
      have := ih.bound a ha
      omega
    · refine List.forall_mem_cons.mpr ⟨?_, fun a ha => ?_⟩
      · rw [hm]
        constructor
        · exact fun h => absurd h (by decide)
        · intro h
          omega
      · rw [ih.last a ha, ht, Nat.add_assoc]
    · refine List.pairwise_cons.mpr ⟨fun a ha => Or.inl ?_, ih.apart⟩
      have := ih.start a ha
      omega
    · intro x h1 h2
      by_cases hx : x < off + fragSize f.hdr
      · exact ⟨f, List.mem_cons_self, by omega, by omega⟩
      · obtain ⟨a, ha, hax⟩ := ih.cover x (by omega) (by omega)
        exact ⟨a, List.mem_cons_of_mem f ha, hax⟩

/-! ### The recorded length -/

/-- The fragments of the list do not change the recorded length. -/
theorem foldl_noteLen_of_middle {len : UInt16} (h : ∀ f ∈ ps, fragOff f.hdr ≠ 0 ∧
    moreFragments f.hdr = true) : ps.foldl noteLen len = len := by
  induction ps generalizing len with
  | nil => rfl
  | cons f ps ih =>
    obtain ⟨h1, h2⟩ := h f List.mem_cons_self
    have hf : noteLen len f = len := by simp [noteLen, h1, h2]
    rw [List.foldl_cons, hf, ih fun g hg => h g (List.mem_cons_of_mem f hg)]

/-- Only the total length is ever recorded. -/
theorem recLen_cases (h : ∀ f ∈ ps, moreFragments f.hdr = false →
    fragOff f.hdr + fragSize f.hdr = n) : recLen ps = 0 ∨ recLen ps = UInt16.ofNat n := by
  have hgen : ∀ (ps : List Pkt) (len : UInt16), (∀ f ∈ ps, moreFragments f.hdr = false →
      fragOff f.hdr + fragSize f.hdr = n) → len = 0 ∨ len = UInt16.ofNat n →
      ps.foldl noteLen len = 0 ∨ ps.foldl noteLen len = UInt16.ofNat n := by
    intro ps
    induction ps with
    | nil => exact fun len _ hlen => hlen
    | cons f ps ih =>
      intro len h hlen
      rw [List.foldl_cons]
      refine ih _ (fun g hg => h g (List.mem_cons_of_mem f hg)) ?_
      unfold noteLen
      split_ifs with h0 h1
      · exact Or.inl rfl
      · have := h f List.mem_cons_self (by simpa using h1)
        rw [Nat.add_comm, this]
        exact Or.inr rfl
      · exact hlen
  exact hgen ps 0 h (Or.inl rfl)

theorem toNat_total {n : ℕ} (hn : n ≤ 65515) : (UInt16.ofNat n).toNat = n := by
  rw [UInt16.toNat_ofNat']
  omega

theorem ofNat_total_ne_zero {n : ℕ} (h0 : 0 < n) (hn : n ≤ 65515) : UInt16.ofNat n ≠ 0 := by
  intro h
  have := congrArg UInt16.toNat h
  rw [toNat_total hn] at this
  have hz : (0 : UInt16).toNat = 0 := rfl
  omega

/-- **The length is known at the end iff the order is right.** -/
theorem recLen_ne_zero_iff (hP : Pieces key 0 n ps) (h0 : 0 < n) (hn : n ≤ 65515)
    (h2 : ∀ f ∈ ps, fragOff f.hdr = 0 → moreFragments f.hdr = true) :
    recLen ps ≠ 0 ↔ FirstBeforeLast ps := by
  constructor
  · intro hlen
    obtain ⟨f, hf, h1, -⟩ := hP.cover 0 le_rfl (by omega)
    have h1 : fragOff f.hdr = 0 := by omega
    obtain ⟨a, b, rfl⟩ := List.append_of_mem hf
    have hsplit : recLen (a ++ f :: b) = b.foldl noteLen 0 := by
      unfold recLen
      rw [List.foldl_append, List.foldl_cons, noteLen, if_pos h1]
    refine ⟨a ++ [f], b, by simp, ⟨f, by simp, h1⟩, ?_⟩
    by_contra hb
    refine hlen (hsplit.trans (foldl_noteLen_of_middle fun g hg => ⟨?_, ?_⟩))
    · have hap := (List.pairwise_cons.mp (List.pairwise_append.mp hP.apart).2.1).1 g hg
      have hs1 := hP.size f hf
      have hs2 := hP.size g (by simp [hg])
      unfold Apart at hap
      omega
    · by_contra hm
      exact hb ⟨g, hg, by simpa using hm⟩
  · rintro ⟨a, b, rfl, ⟨f, hf, hf0⟩, ⟨g, hg, hgm⟩⟩
    obtain ⟨b1, b2, rfl⟩ := List.append_of_mem hg
    have hgmem : g ∈ a ++ (b1 ++ g :: b2) := by simp
    have hfmem : f ∈ a ++ (b1 ++ g :: b2) := List.mem_append_left _ hf
    have hglast := (hP.last g hgmem).mp hgm
    have hg0 : fragOff g.hdr ≠ 0 := fun h => by simp [h2 g hgmem h] at hgm
    have hgl : ∀ len, noteLen len g = UInt16.ofNat n := by
      intro len
      unfold noteLen
      rw [if_neg hg0, if_pos (by simp [hgm])]
      congr 1
      omega
    have hrest : ∀ e ∈ b2, fragOff e.hdr ≠ 0 ∧ moreFragments e.hdr = true := by
      intro e he
      have hemem : e ∈ a ++ (b1 ++ g :: b2) := by simp [he]
      have hs1 := hP.size e hemem
      have hs2 := hP.size f hfmem
      have hs3 := hP.size g hgmem
      have hfe := (List.pairwise_append.mp hP.apart).2.2 f hf e (by simp [he])
      have hge := (List.pairwise_cons.mp
        (List.pairwise_append.mp (List.pairwise_append.mp hP.apart).2.1).2.1).1 e he
      unfold Apart at hfe hge
      refine ⟨by omega, ?_⟩
      by_contra hm
      have := (hP.last e hemem).mp (by simpa using hm)
      omega
    have hend : recLen (a ++ (b1 ++ g :: b2)) = UInt16.ofNat n := by
      unfold recLen
      rw [List.foldl_append, List.foldl_append, List.foldl_cons, hgl, foldl_noteLen_of_middle hrest]
    rw [hend]
    exact ofNat_total_ne_zero h0 hn

/-! ### Completion -/

/-- The bits that reassembly uses are clear. -/
def Clear (map : Fragmap) : Prop := ∀ b < fragMax, fragmapTst map b = false

theorem Pieces.fits (hP : Pieces key 0 n ps) (hn : n ≤ 65515) : ∀ f ∈ ps, Fits f.hdr := by
  intro f hf
  have := hP.bound f hf
  refine ⟨hP.hlen f hf, ?_⟩
  unfold ipMaxBytes
  omega

/-- Nothing completes while a fragment is missing. -/
theorem not_complete_of_missing {a b : List Pkt} {g : Pkt} (hP : Pieces key 0 n (a ++ g :: b))
    (hn : n ≤ 65515) (h0 : p.ipHdr.ipLen = 0) (hc : Clear p.fragmap) :
    ¬ (stored p a).complete = true := by
  rw [complete_stored h0]
  rintro ⟨hlen, hcov⟩
  have hg : g ∈ a ++ g :: b := by simp
  have hgb := hP.bound g hg
  have hgs := hP.size g hg
  have hlen' : recLen a = UInt16.ofNat n := by
    refine (recLen_cases fun f hf hm => ?_).resolve_left hlen
    have := (hP.last f (List.mem_append_left _ hf)).mp hm
    omega
  have hbit := hcov (fragOff g.hdr / 8) (by rw [hlen', toNat_total hn]; omega)
  rw [hc _ (by unfold fragMax; omega)] at hbit
  obtain ⟨f, hf, h1, h2⟩ := hbit.resolve_right (by decide)
  have hap := (List.pairwise_append.mp hP.apart).2.2 f hf g List.mem_cons_self
  have hfo := fragOff_eq f.hdr
  have hgo := fragOff_eq g.hdr
  unfold Apart at hap
  omega

theorem complete_of_all (hP : Pieces key 0 n ps) (hn : n ≤ 65515) (h0 : p.ipHdr.ipLen = 0)
    (hlen : recLen ps ≠ 0) : (stored p ps).complete = true := by
  rw [complete_stored h0]
  have hlen' : recLen ps = UInt16.ofNat n := by
    refine (recLen_cases fun f hf hm => ?_).resolve_left hlen
    have := (hP.last f hf).mp hm
    omega
  refine ⟨hlen, fun b hb => Or.inl ?_⟩
  rw [hlen', toNat_total hn] at hb
  obtain ⟨f, hf, h1, h2⟩ := hP.cover (8 * b) (Nat.zero_le _) (by omega)
  have hfo := fragOff_eq f.hdr
  exact ⟨f, hf, by omega, by omega⟩

theorem take_split {k : ℕ} (hk : k + 1 < ps.length) : ∃ g b, ps = ps.take (k + 1) ++ g :: b := by
  obtain ⟨g, b, hgb⟩ := List.exists_cons_of_ne_nil (l := ps.drop (k + 1))
    (List.ne_nil_of_length_pos (by rw [List.length_drop]; omega))
  exact ⟨g, b, by rw [← hgb, List.take_append_drop]⟩

/-- The fragments in any order, in a cleared buffer. -/
theorem bufFeed_pieces (hP : Pieces key 0 n ps) (h0 : 0 < n) (hn : n ≤ 65515)
    (hp : p.ipHdr.ipLen = 0) (hc : Clear p.fragmap) :
    (recLen ps ≠ 0 → ∃ k bytes, k + 1 = ps.length ∧ bufFeed p ps = some (some (k, bytes))) ∧
      (recLen ps = 0 → bufFeed p ps = some none) := by
  have hmiss : ∀ j, j + 1 < ps.length → ¬ (stored p (ps.take (j + 1))).complete = true := by
    intro j hj
    obtain ⟨g, b, hgb⟩ := take_split hj
    exact not_complete_of_missing (hgb ▸ hP) hn hp hc
  obtain ⟨f, hf, -⟩ := hP.cover 0 le_rfl (by omega)
  obtain ⟨k, hk⟩ : ∃ k, k + 1 = ps.length := ⟨ps.length - 1, by
    have := List.length_pos_of_mem hf
    omega⟩
  have hall : ps.take (k + 1) = ps := List.take_of_length_le hk.ge
  constructor
  · intro hlen
    refine ⟨k, _, hk, bufFeed_complete (by omega) ?_ (fun j hj => hmiss j (by omega)) ?_⟩
    · exact fun f hf => hP.fits hn f (List.mem_of_mem_take hf)
    · rw [hall]
      exact complete_of_all hP hn hp hlen
  · intro hlen
    refine bufFeed_never (hP.fits hn) fun j hj => ?_
    by_cases hlast : j + 1 < ps.length
    · exact hmiss j hlast
    · rw [List.take_of_length_le (by omega), complete_stored hp]
      exact fun h => h.1 hlen

section

variable {mc : Memcmp} {pool : Pool} {l : List (Fin 4)} {i : Fin 4}

/-- The same for the pool. -/
theorem completes_spec (hI : pool.Inv l) (hnew : ∀ j ∈ l, ¬ SameKey key (pool.buf j).ipHdr)
    (hfree : pool.firstFree = some i) (hclear : Clear (pool.buf i).fragmap)
    (hP : Pieces key 0 n ps) (h0 : 0 < n) (hn : n ≤ 65515)
    (h2 : ∀ f ∈ ps, fragOff f.hdr = 0 → moreFragments f.hdr = true) :
    (FirstBeforeLast ps → CompletesAtEnd mc pool ps) ∧
      (Completes mc pool ps → FirstBeforeLast ps) := by
  obtain ⟨f, gs, rfl⟩ : ∃ f gs, ps = f :: gs := by
    obtain ⟨f, hf, -⟩ := hP.cover 0 le_rfl (by omega)
    exact List.exists_cons_of_ne_nil (List.ne_nil_of_mem hf)
  have hf := hP.key f List.mem_cons_self
  have hfeed := feed_eq mc hI (fun j hj h => hnew j hj (hf.symm.trans h)) hfree
    (fun g hg => (hP.key g (List.mem_cons_of_mem f hg)).trans hf.symm)
  have hclear' : Clear ((pool.buf i).reserve f.hdr).fragmap := by
    intro b hb
    show fragmapTst (fragmapInit _) b = false
    rw [tst_init, hclear b hb, Bool.and_false]
  obtain ⟨h3, h4⟩ := bufFeed_pieces hP h0 hn (p := (pool.buf i).reserve f.hdr) rfl hclear'
  rw [← hfeed] at h3 h4
  rw [← recLen_ne_zero_iff hP h0 hn h2]
  refine ⟨h3, ?_⟩
  rintro ⟨k, bytes, hc⟩ hlen
  rw [h4 hlen] at hc
  exact absurd hc (by simp)

end

theorem CompletesAtEnd.completes {mc : Memcmp} {pool : Pool} (h : CompletesAtEnd mc pool ps) :
    Completes mc pool ps := by
  obtain ⟨k, bytes, -, h⟩ := h
  exact ⟨k, bytes, h⟩

theorem first_has_more : ∀ {fs : List Pkt}, IsCut key 0 fs → 2 ≤ fs.length →
    ∀ f ∈ fs, fragOff f.hdr = 0 → moreFragments f.hdr = true
  | [], _, h => absurd h (by simp)
  | [_], _, h => absurd h (by simp)
  | f :: g :: fs, ⟨⟨_, _, _, hs⟩, hm, hrest⟩, _ => by
    refine List.forall_mem_cons.mpr ⟨fun _ => hm, fun e he h0 => ?_⟩
    have := (pieces_of_isCut hrest).start e he
    omega

/-- **Reassembly does not depend on the order of arrival iff, in both orders, the fragment with
offset zero comes before the final one.** -/
theorem orderIndependent_iff (mc : Memcmp) (ops : List FragOp) {pool : Pool} {i : Fin 4}
    (hrun : run mc Pool.init ops = some pool) (hfree : pool.firstFree = some i)
    (hclear : Clear (pool.buf i).fragmap)
    (hnew : ∀ j, (pool.buf j).reserved = true → ¬ SameKey key (pool.buf j).ipHdr)
    (hcut : IsCut key 0 fs) (h2 : 2 ≤ fs.length) (hn : total fs ≤ 65515)
    (hp : ps.Perm fs) (hq : qs.Perm fs) :
    OrderIndependent mc pool ps qs ↔ FirstBeforeLast ps ∧ FirstBeforeLast qs := by
  obtain ⟨l, hI⟩ := run_inv inv_init hrun
  have hP := pieces_of_isCut hcut
  have hmore := first_has_more hcut h2
  have h0 : 0 < total fs := by
    obtain ⟨f, gs, rfl⟩ := List.exists_cons_of_ne_nil (l := fs)
      (List.ne_nil_of_length_pos (by omega))
    have h1 := hP.size f List.mem_cons_self
    have h2 := hP.bound f List.mem_cons_self
    omega
  have hspec : ∀ rs : List Pkt, rs.Perm fs → (FirstBeforeLast rs → CompletesAtEnd mc pool rs) ∧
      (Completes mc pool rs → FirstBeforeLast rs) := fun rs hr =>
    completes_spec hI (fun j hj => hnew j ((hI.reserved j).mp hj)) hfree hclear (hP.perm hr) h0 hn
      fun f hf => hmore f (hr.mem_iff.mp hf)
  constructor
  · rintro ⟨-, h3, h4⟩
    exact ⟨(hspec ps hp).2 h3.completes, (hspec qs hq).2 h4.completes⟩
  · rintro ⟨h3, h4⟩
    have h5 := (hspec ps hp).1 h3
    have h6 := (hspec qs hq).1 h4
    exact ⟨iff_of_true h5.completes h6.completes, h5, h6⟩

/-! ### A datagram of nine bytes in two fragments -/

/-- The first eight bytes, with `IP_FLAGS_MF`. -/
def headPkt : Pkt := ⟨⟨0x45, 0, 28, 7, 0x2000, 64, 17, 0, 1, 2⟩, ofBytes [1, 2, 3, 4, 5, 6, 7, 8]⟩

/-- The last byte. -/
def tailPkt : Pkt := ⟨⟨0x45, 0, 21, 7, 1, 64, 17, 0, 1, 2⟩, ofBytes [9]⟩

theorem isCut_two : IsCut headPkt.hdr 0 [headPkt, tailPkt] := by
  refine ⟨⟨?_, ?_, ?_, ?_⟩, ?_, ⟨?_, ?_, ?_, ?_⟩, ?_⟩ <;> decide +kernel

theorem clear_init (i : Fin 4) : Clear (Pool.init.buf i).fragmap := by
  intro b _
  show fragmapTst (fun _ => 0) b = false
  simp [fragmapTst]

/-- The final fragment before the one with offset zero: the datagram is never completed. -/
theorem tail_first_lost : IsCut headPkt.hdr 0 [headPkt, tailPkt] ∧
    [tailPkt, headPkt].Perm [headPkt, tailPkt] ∧ total [headPkt, tailPkt] = 9 ∧
    Clear (Pool.init.buf 0).fragmap ∧
    feed .ofSign .init [headPkt, tailPkt] = some (some (1, [1, 2, 3, 4, 5, 6, 7, 8, 9])) ∧
    feed .ofSign .init [tailPkt, headPkt] = some none ∧
    ¬ OrderIndependent .ofSign .init [headPkt, tailPkt] [tailPkt, headPkt] := by
  have h2 : feed .ofSign .init [tailPkt, headPkt] = some none := by decide +kernel
  refine ⟨isCut_two, List.Perm.swap _ _ _, by decide +kernel, clear_init 0, by decide +kernel, h2, ?_⟩
  rintro ⟨-, -, k, bytes, -, h⟩
  rw [h2] at h
  exact absurd h (by simp)

/-! ### A datagram of 17 bytes in three fragments -/

/-- The bytes from 8 on, with `IP_FLAGS_MF`. -/
def midPkt : Pkt := ⟨⟨0x45, 0, 28, 7, 0x2001, 64, 17, 0, 1, 2⟩, ofBytes [9, 10, 11, 12, 13, 14, 15, 16]⟩

/-- The last byte. -/
def endPkt : Pkt := ⟨⟨0x45, 0, 21, 7, 2, 64, 17, 0, 1, 2⟩, ofBytes [17]⟩

theorem isCut_three : IsCut headPkt.hdr 0 [headPkt, midPkt, endPkt] := by
  refine ⟨⟨?_, ?_, ?_, ?_⟩, ?_, ⟨?_, ?_, ?_, ?_⟩, ?_, ⟨?_, ?_, ?_, ?_⟩, ?_⟩ <;> decide +kernel

/-- The first two may come in any order. -/
theorem orderIndependent_iff_three :
    OrderIndependent .ofSign .init [headPkt, midPkt, endPkt] [midPkt, headPkt, endPkt] := by
  have hfirst : fragOff headPkt.hdr = 0 := by decide +kernel
  have hlast : moreFragments endPkt.hdr = false := by decide +kernel
  refine (orderIndependent_iff .ofSign [] rfl (i := 0) (by decide +kernel) (clear_init 0)
    (fun j h => absurd h (by simp [Pool.init])) isCut_three (by decide) (by decide +kernel)
    (List.Perm.refl _) (List.Perm.swap _ _ _)).mpr ⟨?_, ?_⟩
  · exact ⟨[headPkt], [midPkt, endPkt], rfl, ⟨headPkt, by simp, hfirst⟩, endPkt, by simp, hlast⟩
  · exact ⟨[midPkt, headPkt], [endPkt], rfl, ⟨headPkt, by simp, hfirst⟩, endPkt, by simp, hlast⟩

end Xstack.Ip.Order
