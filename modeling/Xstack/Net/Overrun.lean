import Xstack.Ip.Feed
import Xstack.Net.Input

/-! # Where a fragment is stored

The sizes with which `ip_fragment_input` works are differences of a 16-bit length and a header
length, as `size_t`; its only test is one of the offset. `contained_iff`: what it writes stays in the
packet buffer iff there is no buffer for the fragment, or the fragment ends within the largest
datagram and its header is not longer than itself. -/

namespace Xstack.Net.Overrun

open Xstack.Config Xstack.Lib.Bytes Xstack.Lib.Lex Xstack.Ip.Header Xstack.Ip.Fragment
open Xstack.Ip.Feed Xstack.Net.Input

/-- `ip_hdr->ip_len - ip_hdr_hlen(ip_hdr)`, which wraps around. -/
def copySize (ip : IpHdr) : ℕ := sub64 ip.ipLen.toNat (ipHdrHlen ip)

/-- The number of bits that the loop over `fragmap` sets. -/
def bitCount (ip : IpHdr) : ℕ := ((copySize ip + 7) % 2 ^ 64) >>> 3

/-- The fragment makes `ip_fragment_input` store a length. -/
def IsLast (ip : IpHdr) : Prop := fragOff ip ≠ 0 ∧ moreFragments ip = false

/-- **What is written for a fragment is in its buffer:** the payload, the bits, and the length. -/
structure Inside (ip : IpHdr) : Prop where
  payload : fragOff ip + copySize ip ≤ ipMaxBytes
  bits : ∀ i, fragOff ip >>> 3 ≤ i → i < fragOff ip >>> 3 + bitCount ip → i < fragMax
  length : IsLast ip →
    (UInt16.ofNat (copySize ip + fragOff ip)).toNat = fragOff ip + copySize ip

/-- `ip_fragment_input` rejects the fragment before it writes anything. -/
def Rejected (mc : Memcmp) (pool : Pool) (ip : IpHdr) : Prop :=
  fragOff ip > ipMaxBytes ∨ ∃ pool', pool.getPacketBuffer mc ip = some (none, pool')

/-- No packet buffer is free, and none is the one of the datagram. -/
def NoBuffer (pool : Pool) (ip : IpHdr) : Prop :=
  ∀ i, (pool.buf i).reserved = true ∧ ¬ SameKey ip (pool.buf i).ipHdr

variable {mc : Memcmp} {pool : Pool} {ip : IpHdr} {l : List (Fin 4)}

theorem inside_iff_fits : Inside ip ↔ Fits ip := by
  have hlen := ip.ipLen.toNat_lt
  have hhlen := ipHdrHlen_le ip
  have hmax : ipMaxBytes = 65535 := rfl
  constructor
  · intro h
    -- a difference that has wrapped around is too large by far
    have hpay := h.payload
    unfold copySize sub64 at hpay
    unfold Fits fragSize
    omega
  · rintro ⟨h1, h2⟩
    have hsize : copySize ip = fragSize ip := sub64_of_le h1 (by omega)
    have hoff := fragOff_eq ip
    refine ⟨by omega, fun i _ hi => ?_, fun _ => ?_⟩
    · unfold bitCount at hi
      rw [shiftRight_three, shiftRight_three, Nat.mod_eq_of_lt (by omega)] at hi
      unfold fragMax
      omega
    · rw [UInt16.toNat_ofNat', Nat.mod_eq_of_lt (by omega)]
      omega

theorem rejected_iff (hI : pool.Inv l) : Rejected mc pool ip ↔ NoBuffer pool ip := by
  have hoff := fragOff_le_max ip
  by_cases hk : ∃ i ∈ l, SameKey ip (pool.buf i).ipHdr
  · obtain ⟨i, hi, hk⟩ := hk
    constructor
    · rintro (h | ⟨pool', h⟩)
      · exact absurd h hoff
      · rw [getPacketBuffer_linked mc hI hi hk] at h
        cases h
    · intro h
      exact absurd hk (h i).2
  · push Not at hk
    cases hf : pool.firstFree with
    | some i =>
      constructor
      · rintro (h | ⟨pool', h⟩)
        · exact absurd h hoff
        · obtain ⟨head, -, hget, -⟩ := getPacketBuffer_reserve mc hI hk hf
          rw [hget] at h
          cases h
      · intro h
        have := firstFree_spec hf
        rw [(h i).1] at this
        cases this
    | none =>
      have hres : ∀ i, (pool.buf i).reserved = true := by
        intro i
        have := List.find?_eq_none.mp hf i (List.mem_finRange i)
        simpa using this
      constructor
      · exact fun _ i => ⟨hres i, hk i ((hI.reserved i).mpr (hres i))⟩
      · exact fun _ => Or.inr ⟨pool, getPacketBuffer_full mc hI hk hf⟩

/-- **No fragment is stored outside its buffer:** it is rejected, or all that is written is inside. -/
def Contained (mc : Memcmp) (pool : Pool) (ip : IpHdr) : Prop := Rejected mc pool ip ∨ Inside ip

/-- **A fragment is contained iff** there is no buffer for it, or its header is not longer than itself
and it ends within the largest datagram. -/
theorem contained_iff {ops : List FragOp} (hrun : run mc Pool.init ops = some pool) (ip : IpHdr) :
    Contained mc pool ip ↔ NoBuffer pool ip ∨
      (ipHdrHlen ip ≤ ip.ipLen.toNat ∧ fragOff ip + ip.ipLen.toNat ≤ ipMaxBytes + ipHdrHlen ip) := by
  obtain ⟨l, hI⟩ := run_inv inv_init hrun
  unfold Contained
  rw [rejected_iff hI, inside_iff_fits]
  unfold Fits fragSize
  constructor
  · rintro (h | h)
    · exact Or.inl h
    · exact Or.inr (by omega)
  · rintro (h | h)
    · exact Or.inl h
    · exact Or.inr (by omega)

/-- The last fragment of the largest datagram. -/
def lastOfLargest : IpHdr := ⟨0x45, 0, 27, 7, 8191, 64, 17, 0, 0x0a000005, 0x0a000002⟩

theorem contained_iff_largest : Contained .ofSign Pool.init lastOfLargest := by
  have hrun : run .ofSign Pool.init [] = some Pool.init := rfl
  exact (contained_iff hrun lastOfLargest).mpr (Or.inr (by decide))

/-- One byte more. -/
theorem byte_outside : (ipAccepts { lastOfLargest with ipLen := 28 } 28 ∧
      ipFragmentIsFrag { lastOfLargest with ipLen := 28 }) ∧
    ¬ Contained .ofSign Pool.init { lastOfLargest with ipLen := 28 } := by
  refine ⟨by decide, ?_⟩
  unfold Contained
  rw [rejected_iff inv_init, inside_iff_fits]
  rintro (h | h)
  · exact Bool.false_ne_true (h 0).1
  · exact absurd h (by decide)

end Xstack.Net.Overrun
