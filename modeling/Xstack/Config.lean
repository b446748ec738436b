import Mathlib.Tactic

/-! # Constants and address types

The constants are those of `config.h` and of the headers of the protocols. Addresses are words of
the machine; `errno` values are the numbers of Linux. -/

namespace Xstack.Config

/-- `in_addr_t`. -/
abbrev InAddr := UInt32

/-- `mac_addr_t`. -/
abbrev MacAddr := Fin 6 → UInt8

def xstackDatagramSizeMax : ℕ := 4096
def xstackDatagramBufSize : ℕ := 16384
def xstackPeriodicEventSec : ℤ := 10
abbrev xstackArpCacheSize : ℕ := 50
abbrev xstackIpRibSize : ℕ := 5
abbrev xstackIpDeferMax : ℕ := 20

instance : NeZero xstackIpDeferMax := ⟨by decide⟩
def xstackIpFragmentTlb : ℤ := 15

/-- `INT_MAX`. -/
def intMax : ℤ := 2 ^ 31 - 1

def ENOENT : ℤ := 2
def ENOMEM : ℤ := 12
def ENODEV : ℤ := 19
def EINVAL : ℤ := 22
def ENOMSG : ℤ := 42
def EBADMSG : ℤ := 74
def ENOTSOCK : ℤ := 88
def EMSGSIZE : ℤ := 90
def EPROTOTYPE : ℤ := 91
def EPROTONOSUPPORT : ℤ := 93
def EADDRINUSE : ℤ := 98
def ENOBUFS : ℤ := 105
def EHOSTUNREACH : ℤ := 113
def EALREADY : ℤ := 114

/-- The conversion of a value to `int`. -/
def wrapInt (x : ℤ) : ℤ := Int.bmod x (2 ^ 32)

theorem wrapInt_of_range {x : ℤ} (h0 : -intMax - 1 ≤ x) (h : x ≤ intMax) : wrapInt x = x := by
  unfold intMax at h0 h
  exact Int.bmod_eq_of_le (by omega) (by omega)

theorem wrapInt_of_le {x : ℤ} (h0 : 0 ≤ x) (h : x ≤ intMax) : wrapInt x = x :=
  wrapInt_of_range (by unfold intMax; omega) h

theorem wrapInt_le (x : ℤ) : wrapInt x ≤ intMax := by
  have h := Int.bmod_le (x := x) (m := 2 ^ 32) (by decide)
  unfold wrapInt intMax
  omega

theorem wrapInt_emod (x : ℤ) : wrapInt x % 2 ^ 32 = x % 2 ^ 32 := Int.bmod_emod

/-- The difference of two addresses as the comparison functions of the trees return it: a
difference of unsigned words, read as an `int`. -/
def addrCmp (a b : InAddr) : ℤ := (a - b).toBitVec.toInt

theorem addrCmp_eq_zero {a b : InAddr} : addrCmp a b = 0 ↔ a = b := by
  unfold addrCmp
  constructor
  · intro h
    have h0 : (a - b).toBitVec = 0 := BitVec.eq_of_toInt_eq (by simpa using h)
    have h1 : a - b = 0 := UInt32.toBitVec_inj.mp h0
    have h2 := UInt32.sub_add_cancel a b
    rw [h1, UInt32.zero_add] at h2
    exact h2.symm
  · rintro rfl
    simp

end Xstack.Config
