import Mathlib.Tactic

/-! # `memcmp`

`lexCmp` compares byte strings at the first byte where they differ. The standard promises only that
`memcmp` has its sign, so programs are given any function that has: a `Memcmp`.

For strings of one length the order is that of the numbers they are the big-endian digits of
(`Memcmp.lt_iff`, `Memcmp.eq_iff`), and a string is determined by its number (`beNum_inj`). -/

namespace Xstack.Lib.Lex

/-- The sign of the first difference. -/
def lexCmp : List UInt8 → List UInt8 → ℤ
  | x :: a, y :: b => if x < y then -1 else if y < x then 1 else lexCmp a b
  | _, _ => 0

/-- A function with the documented behaviour of `memcmp`. -/
structure Memcmp where
  fn : List UInt8 → List UInt8 → ℤ
  sign_fn : ∀ a b, (fn a b).sign = lexCmp a b

/-- The function that returns the sign itself. -/
def Memcmp.ofSign : Memcmp where
  fn := lexCmp
  sign_fn a b := by
    fun_induction lexCmp a b with
    | case1 => rfl
    | case2 => rfl
    | case3 x a y b _ _ ih => exact ih
    | case4 => rfl

/-- The number with the given big-endian digits. -/
def beNum : List UInt8 → ℕ
  | [] => 0
  | x :: l => x.toNat * 256 ^ l.length + beNum l

theorem beNum_lt : ∀ l : List UInt8, beNum l < 256 ^ l.length
  | [] => by simp [beNum]
  | x :: l => by
    have h1 := beNum_lt l
    have h2 := x.toNat_lt
    have h3 : (x.toNat + 1) * 256 ^ l.length ≤ 256 * 256 ^ l.length :=
      Nat.mul_le_mul_right _ (by omega)
    rw [beNum, List.length_cons, pow_succ, mul_comm (256 ^ l.length)]
    linarith

/-- The first digit decides. -/
theorem beNum_cons_lt {x y : UInt8} {a b : List UInt8} (hl : a.length = b.length) (h : x < y) :
    beNum (x :: a) < beNum (y :: b) := by
  have h1 := beNum_lt a
  have h2 : (x.toNat + 1) * 256 ^ a.length ≤ y.toNat * 256 ^ a.length :=
    Nat.mul_le_mul_right _ (UInt8.lt_iff_toNat_lt.mp h)
  simp only [beNum, ← hl]
  linarith

theorem byte_cases (x y : UInt8) : x < y ∨ x = y ∨ y < x := by
  rcases Nat.lt_trichotomy x.toNat y.toNat with h | h | h
  · exact Or.inl (UInt8.lt_iff_toNat_lt.mpr h)
  · exact Or.inr (Or.inl (UInt8.toNat_inj.mp h))
  · exact Or.inr (Or.inr (UInt8.lt_iff_toNat_lt.mpr h))

theorem lexCmp_spec : ∀ {a b : List UInt8}, a.length = b.length →
    (lexCmp a b < 0 ↔ beNum a < beNum b) ∧ (lexCmp a b = 0 ↔ beNum a = beNum b)
  | [], [], _ => by simp [lexCmp]
  | x :: a, y :: b, hc => by
    have hl : a.length = b.length := by simpa using hc
    unfold lexCmp
    rcases byte_cases x y with h | rfl | h
    · have := beNum_cons_lt hl h
      rw [if_pos h]
      omega
    · have ih := lexCmp_spec hl
      rw [if_neg (UInt8.lt_irrefl x), if_neg (UInt8.lt_irrefl x)]
      rw [beNum, beNum, hl]
      omega
    · have := beNum_cons_lt hl.symm h
      rw [if_neg (UInt8.lt_asymm h), if_pos h]
      omega

theorem beNum_inj : ∀ {a b : List UInt8}, a.length = b.length → beNum a = beNum b → a = b
  | [], [], _, _ => rfl
  | x :: a, y :: b, hc, h => by
    have hl : a.length = b.length := by simpa using hc
    rcases byte_cases x y with hx | rfl | hx
    · exact absurd h (beNum_cons_lt hl hx).ne
    · rw [beNum, beNum, hl] at h
      rw [beNum_inj hl (by omega)]
    · exact absurd h (beNum_cons_lt hl.symm hx).ne'

variable (mc : Memcmp) {a b : List UInt8}

theorem Memcmp.lt_iff (hl : a.length = b.length) : mc.fn a b < 0 ↔ beNum a < beNum b := by
  rw [← (lexCmp_spec hl).1, ← mc.sign_fn]
  exact Int.sign_neg_iff.symm

theorem Memcmp.eq_iff (hl : a.length = b.length) : mc.fn a b = 0 ↔ beNum a = beNum b := by
  rw [← (lexCmp_spec hl).2, ← mc.sign_fn]
  exact Int.sign_eq_zero_iff_zero.symm

theorem Memcmp.gt_iff (hl : a.length = b.length) : 0 < mc.fn a b ↔ beNum b < beNum a := by
  have h1 := mc.lt_iff hl
  have h2 := mc.eq_iff hl
  omega

end Xstack.Lib.Lex
