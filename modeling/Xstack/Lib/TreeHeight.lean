import Xstack.Lib.TreeShape

/-! # The height of a balanced tree

With `n` black nodes on every path a tree has at least `2 ^ n - 1` nodes, and no path is more than twice
as long. So the height of a tree with `m` nodes is at most `2 * Nat.log 2 (m + 1)` (`Good.height_le`). -/

namespace Xstack.Lib.TreeHeight

open Xstack.Lib.TreeShape Xstack.Lib.TreeShape.Shape

variable {ι : Type}

/-- The nodes on the longest path. -/
def height : Shape ι → ℕ
  | .nil => 0
  | .node _ l _ r => max (height l) (height r) + 1

/-- Only every second node of a path is red. -/
theorem height_le {t : Shape ι} {n : ℕ} (h : Bal t n) :
    height t ≤ 2 * n + if t.color = .red then 1 else 0 := by
  induction h with
  | nil => exact Nat.zero_le _
  | black hl hr ihl ihr =>
    simp only [height, color]
    split_ifs at ihl ihr ⊢ <;> omega
  | red hl hr hcl hcr ihl ihr =>
    rw [hcl] at ihl
    rw [hcr] at ihr
    simp only [height, color, reduceCtorEq, if_false, if_true] at ihl ihr ⊢
    omega

theorem two_pow_le {t : Shape ι} {n : ℕ} (h : Bal t n) : 2 ^ n ≤ t.toList.length + 1 := by
  induction h with
  | nil => exact le_rfl
  | black hl hr ihl ihr =>
    rw [pow_succ]
    simp only [toList, List.length_append, List.length_cons]
    omega
  | red hl hr hcl hcr ihl ihr =>
    simp only [toList, List.length_append, List.length_cons]
    omega

/-- **The height is logarithmic.** -/
theorem good_height_le {t : Shape ι} (h : Good t) : height t ≤ 2 * Nat.log 2 (t.toList.length + 1) := by
  obtain ⟨hc, n, hb⟩ := h
  have hlog : n ≤ Nat.log 2 (t.toList.length + 1) :=
    Nat.le_log_of_pow_le Nat.one_lt_two (two_pow_le hb)
  have hle := height_le hb
  rw [hc] at hle
  simp only [reduceCtorEq, if_false] at hle
  omega

/-- The path to a hole, and a path below it. -/
theorem length_add_height_le : ∀ (C : Ctx ι) (t : Shape ι), C.length + height t ≤ height (plug C t)
  | [], t => by simp
  | f :: C, t => by
    have ih := length_add_height_le C (mk f.d f.c t f.x f.sib)
    have hmk : height t + 1 ≤ height (mk f.d f.c t f.x f.sib) := by
      cases f.d
      · exact Nat.succ_le_succ (le_max_left _ _)
      · exact Nat.succ_le_succ (le_max_right _ _)
    rw [plug_cons, List.length_cons]
    omega

end Xstack.Lib.TreeHeight
