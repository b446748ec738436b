import Mathlib.Tactic

/-! # Ring buffers

A ring of `n` slots is seen through two counters that only grow: `c` slots were filled and `d` of
them emptied again. The program keeps the counters modulo `n` and leaves one slot unused, so that
`d ≤ c < d + n`: then equal indices mean an empty ring, and indices that are equal after one more
step mean a full one. -/

namespace Xstack.Lib.Ring

/-- The counters of a ring of `n` slots. -/
structure Counts (n d c : ℕ) : Prop where
  le : d ≤ c
  lt : c < d + n

variable {n d c k : ℕ}

theorem mod_eq_iff (hd : d ≤ k) (hk : k < d + n) : k % n = d % n ↔ k = d := by
  constructor
  · intro h
    have hdvd : n ∣ k - d := (Nat.modEq_iff_dvd' hd).mp h.symm
    have hzero : k - d = 0 := Nat.eq_zero_of_dvd_of_lt hdvd (by omega)
    omega
  · rintro rfl
    rfl

/-- The test for an empty ring. -/
theorem Counts.empty_iff (h : Counts n d c) : d % n = c % n ↔ d = c := by
  rw [eq_comm, mod_eq_iff h.le h.lt, eq_comm]

theorem Counts.next (c : ℕ) : (c % n + 1) % n = (c + 1) % n := Nat.mod_add_mod c n 1

/-- The test for a full ring. -/
theorem Counts.full_iff (h : Counts n d c) : (c % n + 1) % n = d % n ↔ c + 1 = d + n := by
  have hle := h.le
  have hlt := h.lt
  rw [Counts.next]
  constructor
  · intro heq
    by_contra hne
    have := (mod_eq_iff (show d ≤ c + 1 by omega) (by omega)).mp heq
    omega
  · intro heq
    rw [heq, Nat.add_mod_right]

/-- A slot that is filled and one that is free, or two filled ones, are different. -/
theorem slot_ne {i j : ℕ} (hij : i < j) (hj : j < i + n) : i % n ≠ j % n := by
  intro h
  have := (mod_eq_iff hij.le hj).mp h.symm
  omega

/-! ### The filled slots -/

/-- The filled slots, the oldest first. -/
def slots (n d c : ℕ) : List ℕ := (List.range' d (c - d)).map (· % n)

@[simp] theorem length_slots (n d c : ℕ) : (slots n d c).length = c - d := by
  rw [slots, List.length_map, List.length_range']

@[simp] theorem slots_self (n d : ℕ) : slots n d d = [] := by
  rw [slots, Nat.sub_self]
  rfl

theorem slots_cons (h : d < c) : slots n d c = d % n :: slots n (d + 1) c := by
  obtain ⟨k, rfl⟩ := Nat.exists_eq_add_of_lt h
  have h1 : d + k + 1 - d = k + 1 := by omega
  have h2 : d + k + 1 - (d + 1) = k := by omega
  rw [slots, slots, h1, h2, List.range'_succ, List.map_cons]

/-- One more slot is filled. -/
theorem slots_snoc (h : d ≤ c) : slots n d (c + 1) = slots n d c ++ [c % n] := by
  have h1 : c + 1 - d = c - d + 1 := by omega
  have h2 : d + (c - d) = c := by omega
  rw [slots, slots, h1, List.range'_1_concat, h2, List.map_append, List.map_singleton]

/-- The oldest slots are emptied. -/
theorem slots_drop (n d c k : ℕ) : (slots n d c).drop k = slots n (d + k) c := by
  rw [slots, slots, ← List.map_drop, List.drop_range', Nat.mul_one, Nat.sub_sub]

/-- The next slot is a free one. -/
theorem Counts.free (h : Counts n d c) : c % n ∉ slots n d c := by
  have hlt := h.lt
  intro hmem
  obtain ⟨i, hi, heq⟩ := List.mem_map.mp hmem
  rw [List.mem_range'_1] at hi
  exact slot_ne (show i < c by omega) (by omega) heq

/-- How many slots are filled, from the indices. -/
theorem Counts.length_eq (h : Counts n d c) : (c % n + n - d % n) % n = c - d := by
  obtain ⟨e, rfl⟩ := Nat.exists_eq_add_of_le h.le
  have he : e < n := by
    have := h.lt
    omega
  have hd := Nat.mod_lt d (show 0 < n by omega)
  rw [Nat.add_sub_cancel_left, ← Nat.mod_add_mod d n e]
  by_cases hwrap : d % n + e < n
  · rw [Nat.mod_eq_of_lt hwrap, show d % n + e + n - d % n = e + n by omega, Nat.add_mod_right,
      Nat.mod_eq_of_lt he]
  · have hmod : (d % n + e) % n = d % n + e - n := by
      rw [Nat.mod_eq_sub_mod (by omega), Nat.mod_eq_of_lt (by omega)]
    rw [hmod, show d % n + e - n + n - d % n = e by omega, Nat.mod_eq_of_lt he]

/-- The filled slots, from the indices. -/
theorem slots_mod (n d k : ℕ) : slots n (d % n) (d % n + k) = slots n d (d + k) := by
  rw [slots, slots, Nat.add_sub_cancel_left, Nat.add_sub_cancel_left, List.range'_eq_map_range,
    List.range'_eq_map_range, List.map_map, List.map_map]
  refine List.map_congr_left fun i _ => ?_
  exact Nat.mod_add_mod d n i

/-- Different slots of `b` bytes do not overlap. -/
theorem slot_disjoint {i j : ℕ} (h : i ≠ j) (b : ℕ) : i * b + b ≤ j * b ∨ j * b + b ≤ i * b := by
  rcases Nat.lt_or_gt_of_ne h with h | h
  · left
    calc i * b + b = (i + 1) * b := by ring
      _ ≤ j * b := Nat.mul_le_mul_right b h
  · right
    calc j * b + b = (j + 1) * b := by ring
      _ ≤ i * b := Nat.mul_le_mul_right b h

/-- What a queue holds after one element has joined it at its end. -/
theorem getElem?_snoc {α : Type*} {l : List α} {a b : α} (h : (l ++ [a])[k]? = some b) :
    k < l.length ∧ l[k]? = some b ∨ k = l.length ∧ b = a := by
  by_cases hk : k < l.length
  · rw [List.getElem?_append_left hk] at h
    exact Or.inl ⟨hk, h⟩
  · obtain ⟨hlt, -⟩ := List.getElem?_eq_some_iff.mp h
    rw [List.length_append, List.length_singleton] at hlt
    obtain rfl : k = l.length := by omega
    rw [List.getElem?_concat_length] at h
    exact Or.inr ⟨rfl, (Option.some.inj h).symm⟩

end Xstack.Lib.Ring
