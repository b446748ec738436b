import Mathlib.Data.Set.Card
import Mathlib.Data.Set.Finite.Basic

/-! # Items collected by key in a bounded table

The table has one item for each key that it knows, and room for a fixed number of them. An event goes to
the item of its key, which is new if the key is not known, and may finish it; an event with a new key is
refused by a full table. Time passes for all items.

`Collector.isolated`: what the events of one key come to does not depend on the other keys, as long as
none of them is refused. -/

namespace Xstack.Lib.Collect

/-- Items `δ` for keys `κ` that take events `ε` with results `ο`, while time `τ` passes. -/
structure Collector (κ ε τ δ ο : Type*) where
  capacity : ℕ
  key : ε → κ
  /-- An item before its first event. -/
  start : δ
  /-- The item after an event, unless it is finished. -/
  add : δ → ε → Option δ × ο
  /-- The item after some time, unless it is given up. -/
  age : τ → δ → Option δ

/-- Something that happens to the table. -/
inductive Input (ε τ : Type*)
  | event (e : ε)
  | tick (t : τ)

namespace Collector

variable {κ ε τ δ ο : Type*} [DecidableEq κ] (c : Collector κ ε τ δ ο)

/-- No more items fit. -/
def Full (m : κ → Option δ) : Prop := c.capacity ≤ Set.ncard {k | (m k).isSome}

open Classical in
/-- One step, with the key and the result of an event; there is no result if it is refused. -/
noncomputable def step (m : κ → Option δ) : Input ε τ → Option (κ × Option ο) × (κ → Option δ)
  | .event e =>
    if (m (c.key e)).isNone ∧ c.Full m then (some (c.key e, none), m)
    else
      let x := c.add ((m (c.key e)).getD c.start) e
      (some (c.key e, some x.2), Function.update m (c.key e) x.1)
  | .tick t => (none, fun k => (m k).bind (c.age t))

/-- The results of a list of inputs, and the table after them. -/
noncomputable def run (m : κ → Option δ) : List (Input ε τ) → List (κ × Option ο) × (κ → Option δ)
  | [] => ([], m)
  | x :: xs => ((c.step m x).1.toList ++ (run (c.step m x).2 xs).1, (run (c.step m x).2 xs).2)

/-- The input is about the key. -/
def Concerns (k : κ) : Input ε τ → Bool
  | .event e => c.key e = k
  | .tick _ => true

/-- The results for a key. -/
def about (k : κ) (os : List (κ × Option ο)) : List (κ × Option ο) := os.filter fun o => o.1 = k

/-- The second table has the item of one key only. -/
structure Alone (k : κ) (m m' : κ → Option δ) : Prop where
  same : m' k = m k
  none : ∀ j, j ≠ k → m' j = none

variable {c} {m m' : κ → Option δ} {k : κ}

theorem step_refused {e : ε} (h : (m (c.key e)).isNone ∧ c.Full m) :
    c.step m (.event e : Input ε τ) = (some (c.key e, none), m) := if_pos h

theorem step_taken {e : ε} (h : ¬ ((m (c.key e)).isNone ∧ c.Full m)) : c.step m (.event e : Input ε τ) =
    (some (c.key e, some (c.add ((m (c.key e)).getD c.start) e).2),
      Function.update m (c.key e) (c.add ((m (c.key e)).getD c.start) e).1) := if_neg h

theorem run_append : ∀ (xs ys : List (Input ε τ)) {m : κ → Option δ}, c.run m (xs ++ ys) =
    ((c.run m xs).1 ++ (c.run (c.run m xs).2 ys).1, (c.run (c.run m xs).2 ys).2)
  | [], _, _ => rfl
  | x :: xs, ys, m => by
    simp only [List.cons_append, run, run_append xs ys, List.append_assoc]

/-- A table with one key at most takes all events of this key. -/
theorem Alone.room (h : Alone k m m') (hcap : 0 < c.capacity) : ¬ ((m' k).isNone ∧ c.Full m') := by
  rintro ⟨hnone, hfull⟩
  have hempty : {j | (m' j).isSome} = ∅ := by
    ext j
    by_cases hj : j = k
    · simpa [hj] using hnone
    · simp [h.none j hj]
  unfold Full at hfull
  rw [hempty, Set.ncard_empty] at hfull
  omega

theorem step_concerned (hcap : 0 < c.capacity) (h : Alone k m m') {x : Input ε τ} (hx : c.Concerns k x)
    (hno : (k, none) ∉ (c.step m x).1.toList) : (c.step m' x).1 = (c.step m x).1 ∧
      about k (c.step m x).1.toList = (c.step m x).1.toList ∧ Alone k (c.step m x).2 (c.step m' x).2 := by
  cases x with
  | tick t =>
    refine ⟨rfl, rfl, congrArg (Option.bind · (c.age t)) h.same, fun j hj => ?_⟩
    show (m' j).bind (c.age t) = none
    rw [h.none j hj]
    rfl
  | event e =>
    obtain rfl : c.key e = k := by simpa [Concerns] using hx
    have hroom : ¬ ((m (c.key e)).isNone ∧ c.Full m) := fun hfull => by
      rw [step_refused hfull] at hno
      exact hno (by simp)
    rw [step_taken hroom, step_taken (h.room hcap), h.same]
    refine ⟨rfl, by simp [about], ?_, fun j hj => ?_⟩
    · dsimp only
      rw [Function.update_self, Function.update_self]
    · exact (Function.update_of_ne hj _ _).trans (h.none j hj)

theorem step_other {x : Input ε τ} (hx : ¬ c.Concerns k x) :
    about k (c.step m x).1.toList = [] ∧ (c.step m x).2 k = m k := by
  cases x with
  | tick t => exact absurd rfl hx
  | event e =>
    have hne : c.key e ≠ k := by simpa [Concerns] using hx
    by_cases hfull : (m (c.key e)).isNone ∧ c.Full m
    · rw [step_refused hfull]
      exact ⟨by simp [about, hne], rfl⟩
    · rw [step_taken hfull]
      exact ⟨by simp [about, hne], Function.update_of_ne hne.symm _ _⟩

/-- **The results of the events of one key,** none of which is refused, are those of these events alone. -/
theorem isolated (hcap : 0 < c.capacity) : ∀ (xs : List (Input ε τ)) {m m' : κ → Option δ}, Alone k m m' →
    (k, none) ∉ (c.run m xs).1 →
      (c.run m' (xs.filter (c.Concerns k))).1 = about k (c.run m xs).1 ∧
        (c.run m' (xs.filter (c.Concerns k))).2 k = (c.run m xs).2 k
  | [], _, _, h, _ => ⟨rfl, h.same⟩
  | x :: xs, m, m', h, hno => by
    rw [run, List.mem_append, not_or] at hno
    have hsplit : about k (c.run m (x :: xs)).1 =
        about k (c.step m x).1.toList ++ about k (c.run (c.step m x).2 xs).1 := List.filter_append _ _
    rw [hsplit]
    by_cases hx : c.Concerns k x
    · obtain ⟨h1, h2, h3⟩ := step_concerned hcap h hx hno.1
      obtain ⟨h4, h5⟩ := isolated hcap xs h3 hno.2
      rw [List.filter_cons_of_pos hx]
      refine ⟨?_, h5⟩
      rw [run, h1, h2, h4]
    · obtain ⟨h1, h2⟩ := step_other (m := m) hx
      rw [List.filter_cons_of_neg hx, h1, List.nil_append]
      exact isolated hcap xs ⟨h.same.trans h2.symm, h.none⟩ hno.2

end Collector

end Xstack.Lib.Collect
