import Mathlib.Logic.Function.Basic

/-! # Parties on a shared medium

Each party has a state of its own, and the messages it has sent so far. In a step one party receives
messages that some party has sent; they may be lost, doubled, or come late and in another order
(`Medium.Reachable`). What every party keeps when all messages are good, and what makes its own messages
good, holds of all parties in every reachable state (`Medium.Reachable.holds`). -/

namespace Xstack.Lib.Parties

/-- Parties `ι` with states `σ` that take steps `τ` and send messages `μ`. -/
structure Medium (ι σ τ μ : Type*) where
  init : ι → σ
  next : ι → σ → τ → σ
  /-- The messages that a step receives. -/
  takes : τ → List μ
  sent : σ → List μ

variable {ι σ τ μ : Type*} [DecidableEq ι] {M : Medium ι σ τ μ} {w : ι → σ}

/-- Every message that a step receives has been sent. -/
def Medium.Carries (M : Medium ι σ τ μ) (w : ι → σ) (turn : τ) : Prop :=
  ∀ m ∈ M.takes turn, ∃ j, m ∈ M.sent (w j)

/-- **The states that the parties can get into.** -/
inductive Medium.Reachable (M : Medium ι σ τ μ) : (ι → σ) → Prop
  | init : M.Reachable M.init
  | step {w : ι → σ} (hw : M.Reachable w) (i : ι) (turn : τ) (hturn : M.Carries w turn) :
      M.Reachable (Function.update w i (M.next i (w i) turn))

/-- **What all parties keep with each other's help.** -/
theorem Medium.Reachable.holds (hw : M.Reachable w) {I : ι → σ → Prop} {G : μ → Prop}
    (hinit : ∀ i, I i (M.init i)) (hsent : ∀ i s, I i s → ∀ m ∈ M.sent s, G m)
    (hnext : ∀ i s turn, I i s → (∀ m ∈ M.takes turn, G m) → I i (M.next i s turn)) (i : ι) :
    I i (w i) := by
  induction hw generalizing i with
  | init => exact hinit i
  | @step w hw k turn hturn ih =>
    have hgood : ∀ m ∈ M.takes turn, G m := fun m hm => by
      obtain ⟨j, hj⟩ := hturn m hm
      exact hsent j (w j) (ih j) m hj
    by_cases hi : i = k
    · subst hi
      rw [Function.update_self]
      exact hnext i (w i) turn (ih i) hgood
    · rw [Function.update_of_ne hi]
      exact ih i

end Xstack.Lib.Parties
