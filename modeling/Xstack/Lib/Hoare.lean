import Xstack.Lib.Program

/-! # Invariants and returned values

`Ensures I x P`: all runs of the program `x` keep the invariant `I` of the state, those without a result
too, and what `x` returns has the property `P`. The rules follow the constructs of a program; a property
of a value is at hand in the rest of the program (`Ensures.bind`).

`Costs I f n x`: from a state with the invariant, a run of `x` adds at most `n` to the measure `f`. The
costs of a sequence are added up (`Costs.bind`).

`Returns R x`: the runs of `x` that return take the state along `R`. Nothing is said of the others, which
`Steps` is about too. -/

namespace Xstack.Lib.Program

variable {σ α β : Type}

/-- **`x` keeps `I` and returns values with `P`.** -/
def Ensures (I : σ → Prop) (x : Prog σ α) (P : α → Prop) : Prop :=
  ∀ s, I s → I (x s).2 ∧ ∀ a, (x s).1 = some a → P a

namespace Ensures

variable {I : σ → Prop} {x : Prog σ α} {P : α → Prop} {Q : β → Prop}

theorem keeps {s : σ} (hx : Ensures I x P) (hs : I s) : I (x s).2 := (hx s hs).1

theorem pure {a : α} (h : P a) : Ensures I (pure a : Prog σ α) P := by
  refine fun s hs => ⟨hs, fun b hb => ?_⟩
  obtain rfl : a = b := Option.some.inj hb
  exact h

theorem stuck : Ensures I (stuck : Prog σ α) P := fun _ hs => ⟨hs, fun _ hb => by cases hb⟩

/-- What is read is a state with the invariant. -/
theorem get : Ensures I (get : Prog σ σ) I := by
  refine fun s hs => ⟨hs, fun t ht => ?_⟩
  obtain rfl : s = t := Option.some.inj ht
  exact hs

theorem modify {f : σ → σ} (h : ∀ s, I s → I (f s)) : Ensures I (modify f) fun _ => True :=
  fun s hs => ⟨h s hs, fun _ _ => trivial⟩

theorem ofOption {o : Option α} (h : ∀ a, o = some a → P a) :
    Ensures I (ofOption o : Prog σ α) P := by
  cases o with
  | none => exact stuck
  | some a => exact pure (h a rfl)

theorem bind {g : α → Prog σ β} (hx : Ensures I x P) (hg : ∀ a, P a → Ensures I (g a) Q) :
    Ensures I (x >>= g) Q := by
  intro s hs
  obtain ⟨h1, h2⟩ := hx s hs
  rw [bind_apply]
  rcases h : x s with ⟨_ | a, t⟩ <;> simp only [h] at h1 h2 ⊢
  · exact ⟨h1, fun _ hb => by cases hb⟩
  · exact hg a (h2 a rfl) t h1

/-- A first step about whose value nothing is known. -/
theorem seq {g : α → Prog σ β} (hx : Ensures I x fun _ => True) (hg : ∀ a, Ensures I (g a) Q) :
    Ensures I (x >>= g) Q := hx.bind fun a _ => hg a

/-- A program that reads the state first. -/
theorem get_bind {g : σ → Prog σ β} (h : ∀ s, I s → I (g s s).2 ∧ ∀ b, (g s s).1 = some b → Q b) :
    Ensures I (Program.get >>= g) Q := h

theorem ite {p : Prop} [Decidable p] {y : Prog σ α} (hx : p → Ensures I x P)
    (hy : ¬ p → Ensures I y P) : Ensures I (if p then x else y) P := by
  split_ifs with h
  · exact hx h
  · exact hy h

/-- A program about which nothing is known but what it does to the state. -/
theorem of_steps {R : σ → σ → Prop} (hx : Steps R x) (h : ∀ s t, R s t → I s → I t) :
    Ensures I x fun _ => True :=
  fun s hs => ⟨h s _ (hx s) hs, fun _ _ => trivial⟩

/-- Nothing is known of the state, and nothing is said of the value. -/
theorem of_any (x : Prog σ α) : Ensures (fun _ => True) x fun _ => True :=
  fun _ _ => ⟨trivial, fun _ _ => trivial⟩

end Ensures

/-! ### Costs -/

/-- **`x` adds at most `n` to `f`** in a state with `I`. -/
def Costs (I : σ → Prop) (f : σ → ℕ) (n : ℕ) (x : Prog σ α) : Prop := ∀ s, I s → f (x s).2 ≤ f s + n

namespace Costs

variable {I : σ → Prop} {f : σ → ℕ} {m n : ℕ} {x : Prog σ α} {P : α → Prop}

theorem pure (a : α) : Costs I f n (pure a : Prog σ α) := fun _ _ => Nat.le_add_right _ _

theorem stuck : Costs I f n (stuck : Prog σ α) := fun _ _ => Nat.le_add_right _ _

theorem get : Costs I f n (get : Prog σ σ) := fun _ _ => Nat.le_add_right _ _

theorem modify {g : σ → σ} (h : ∀ s, f (g s) ≤ f s + n) : Costs I f n (modify g) := fun s _ => h s

theorem ofOption (o : Option α) : Costs I f n (ofOption o : Prog σ α) := by
  cases o with
  | none => exact stuck
  | some a => exact pure a

/-- The second step may use the invariant, and what is known of the value of the first one. -/
theorem bind {g : α → Prog σ β} (hx : Costs I f m x) (hk : Ensures I x P)
    (hg : ∀ a, P a → Costs I f n (g a)) : Costs I f (m + n) (x >>= g) := by
  intro s hs
  obtain ⟨h1, h2⟩ := hk s hs
  have hm := hx s hs
  rw [bind_apply]
  rcases h : x s with ⟨_ | a, t⟩ <;> simp only [h] at h1 h2 hm ⊢
  · omega
  · have hn := hg a (h2 a rfl) t h1
    omega

theorem ite {p : Prop} [Decidable p] {y : Prog σ α} (hx : p → Costs I f n x)
    (hy : ¬ p → Costs I f n y) : Costs I f n (if p then x else y) := by
  split_ifs with h
  · exact hx h
  · exact hy h

theorem mono (hx : Costs I f m x) (h : m ≤ n) : Costs I f n x := fun s hs => by
  have := hx s hs
  omega

theorem weaken {J : σ → Prop} (hx : Costs J f n x) (h : ∀ s, I s → J s) : Costs I f n x :=
  fun s hs => hx s (h s hs)

/-- A first step without costs. -/
theorem bind_free {g : α → Prog σ β} (hx : Costs I f 0 x) (hk : Ensures I x P)
    (hg : ∀ a, P a → Costs I f n (g a)) : Costs I f n (x >>= g) :=
  (hx.bind hk hg).mono (Nat.zero_add n).le

/-- Steps about whose values and states nothing is known. -/
theorem seq {g : α → Prog σ β} (hx : Costs (fun _ => True) f m x)
    (hg : ∀ a, Costs (fun _ => True) f n (g a)) : Costs (fun _ => True) f (m + n) (x >>= g) :=
  hx.bind (.of_any x) fun a _ => hg a

theorem free {g : α → Prog σ β} (hx : Costs (fun _ => True) f 0 x)
    (hg : ∀ a, Costs (fun _ => True) f n (g a)) : Costs (fun _ => True) f n (x >>= g) :=
  hx.bind_free (.of_any x) fun a _ => hg a

/-- Only the first step has costs. -/
theorem only {g : α → Prog σ β} (hx : Costs (fun _ => True) f n x)
    (hg : ∀ a, Costs (fun _ => True) f 0 (g a)) : Costs (fun _ => True) f n (x >>= g) := hx.seq hg

end Costs

/-! ### Runs that return -/

/-- The two halves of a run that returns. -/
theorem returned {x : Prog σ α} {g : α → Prog σ β} {s t : σ} {b : β} (h : (x >>= g) s = (some b, t)) :
    ∃ a u, x s = (some a, u) ∧ g a u = (some b, t) := by
  rcases hx : x s with ⟨_ | a, u⟩
  · rw [bind_of_none hx] at h
    cases h
  · rw [bind_of_some hx] at h
    exact ⟨a, u, rfl, h⟩

theorem returned_ofOption {o : Option α} {s t : σ} {a : α}
    (h : (ofOption o : Prog σ α) s = (some a, t)) : o = some a ∧ t = s := by
  cases o with
  | none => cases h
  | some b =>
    obtain ⟨h1, h2⟩ := Prod.mk.inj h
    exact ⟨h1, h2.symm⟩

/-- **Every run of `x` that returns takes the state along `R`.** -/
def Returns (R : σ → σ → Prop) (x : Prog σ α) : Prop := ∀ s a t, x s = (some a, t) → R s t

namespace Returns

variable {R : σ → σ → Prop} {x : Prog σ α} {s t : σ}

theorem run {a : α} (hx : Returns R x) (h : x s = (some a, t)) : R s t := hx s a t h

theorem of_steps {S : σ → σ → Prop} (hx : Steps S x) (h : ∀ s t, S s t → R s t) : Returns R x := by
  intro s a t hrun
  have := hx s
  rw [hrun] at this
  exact h s t this

theorem stuck : Returns R (stuck : Prog σ α) := fun _ _ _ hrun => by cases hrun

theorem pure (hr : ∀ s, R s s) (a : α) : Returns R (pure a : Prog σ α) := by
  intro s b t hrun
  obtain rfl := (Prod.mk.inj hrun).2
  exact hr _

theorem modify {f : σ → σ} (h : ∀ s, R s (f s)) : Returns R (modify f) := by
  intro s a t hrun
  obtain rfl := (Prod.mk.inj hrun).2
  exact h s

theorem ofOption (hr : ∀ s, R s s) (o : Option α) : Returns R (ofOption o : Prog σ α) := by
  cases o with
  | none => exact stuck
  | some a => exact pure hr a

theorem bind (ht : ∀ {s t u}, R s t → R t u → R s u) {g : α → Prog σ β} (hx : Returns R x)
    (hg : ∀ a, Returns R (g a)) : Returns R (x >>= g) := by
  intro s b t hrun
  obtain ⟨a, u, h1, h2⟩ := returned hrun
  exact ht (hx.run h1) ((hg a).run h2)

/-- A program that reads the state first. -/
theorem get {g : σ → Prog σ β} (h : ∀ s, Returns R (g s)) : Returns R (Program.get >>= g) :=
  fun s b t hrun => h s s b t hrun

theorem ite {p : Prop} [Decidable p] {y : Prog σ α} (hx : p → Returns R x) (hy : ¬ p → Returns R y) :
    Returns R (if p then x else y) := by
  split_ifs with h
  · exact hx h
  · exact hy h

end Returns

end Xstack.Lib.Program
