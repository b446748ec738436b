import Mathlib.Tactic

/-! # Programs over a state

A program of type `Prog σ α` runs in a state of type `σ`. It returns a value, or it has none: its
behaviour is undefined, or it never returns. In both cases the state says what it has done so far.

* `get`, `modify`, `stuck`, `ofOption`: the basic programs; the rest is `do` notation.
* `Rel Q R x y s t`: `x` from `s` and `y` from `t` end in states that `Q` relates and return values
  that `R` relates. With the rules `Rel.bind`, `Rel.refl`, ... for pairs of runs.
* `Steps R x`: all runs of `x` take the state along the relation `R`, with rules for `R` reflexive and
  transitive. An invariant `I` is the relation `I s → I t`, and `Unchanged f` says that the part `f` of
  the state stays as it is.
* `Total x`: all runs of `x` return.
* `foldl_inv`: runs of a step function. `Along`: a condition on their steps. `split_snoc`: the events of
  a history are the old ones and the last one. -/

namespace Xstack.Lib.Program

/-- A program with state `σ` that returns an `α`. -/
def Prog (σ α : Type) : Type := σ → Option α × σ

variable {σ α β γ δ : Type}

instance : Monad (Prog σ) where
  pure a := fun s => (some a, s)
  bind x f := fun s =>
    match x s with
    | (some a, s) => f a s
    | (none, s) => (none, s)

def get : Prog σ σ := fun s => (some s, s)

def modify (f : σ → σ) : Prog σ Unit := fun s => (some (), f s)

/-- Undefined behaviour, or a loop that never ends. -/
def stuck : Prog σ α := fun s => (none, s)

def ofOption : Option α → Prog σ α
  | some a => pure a
  | none => stuck

@[simp] theorem pure_apply (a : α) (s : σ) : (pure a : Prog σ α) s = (some a, s) := rfl

@[simp] theorem get_apply (s : σ) : (get : Prog σ σ) s = (some s, s) := rfl

@[simp] theorem modify_apply (f : σ → σ) (s : σ) : modify f s = (some (), f s) := rfl

@[simp] theorem stuck_apply (s : σ) : (stuck : Prog σ α) s = (none, s) := rfl

@[simp] theorem ofOption_some (a : α) : (ofOption (some a) : Prog σ α) = pure a := rfl

@[simp] theorem ofOption_none : (ofOption none : Prog σ α) = stuck := rfl

theorem bind_apply (x : Prog σ α) (f : α → Prog σ β) (s : σ) : (x >>= f) s =
    match x s with
    | (some a, s) => f a s
    | (none, s) => (none, s) := rfl

theorem bind_of_some {x : Prog σ α} {f : α → Prog σ β} {s t : σ} {a : α} (h : x s = (some a, t)) :
    (x >>= f) s = f a t := by
  rw [bind_apply, h]

theorem bind_of_none {x : Prog σ α} {f : α → Prog σ β} {s t : σ} (h : x s = (none, t)) :
    (x >>= f) s = (none, t) := by
  rw [bind_apply, h]

@[simp] theorem get_bind (f : σ → Prog σ β) (s : σ) : (get >>= f) s = f s s := rfl

@[simp] theorem modify_bind (g : σ → σ) (f : Unit → Prog σ β) (s : σ) :
    (modify g >>= f) s = f () (g s) := rfl

@[simp] theorem bind_pure (a : α) (f : α → Prog σ β) : (pure a >>= f) = f a := rfl

theorem bind_assoc (x : Prog σ α) (f : α → Prog σ β) (g : β → Prog σ γ) :
    (x >>= f >>= g) = x >>= fun a => f a >>= g := by
  funext s
  rcases h : x s with ⟨_ | a, t⟩
  · rw [bind_of_none h, bind_of_none (bind_of_none h)]
  · rw [bind_of_some h, bind_apply, bind_of_some h]
    rfl

/-! ### Two runs -/

/-- **Two runs side by side:** `x` from `s` and `y` from `t` end in states that `Q` relates, and
return values that `R` relates. -/
def Rel (Q : σ → σ → Prop) (R : α → β → Prop) (x : Prog σ α) (y : Prog σ β) (s t : σ) : Prop :=
  Q (x s).2 (y t).2 ∧ Option.Rel R (x s).1 (y t).1

section

variable {Q : σ → σ → Prop} {s t : σ}

theorem Rel.pure {R : α → β → Prop} {a : α} {b : β} (hQ : Q s t) (h : R a b) :
    Rel Q R (pure a : Prog σ α) (pure b) s t := ⟨hQ, .some h⟩

theorem Rel.stuck {R : α → β → Prop} (hQ : Q s t) : Rel Q R (stuck : Prog σ α) stuck s t :=
  ⟨hQ, .none⟩

theorem Rel.modify {f g : σ → σ} (h : Q (f s) (g t)) :
    Rel Q Eq (modify f) (modify g) s t := ⟨h, .some rfl⟩

theorem Rel.ofOption {R : α → β → Prop} {a : Option α} {b : Option β} (hQ : Q s t)
    (h : Option.Rel R a b) : Rel Q R (ofOption a) (ofOption b) s t := by
  cases h with
  | none => exact .stuck hQ
  | some h => exact .pure hQ h

/-- Two computations that begin with the same one. -/
theorem optionRel_bind {R : β → γ → Prop} {x : Option α} {f : α → Option β} {g : α → Option γ}
    (h : ∀ a, Option.Rel R (f a) (g a)) : Option.Rel R (x.bind f) (x.bind g) := by
  cases x with
  | none => exact .none
  | some a => exact h a

/-- The same program from the same state. -/
theorem Rel.refl (hQ : ∀ s, Q s s) (x : Prog σ α) (s : σ) : Rel Q Eq x x s s := by
  refine ⟨hQ _, ?_⟩
  cases (x s).1 with
  | none => exact .none
  | some a => exact .some rfl

/-- The second steps may use what the first ones return and the states they end in. -/
theorem Rel.bind {R : α → β → Prop} {S : γ → δ → Prop} {x : Prog σ α} {y : Prog σ β}
    {f : α → Prog σ γ} {g : β → Prog σ δ} (h : Rel Q R x y s t)
    (hfg : ∀ a b s' t', R a b → Q s' t' → x s = (some a, s') → Rel Q S (f a) (g b) s' t') :
    Rel Q S (x >>= f) (y >>= g) s t := by
  obtain ⟨h1, h2⟩ := h
  unfold Rel
  rw [bind_apply, bind_apply]
  rcases hx : x s with ⟨_ | a, s'⟩ <;> rcases hy : y t with ⟨_ | b, t'⟩ <;>
    simp only [hx, hy] at h1 h2 ⊢
  · exact ⟨h1, .none⟩
  · cases h2
  · cases h2
  · cases h2 with
    | some h2 => exact hfg a b s' t' h2 h1 hx

/-- A first step that both runs share. -/
theorem Rel.bind_same {S : β → γ → Prop} (hQ : ∀ s, Q s s) {x : Prog σ α} {f : α → Prog σ β}
    {g : α → Prog σ γ} (h : ∀ a t, x s = (some a, t) → Rel Q S (f a) (g a) t t) :
    Rel Q S (x >>= f) (x >>= g) s s := by
  unfold Rel
  rw [bind_apply, bind_apply]
  rcases hx : x s with ⟨_ | a, t⟩
  · exact ⟨hQ t, .none⟩
  · exact h a t hx

/-- Programs that read their states first. -/
theorem Rel.get_bind {R : α → β → Prop} {f : σ → Prog σ α} {g : σ → Prog σ β}
    (h : Rel Q R (f s) (g t) s t) : Rel Q R (get >>= f) (get >>= g) s t := h

theorem Rel.ite {R : α → β → Prop} {p : Prop} [Decidable p] {x x' : Prog σ α} {y y' : Prog σ β}
    (h : p → Rel Q R x y s t) (h' : ¬ p → Rel Q R x' y' s t) :
    Rel Q R (if p then x else x') (if p then y else y') s t := by
  split_ifs with hp
  · exact h hp
  · exact h' hp

end

/-! ### What a run can do to the state -/

/-- Every run of the program takes the state along `R`. -/
def Steps (R : σ → σ → Prop) (x : Prog σ α) : Prop := ∀ s, R s (x s).2

variable {R : σ → σ → Prop}

theorem Steps.mono {R' : σ → σ → Prop} {x : Prog σ α} (hx : Steps R x) (h : ∀ s t, R s t → R' s t) :
    Steps R' x := fun s => h s _ (hx s)

section

variable (hr : ∀ s, R s s)
include hr

theorem Steps.pure (a : α) : Steps R (pure a : Prog σ α) := fun s => hr s

theorem Steps.get : Steps R (get : Prog σ σ) := fun s => hr s

theorem Steps.stuck : Steps R (stuck : Prog σ α) := fun s => hr s

theorem Steps.ofOption (o : Option α) : Steps R (ofOption o : Prog σ α) := by
  cases o with
  | none => exact Steps.stuck hr
  | some a => exact Steps.pure hr a

end

theorem Steps.modify {g : σ → σ} (h : ∀ s, R s (g s)) : Steps R (modify g) := h

/-- A step along `R` after one along `R`; the second step may use the result of the first. -/
theorem Steps.bind (ht : ∀ {s t u}, R s t → R t u → R s u) {x : Prog σ α} {g : α → Prog σ β}
    (hx : Steps R x) (hg : ∀ a, Steps R (g a)) : Steps R (x >>= g) := by
  intro s
  rw [bind_apply]
  have h := hx s
  rcases hs : x s with ⟨_ | a, t⟩ <;> simp only [hs] at h ⊢
  · exact h
  · exact ht h (hg a t)

theorem Steps.ite {p : Prop} [Decidable p] {x y : Prog σ α} (hx : p → Steps R x)
    (hy : ¬ p → Steps R y) : Steps R (if p then x else y) := by
  split_ifs with h
  · exact hx h
  · exact hy h

/-- A program that reads the state first. -/
theorem Steps.get_bind {g : σ → Prog σ β} (h : ∀ s, R s (g s s).2) : Steps R (Program.get >>= g) := h

/-- The part `f` of the state is as before. -/
def Unchanged (f : σ → α) (s t : σ) : Prop := f t = f s

theorem Unchanged.refl {f : σ → α} (s : σ) : Unchanged f s s := rfl

theorem Unchanged.trans {f : σ → α} {s t u : σ} (h : Unchanged f s t) (h' : Unchanged f t u) :
    Unchanged f s u := Eq.trans h' h

/-! ### Programs that return -/

/-- Every run of the program returns. -/
def Total (x : Prog σ α) : Prop := ∀ s, (x s).1 ≠ none

theorem Total.pure (a : α) : Total (pure a : Prog σ α) := fun _ => Option.some_ne_none a

theorem Total.get : Total (get : Prog σ σ) := Option.some_ne_none

theorem Total.modify (f : σ → σ) : Total (modify f) := fun _ => Option.some_ne_none ()

theorem Total.bind {x : Prog σ α} {g : α → Prog σ β} (hx : Total x) (hg : ∀ a, Total (g a)) :
    Total (x >>= g) := by
  intro s
  rcases h : x s with ⟨_ | a, t⟩
  · exact absurd (congrArg Prod.fst h) (hx s)
  · rw [bind_of_some h]
    exact hg a t

theorem Total.ite {p : Prop} [Decidable p] {x y : Prog σ α} (hx : p → Total x) (hy : ¬ p → Total y) :
    Total (if p then x else y) := by
  split_ifs with h
  · exact hx h
  · exact hy h

/-! ### Runs -/

/-- A run of a step function whose steps all meet a condition keeps what each of them keeps. -/
theorem foldl_inv {step : σ → α → σ} {I : σ → Prop} {ok : σ → α → Prop}
    (hstep : ∀ s a, I s → ok s a → I (step s a)) (l : List α) : ∀ {s : σ}, I s →
    (∀ pre a post, l = pre ++ a :: post → ok (pre.foldl step s) a) → I (l.foldl step s) := by
  induction l with
  | nil => exact fun hs _ => hs
  | cons a l ih =>
    intro s hs hok
    refine ih (hstep s a hs (hok [] a l rfl)) fun pre b post heq => ?_
    exact hok (a :: pre) b post (by rw [heq]; rfl)

/-- All steps of a run meet the condition, in a form that can be evaluated. -/
def Along (step : σ → α → σ) (ok : σ → α → Prop) : σ → List α → Prop
  | _, [] => True
  | s, a :: l => ok s a ∧ Along step ok (step s a) l

instance Along.decidable (step : σ → α → σ) (ok : σ → α → Prop) [∀ s a, Decidable (ok s a)] :
    ∀ s l, Decidable (Along step ok s l)
  | _, [] => .isTrue trivial
  | s, a :: l =>
    have := Along.decidable step ok (step s a) l
    inferInstanceAs (Decidable (ok s a ∧ _))

theorem Along.forall_split {step : σ → α → σ} {ok : σ → α → Prop} : ∀ {s : σ} {l : List α},
    Along step ok s l → ∀ pre a post, l = pre ++ a :: post → ok (pre.foldl step s) a
  | _, [], _, pre, a, post, heq => by simp at heq
  | _, _ :: _, ⟨h, _⟩, [], a, post, heq => by
    obtain ⟨rfl, -⟩ := List.cons.inj heq
    exact h
  | _, _ :: _, ⟨_, h⟩, b :: pre, a, post, heq => by
    obtain ⟨rfl, hrest⟩ := List.cons.inj heq
    exact h.forall_split pre a post hrest

/-- Each move so many times. -/
def repeated (moves : List (ℕ × α)) : List α := moves.flatMap fun move => List.replicate move.1 move.2

/-- An event in a history that has grown by one event at its end. -/
theorem split_snoc {log pre post : List α} {e x : α} (h : log ++ [e] = pre ++ x :: post) :
    (pre = log ∧ x = e ∧ post = []) ∨ ∃ post', post = post' ++ [e] ∧ log = pre ++ x :: post' := by
  rcases List.eq_nil_or_concat' post with rfl | ⟨post, z, rfl⟩
  · obtain ⟨h1, h2⟩ := List.append_inj' h rfl
    exact Or.inl ⟨h1.symm, (List.singleton_inj.mp h2).symm, rfl⟩
  · have h : log ++ [e] = (pre ++ x :: post) ++ [z] := by simpa using h
    obtain ⟨h1, h2⟩ := List.append_inj' h rfl
    exact Or.inr ⟨post, by rw [h2], h1⟩

end Xstack.Lib.Program
