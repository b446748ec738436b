import Xstack.Lib.Program
import Xstack.Lib.Ring

/-! # Clearing a queue next to its consumer

A producer that pushes elements and clears the queue (`queue_clear_from_push_end`), and a consumer
that takes one element after the other, under every interleaving of their loads and stores. The clear
is a load of `m_read` and a store of `m_write`. When the consumer works on an element at that time, its
slot becomes free under its hands; when it stores `m_read` between the two, the indices end up in the
wrong order and the whole ring counts as filled.

* `Prod`, `Cons`: where the two sides stand. An element is the number of its commit, and a slot is
  loaded and stored as a whole.
* `Safe`: what is said of every state. `Undisturbed`: the condition on a step.
* `Hist`, `Inv`: the invariant. `safe`: all states of the runs whose steps meet the condition. -/

namespace Xstack.Sock.Clear

open Xstack.Lib.Program Xstack.Lib.Ring

/-! ### The two sides -/

/-- What the producer does when it is free. -/
inductive Op
  | push
  | clear

inductive Prod
  | idle
  /-- `queue_alloc` is to load `m_read`. -/
  | test (write : ℕ)
  /-- `queue_alloc` has returned the slot `i`, which is to be filled. -/
  | fill (i : ℕ)
  /-- `queue_commit` is to load `m_write`. -/
  | commit (i : ℕ)
  /-- `queue_commit` is to store `m_write`. -/
  | publish (i next : ℕ)
  /-- `queue_clear_from_push_end` is to store `m_write`. -/
  | clear (read : ℕ)

inductive Cons
  | idle
  /-- `queue_peek` is to load `m_write`. -/
  | test (read : ℕ)
  /-- `queue_peek` has returned the slot `i`, which is to be read. -/
  | read (i : ℕ)
  /-- `queue_discard` is to load `m_read`. -/
  | discard (i : ℕ)
  /-- `queue_discard` is to load `m_write`. -/
  | check (i read : ℕ)
  /-- `queue_discard` is to store `m_read`. -/
  | release (i read : ℕ)

/-- What has happened, with the element in the slot at that time. -/
inductive Event
  | commit (e : ℕ)
  | clear
  | peek (i : ℕ) (e : Option ℕ)
  | receive (e : Option ℕ)
  | discard (i : ℕ) (e : Option ℕ)

structure St where
  mWrite : ℕ
  mRead : ℕ
  slot : ℕ → Option ℕ
  prod : Prod
  cons : Cons
  commits : ℕ
  log : List Event

/-- The queue that `queue_create` makes, with slots that were never filled. -/
def start : St := ⟨0, 0, fun _ => none, .idle, .idle, 0, []⟩

/-- One load or store of the producer. -/
def stepProd (aLen : ℕ) (op : Op) (s : St) : St :=
  match s.prod with
  | .idle =>
    match op with
    | .push => { s with prod := .test s.mWrite }
    | .clear => { s with prod := .clear s.mRead }
  | .test write =>
    if (write + 1) % aLen = s.mRead then { s with prod := .idle } else { s with prod := .fill write }
  | .fill i => { s with slot := Function.update s.slot i (some s.commits), prod := .commit i }
  | .commit i => { s with prod := .publish i ((s.mWrite + 1) % aLen) }
  | .publish _ next =>
    { s with mWrite := next, prod := .idle, commits := s.commits + 1
             log := s.log ++ [.commit s.commits] }
  | .clear read => { s with mWrite := read, prod := .idle, log := s.log ++ [.clear] }

/-- One load or store of the consumer. -/
def stepCons (aLen : ℕ) (s : St) : St :=
  match s.cons with
  | .idle => { s with cons := .test s.mRead }
  | .test read =>
    if read = s.mWrite then { s with cons := .idle }
    else { s with cons := .read read, log := s.log ++ [.peek read (s.slot read)] }
  | .read i => { s with cons := .discard i, log := s.log ++ [.receive (s.slot i)] }
  | .discard i => { s with cons := .check i s.mRead }
  | .check i read =>
    if read = s.mWrite then { s with cons := .idle } else { s with cons := .release i read }
  | .release _ read =>
    { s with mRead := (read + 1) % aLen, cons := .idle
             log := s.log ++ [.discard read (s.slot read)] }

inductive Move
  | prod (op : Op)
  | cons

def step (aLen : ℕ) (s : St) : Move → St
  | .prod op => stepProd aLen op s
  | .cons => stepCons aLen s

/-- The state after the steps of an interleaving. -/
def run (aLen : ℕ) (s : St) (moves : List Move) : St := moves.foldl (step aLen) s

/-! ### The property -/

/-- The slot that the producer was given and has not committed. -/
def Prod.given : Prod → Option ℕ
  | .fill i | .commit i | .publish i _ => some i
  | _ => none

/-- The slot that the consumer works on. -/
def Cons.reading : Cons → Option ℕ
  | .read i | .discard i | .check i _ | .release i _ => some i
  | _ => none

/-- The elements that the consumer has received. -/
def received (log : List Event) : List ℕ :=
  log.filterMap fun
    | .receive e => e
    | _ => none

/-- **Clearing is safe next to the consumer.** -/
structure Safe (s : St) : Prop where
  once : (received s.log).Nodup
  /-- An element that is received after a clear and was committed before it was peeked before it. -/
  cleared : ∀ pre post e, s.log = pre ++ .clear :: post → .receive (some e) ∈ post →
    .commit e ∈ pre → ∃ i, .peek i (some e) ∈ pre
  peeked : ∀ pre post i e, s.log = pre ++ .discard i e :: post → .peek i e ∈ pre
  apart : ∀ i, s.prod.given = some i → s.cons.reading ≠ some i

/-- **The condition** on one step: when the clear stores `m_write`, the consumer works on no element,
and `m_read` is what the clear has loaded. -/
def Undisturbed (s : St) : Move → Prop
  | .prod _ => ∀ read, s.prod = .clear read → s.cons.reading = none ∧ read = s.mRead
  | .cons => True

/-- The index that a clear has loaded. -/
def Prod.loaded : Prod → Option ℕ
  | .clear read => some read
  | _ => none

theorem Prod.loaded_eq {p : Prod} {read : ℕ} : p.loaded = some read ↔ p = .clear read := by
  cases p <;> simp [loaded]

instance (s : St) : (m : Move) → Decidable (Undisturbed s m)
  | .prod _ => decidable_of_iff (∀ read ∈ s.prod.loaded, s.cons.reading = none ∧ read = s.mRead)
      (forall_congr' fun _ => imp_congr_left Prod.loaded_eq)
  | .cons => .isTrue trivial

/-! ### The history -/

/-- `todo` are the elements in the queue that are not received. -/
structure Hist (commits : ℕ) (todo : List ℕ) (log : List Event) : Prop where
  sorted : todo.Pairwise (· < ·)
  fresh : ∀ e ∈ todo, e < commits
  committed : ∀ e, .commit e ∈ log → e < commits
  old : ∀ e ∈ received log, e < commits ∧ ∀ x ∈ todo, e < x
  once : (received log).Nodup
  cut : ∀ pre post, log = pre ++ .clear :: post →
    (∀ e ∈ todo, .commit e ∉ pre) ∧ ∀ e, .receive (some e) ∈ post → .commit e ∉ pre
  peeked : ∀ pre post i e, log = pre ++ .discard i e :: post → .peek i e ∈ pre

variable {commits : ℕ} {todo : List ℕ} {log : List Event}

theorem received_snoc (log : List Event) (x : Event) :
    received (log ++ [x]) = received log ++ received [x] := List.filterMap_append

/-- One more event. -/
theorem Hist.snoc (h : Hist commits todo log) {x : Event} {commits' : ℕ} {todo' : List ℕ}
    (hsorted : todo'.Pairwise (· < ·)) (hfresh : ∀ e ∈ todo', e < commits')
    (hle : commits ≤ commits') (hcommit : ∀ e, x = .commit e → e < commits')
    (hold : ∀ e ∈ received (log ++ [x]), e < commits' ∧ ∀ y ∈ todo', e < y)
    (honce : (received (log ++ [x])).Nodup) (htodo : ∀ e ∈ todo', e ∈ todo ∨ commits ≤ e)
    (hrec : ∀ e, x = .receive (some e) → e ∈ todo) (hclear : x = .clear → todo' = [])
    (hpeek : ∀ i e, x = .discard i e → .peek i e ∈ log) : Hist commits' todo' (log ++ [x]) := by
  refine ⟨hsorted, hfresh, fun e he => ?_, hold, honce, fun pre post heq => ?_,
    fun pre post i e heq => ?_⟩
  · rcases List.mem_append.mp he with he | he
    · exact (h.committed e he).trans_le hle
    · exact hcommit e (List.mem_singleton.mp he).symm
  · rcases split_snoc heq with ⟨-, hx, rfl⟩ | ⟨post, rfl, hlog⟩
    · rw [hclear hx.symm]
      simp
    · obtain ⟨h1, h2⟩ := h.cut pre post hlog
      refine ⟨fun e he hpre => ?_, fun e he => ?_⟩
      · rcases htodo e he with he | he
        · exact h1 e he hpre
        · have hlt := h.committed e (hlog ▸ List.mem_append_left _ hpre)
          omega
      · rcases List.mem_append.mp he with he | he
        · exact h2 e he
        · exact h1 e (hrec e (List.mem_singleton.mp he).symm)
  · rcases split_snoc heq with ⟨rfl, hx, -⟩ | ⟨post, -, hlog⟩
    · exact hpeek i e hx.symm
    · exact h.peeked pre post i e hlog

/-- An event that moves no element. -/
theorem Hist.other (h : Hist commits todo log) {x : Event} (hrec : received [x] = [])
    (hcommit : ∀ e, x ≠ .commit e) (hclear : x ≠ .clear)
    (hpeek : ∀ i e, x = .discard i e → .peek i e ∈ log) : Hist commits todo (log ++ [x]) := by
  have heq : received (log ++ [x]) = received log := by
    rw [received_snoc, hrec, List.append_nil]
  refine h.snoc h.sorted h.fresh le_rfl (fun e hx => absurd hx (hcommit e)) ?_ ?_
    (fun e he => Or.inl he) (fun e hx => ?_) (fun hx => absurd hx hclear) hpeek
  · rw [heq]
    exact h.old
  · rw [heq]
    exact h.once
  · rw [hx] at hrec
    cases hrec

theorem Hist.commit (h : Hist commits todo log) :
    Hist (commits + 1) (todo ++ [commits]) (log ++ [.commit commits]) := by
  have heq : received (log ++ [.commit commits]) = received log := by
    rw [received_snoc]
    exact List.append_nil _
  refine h.snoc ?_ (fun e he => ?_) (Nat.le_succ _) (fun e hx => ?_) ?_ ?_ (fun e he => ?_)
    (fun e hx => by cases hx) (fun hx => by cases hx) (fun i e hx => by cases hx)
  · rw [List.pairwise_append]
    refine ⟨h.sorted, List.pairwise_singleton _ _, fun x hx y hy => ?_⟩
    rw [List.mem_singleton.mp hy]
    exact h.fresh x hx
  · rcases List.mem_append.mp he with he | he
    · exact (h.fresh e he).trans (Nat.lt_succ_self _)
    · rw [List.mem_singleton.mp he]
      exact Nat.lt_succ_self _
  · cases hx
    exact Nat.lt_succ_self _
  · rw [heq]
    intro e he
    obtain ⟨h1, h2⟩ := h.old e he
    refine ⟨h1.trans (Nat.lt_succ_self _), fun y hy => ?_⟩
    rcases List.mem_append.mp hy with hy | hy
    · exact h2 y hy
    · rw [List.mem_singleton.mp hy]
      exact h1
  · rw [heq]
    exact h.once
  · rcases List.mem_append.mp he with he | he
    · exact Or.inl he
    · exact Or.inr (List.mem_singleton.mp he).ge

theorem Hist.clear (h : Hist commits todo log) : Hist commits [] (log ++ [.clear]) := by
  have heq : received (log ++ [.clear]) = received log := by
    rw [received_snoc]
    exact List.append_nil _
  refine h.snoc List.Pairwise.nil (by simp) le_rfl (fun e hx => by cases hx) ?_ ?_ (by simp)
    (fun e hx => by cases hx) (fun _ => rfl) (fun i e hx => by cases hx)
  · rw [heq]
    exact fun e he => ⟨(h.old e he).1, by simp⟩
  · rw [heq]
    exact h.once

theorem Hist.receive {e : ℕ} (h : Hist commits (e :: todo) log) :
    Hist commits todo (log ++ [.receive (some e)]) := by
  have heq : received (log ++ [.receive (some e)]) = received log ++ [e] := received_snoc _ _
  obtain ⟨hhead, hsorted⟩ := List.pairwise_cons.mp h.sorted
  have hnew : e ∉ received log := fun he => lt_irrefl e ((h.old e he).2 e List.mem_cons_self)
  refine h.snoc hsorted (fun x hx => h.fresh x (List.mem_cons_of_mem e hx)) le_rfl
    (fun e hx => by cases hx) ?_ ?_ (fun x hx => Or.inl (List.mem_cons_of_mem e hx)) (fun x hx => ?_)
    (fun hx => by cases hx) (fun i e hx => by cases hx)
  · rw [heq]
    intro x hx
    rcases List.mem_append.mp hx with hx | hx
    · obtain ⟨h1, h2⟩ := h.old x hx
      exact ⟨h1, fun y hy => h2 y (List.mem_cons_of_mem e hy)⟩
    · rw [List.mem_singleton.mp hx]
      exact ⟨h.fresh e List.mem_cons_self, hhead⟩
  · rw [heq, List.nodup_append]
    refine ⟨h.once, List.nodup_singleton e, fun x hx y hy hxy => ?_⟩
    rw [hxy, List.mem_singleton.mp hy] at hx
    exact hnew hx
  · cases hx
    exact List.mem_cons_self

/-! ### The invariant -/

/-- What is not received of the elements `l` in the queue. -/
def Cons.unread (l : List ℕ) : Cons → List ℕ
  | .discard _ | .check _ _ | .release _ _ => l.tail
  | _ => l

/-- What the producer knows: it was given the slot behind the last element, and that is free. -/
def ProdOk (aLen d c : ℕ) (s : St) : Prop :=
  match s.prod with
  | .idle => True
  | .test write => write = c % aLen
  | .fill i => i = c % aLen ∧ c + 1 < d + aLen
  | .commit i => i = c % aLen ∧ c + 1 < d + aLen ∧ s.slot i = some s.commits
  | .publish i next => i = c % aLen ∧ c + 1 < d + aLen ∧ s.slot i = some s.commits ∧
      next = (c + 1) % aLen
  | .clear _ => True

/-- The consumer works on the first element, and has peeked it. -/
def Holds (aLen d : ℕ) (l : List ℕ) (s : St) (i : ℕ) : Prop :=
  ∃ e, l.head? = some e ∧ i = d % aLen ∧ .peek i (some e) ∈ s.log

/-- What the consumer knows. -/
def ConsOk (aLen d : ℕ) (l : List ℕ) (s : St) : Prop :=
  match s.cons with
  | .idle => True
  | .test read => read = d % aLen
  | .read i | .discard i => Holds aLen d l s i
  | .check i read | .release i read => Holds aLen d l s i ∧ read = i

/-- **The invariant:** the elements `l` are in the queue, the first in the slot `d`, counted without
end. -/
structure Inv (aLen d : ℕ) (l : List ℕ) (s : St) : Prop where
  counts : Counts aLen d (d + l.length)
  mRead : s.mRead = d % aLen
  mWrite : s.mWrite = (d + l.length) % aLen
  slots : ∀ k e, l[k]? = some e → s.slot ((d + k) % aLen) = some e
  prod : ProdOk aLen d (d + l.length) s
  cons : ConsOk aLen d l s
  hist : Hist s.commits (s.cons.unread l) s.log

variable {aLen d : ℕ} {l : List ℕ} {s : St}

theorem inv_start (h : 0 < aLen) : Inv aLen 0 [] start where
  counts := ⟨le_rfl, by simpa using h⟩
  mRead := (Nat.zero_mod _).symm
  mWrite := (Nat.zero_mod _).symm
  slots := by simp
  prod := trivial
  cons := trivial
  hist := ⟨List.Pairwise.nil, by simp [Cons.unread, start], by simp [start], by simp [start, received],
    by simp [start, received], by simp [start], by simp [start]⟩

/-! ### One step -/

theorem consOk_congr {s' : St} {l' : List ℕ} (h : ConsOk aLen d l s) (hc : s'.cons = s.cons)
    (hlog : s.log ⊆ s'.log) (hl : ∀ e, l.head? = some e → l'.head? = some e) :
    ConsOk aLen d l' s' := by
  have hholds : ∀ i, Holds aLen d l s i → Holds aLen d l' s' i := by
    rintro i ⟨e, he, hi, hpeek⟩
    exact ⟨e, hl e he, hi, hlog hpeek⟩
  unfold ConsOk at h ⊢
  rw [hc]
  cases hcons : s.cons <;> simp only [hcons] at h ⊢
  case test => exact h
  case read => exact hholds _ h
  case discard => exact hholds _ h
  case check => exact ⟨hholds _ h.1, h.2⟩
  case release => exact ⟨hholds _ h.1, h.2⟩

theorem prodOk_congr {s' : St} {c d' : ℕ} (h : ProdOk aLen d c s) (hp : s'.prod = s.prod)
    (hslot : s'.slot = s.slot) (hcommits : s'.commits = s.commits) (hd : d ≤ d') :
    ProdOk aLen d' c s' := by
  unfold ProdOk at h ⊢
  rw [hp, hslot, hcommits]
  cases hprod : s.prod <;> simp only [hprod] at h ⊢
  case test => exact h
  case fill => exact ⟨h.1, by omega⟩
  case commit => exact ⟨h.1, by omega, h.2.2⟩
  case publish => exact ⟨h.1, by omega, h.2.2⟩

/-- The producer moves on without a store. -/
theorem Inv.movesProd (h : Inv aLen d l s) {p : Prod}
    (hp : ProdOk aLen d (d + l.length) { s with prod := p }) : Inv aLen d l { s with prod := p } :=
  ⟨h.counts, h.mRead, h.mWrite, h.slots, hp, consOk_congr h.cons rfl (List.Subset.refl _)
    fun _ he => he, h.hist⟩

/-- The slot behind the last element is filled. -/
theorem Inv.fills (h : Inv aLen d l s) (hroom : d + l.length + 1 < d + aLen) {i : ℕ}
    (hi : i = (d + l.length) % aLen) :
    Inv aLen d l { s with slot := Function.update s.slot i (some s.commits), prod := .commit i } := by
  refine ⟨h.counts, h.mRead, h.mWrite, fun k e hk => ?_, ⟨hi, hroom, Function.update_self _ _ _⟩,
    consOk_congr h.cons rfl (List.Subset.refl _) fun _ he => he, h.hist⟩
  obtain ⟨hlt, -⟩ := List.getElem?_eq_some_iff.mp hk
  have hne : (d + k) % aLen ≠ i := by
    rw [hi]
    exact slot_ne (by omega) (by omega)
  show Function.update s.slot i _ ((d + k) % aLen) = some e
  rw [Function.update_of_ne hne]
  exact h.slots k e hk

/-- A consumer that works on an element has a first element. -/
theorem Inv.unread_snoc (h : Inv aLen d l s) (e : ℕ) :
    s.cons.unread (l ++ [e]) = s.cons.unread l ++ [e] := by
  have hc := h.cons
  have htail : ∀ i, Holds aLen d l s i → (l ++ [e]).tail = l.tail ++ [e] := by
    rintro i ⟨x, hx, -⟩
    exact List.tail_append_of_ne_nil (by rintro rfl; cases hx)
  unfold ConsOk at hc
  unfold Cons.unread
  cases hcons : s.cons <;> simp only [hcons] at hc ⊢
  case discard => exact htail _ hc
  case check => exact htail _ hc.1
  case release => exact htail _ hc.1

/-- The element is committed. -/
theorem Inv.publishes (h : Inv aLen d l s) (hroom : d + l.length + 1 < d + aLen)
    (hslot : s.slot ((d + l.length) % aLen) = some s.commits) :
    Inv aLen d (l ++ [s.commits]) { s with
      mWrite := (d + l.length + 1) % aLen, prod := .idle, commits := s.commits + 1
      log := s.log ++ [.commit s.commits] } := by
  have hlen : d + (l ++ [s.commits]).length = d + l.length + 1 := by
    rw [List.length_append, List.length_singleton, Nat.add_assoc]
  refine ⟨?_, h.mRead, ?_, fun k e hk => ?_, trivial, consOk_congr h.cons rfl
    (List.subset_append_left _ _) fun e he => ?_, ?_⟩
  · rw [hlen]
    exact ⟨by omega, hroom⟩
  · rw [hlen]
  · rcases getElem?_snoc hk with ⟨-, hk⟩ | ⟨rfl, rfl⟩
    · exact h.slots k e hk
    · exact hslot
  · rw [List.head?_append, he]
    rfl
  · show Hist (s.commits + 1) (s.cons.unread (l ++ [s.commits])) _
    rw [h.unread_snoc]
    exact h.hist.commit

/-- The queue is cleared while the consumer works on no element. -/
theorem Inv.clears (h : Inv aLen d l s) (hfree : s.cons.reading = none) (hpos : 0 < aLen) :
    Inv aLen d [] { s with mWrite := s.mRead, prod := .idle, log := s.log ++ [.clear] } := by
  have hc := h.cons
  have hunread : s.cons.unread [] = [] := by
    unfold Cons.unread
    split <;> rfl
  refine ⟨⟨le_rfl, by simpa using hpos⟩, h.mRead, h.mRead, by simp, trivial, ?_, ?_⟩
  · unfold ConsOk at hc ⊢
    cases hcons : s.cons <;> simp only [hcons, Cons.reading, reduceCtorEq] at hc hfree ⊢
    exact hc
  · show Hist s.commits (s.cons.unread []) _
    rw [hunread]
    exact h.hist.clear

theorem stepProd_inv (hpos : 0 < aLen) (h : Inv aLen d l s) (op : Op)
    (hu : Undisturbed s (.prod op)) : ∃ l', Inv aLen d l' (stepProd aLen op s) := by
  have hp := h.prod
  unfold ProdOk at hp
  unfold stepProd
  cases hprod : s.prod with
  | idle =>
    cases op with
    | push => exact ⟨l, h.movesProd h.mWrite⟩
    | clear => exact ⟨l, h.movesProd trivial⟩
  | test write =>
    simp only [hprod] at hp ⊢
    refine ⟨l, ?_⟩
    split_ifs with hfull
    · exact h.movesProd trivial
    · refine h.movesProd ⟨hp, ?_⟩
      rw [hp, h.mRead, h.counts.full_iff] at hfull
      have := h.counts.lt
      omega
  | fill i =>
    simp only [hprod] at hp ⊢
    exact ⟨l, h.fills hp.2 hp.1⟩
  | commit i =>
    simp only [hprod] at hp ⊢
    refine ⟨l, h.movesProd ⟨hp.1, hp.2.1, hp.2.2, ?_⟩⟩
    rw [h.mWrite, Counts.next]
  | publish i next =>
    simp only [hprod] at hp ⊢
    obtain ⟨rfl, hroom, hslot, rfl⟩ := hp
    exact ⟨_, h.publishes hroom hslot⟩
  | clear read =>
    obtain ⟨hfree, rfl⟩ := hu read hprod
    exact ⟨[], h.clears hfree hpos⟩

/-- The consumer moves on without a store or an event. -/
theorem Inv.movesCons (h : Inv aLen d l s) {c : Cons} (hc : ConsOk aLen d l { s with cons := c })
    (hunread : c.unread l = s.cons.unread l) : Inv aLen d l { s with cons := c } := by
  refine ⟨h.counts, h.mRead, h.mWrite, h.slots, prodOk_congr h.prod rfl rfl rfl le_rfl, hc, ?_⟩
  show Hist s.commits (c.unread l) s.log
  rw [hunread]
  exact h.hist

theorem Inv.ne_mWrite {e : ℕ} (h : Inv aLen d l s) (he : l.head? = some e) : d % aLen ≠ s.mWrite := by
  rw [h.mWrite, ne_eq, h.counts.empty_iff]
  cases l with
  | nil => cases he
  | cons x l => simp

/-- `queue_peek` finds an element. -/
theorem Inv.peeks (h : Inv aLen d l s) {read : ℕ} (hcons : s.cons = .test read)
    (hread : read = d % aLen) (hne : read ≠ s.mWrite) :
    Inv aLen d l { s with cons := .read read, log := s.log ++ [.peek read (s.slot read)] } := by
  obtain ⟨e, he⟩ : ∃ e, l.head? = some e := by
    cases l with
    | nil => exact absurd (hread.trans h.mWrite.symm) hne
    | cons e l => exact ⟨e, rfl⟩
  have hslot : s.slot read = some e := by
    rw [hread]
    exact h.slots 0 e (by rw [← List.head?_eq_getElem?]; exact he)
  have hhist := h.hist
  rw [hcons] at hhist
  refine ⟨h.counts, h.mRead, h.mWrite, h.slots, prodOk_congr h.prod rfl rfl rfl le_rfl,
    ⟨e, he, hread, ?_⟩, ?_⟩
  · rw [← hslot]
    exact List.mem_append_right _ List.mem_cons_self
  · exact hhist.other rfl (by simp) (by simp) (by simp)

/-- The element that the consumer works on is the first one, and still in its slot. -/
theorem Inv.first (h : Inv aLen d l s) {i : ℕ} (hi : Holds aLen d l s i) :
    ∃ e l', l = e :: l' ∧ i = d % aLen ∧ .peek i (some e) ∈ s.log ∧ s.slot i = some e := by
  obtain ⟨e, he, rfl, hpeek⟩ := hi
  obtain ⟨l', rfl⟩ := List.head?_eq_some_iff.mp he
  exact ⟨e, l', rfl, rfl, hpeek, h.slots 0 e rfl⟩

/-- The consumer reads the slot. -/
theorem Inv.reads (h : Inv aLen d l s) {i : ℕ} (hcons : s.cons = .read i)
    (hi : Holds aLen d l s i) :
    Inv aLen d l { s with cons := .discard i, log := s.log ++ [.receive (s.slot i)] } := by
  obtain ⟨e, l, rfl, rfl, hpeek, hslot⟩ := h.first hi
  have hhist := h.hist
  rw [hcons] at hhist
  refine ⟨h.counts, h.mRead, h.mWrite, h.slots, prodOk_congr h.prod rfl rfl rfl le_rfl,
    ⟨e, rfl, rfl, List.mem_append_left _ hpeek⟩, ?_⟩
  show Hist s.commits l (s.log ++ [.receive (s.slot (d % aLen))])
  rw [hslot]
  exact Hist.receive hhist

/-- `queue_discard` takes the first element off the queue. -/
theorem Inv.releases (h : Inv aLen d l s) {i read : ℕ} (hcons : s.cons = .release i read)
    (hi : Holds aLen d l s i) (hread : read = i) :
    Inv aLen (d + 1) l.tail { s with
      mRead := (read + 1) % aLen, cons := .idle, log := s.log ++ [.discard read (s.slot read)] } := by
  obtain ⟨e, l, rfl, rfl, hpeek, hslot⟩ := h.first hi
  subst hread
  have hlen : d + 1 + l.length = d + (e :: l).length := by
    rw [List.length_cons]
    omega
  have hlt := h.counts.lt
  have hhist := h.hist
  rw [hcons] at hhist
  refine ⟨⟨by omega, ?_⟩, ?_, ?_, fun k x hk => ?_, ?_, trivial, ?_⟩
  · show d + 1 + l.length < _
    omega
  · show (d % aLen + 1) % aLen = _
    rw [Counts.next]
  · show s.mWrite = (d + 1 + l.length) % aLen
    rw [hlen]
    exact h.mWrite
  · rw [Nat.add_assoc, Nat.add_comm 1 k]
    exact h.slots (k + 1) x hk
  · show ProdOk aLen (d + 1) (d + 1 + l.length) _
    rw [hlen]
    exact prodOk_congr h.prod rfl rfl rfl (Nat.le_succ d)
  · refine Hist.other hhist rfl (by simp) (by simp) fun i x hx => ?_
    rw [hslot] at hx
    cases hx
    exact hpeek

theorem stepCons_inv (h : Inv aLen d l s) : ∃ d' l', Inv aLen d' l' (stepCons aLen s) := by
  have hc := h.cons
  unfold ConsOk at hc
  unfold stepCons
  cases hcons : s.cons with
  | idle => exact ⟨d, l, h.movesCons h.mRead (by rw [hcons]; rfl)⟩
  | test read =>
    simp only [hcons] at hc ⊢
    refine ⟨d, l, ?_⟩
    split_ifs with hempty
    · exact h.movesCons trivial (by rw [hcons]; rfl)
    · exact h.peeks hcons hc hempty
  | read i =>
    simp only [hcons] at hc ⊢
    exact ⟨d, l, h.reads hcons hc⟩
  | discard i =>
    simp only [hcons] at hc ⊢
    refine ⟨d, l, h.movesCons ⟨hc, ?_⟩ (by rw [hcons]; rfl)⟩
    obtain ⟨-, -, hi, -⟩ := hc
    rw [hi, h.mRead]
  | check i read =>
    simp only [hcons] at hc ⊢
    obtain ⟨e, he, hi, -⟩ := hc.1
    refine ⟨d, l, ?_⟩
    rw [if_neg (by rw [hc.2, hi]; exact h.ne_mWrite he)]
    exact h.movesCons hc (by rw [hcons]; rfl)
  | release i read =>
    simp only [hcons] at hc ⊢
    exact ⟨d + 1, l.tail, h.releases hcons hc.1 hc.2⟩

/-! ### Runs -/

theorem safe_of_inv (h : Inv aLen d l s) : Safe s where
  once := h.hist.once
  cleared := fun pre post e heq hrec hcommit =>
    absurd hcommit ((h.hist.cut pre post heq).2 e hrec)
  peeked := h.hist.peeked
  apart := by
    intro i hgiven hreading
    have hp := h.prod
    have hc := h.cons
    obtain ⟨hi, hroom⟩ : i = (d + l.length) % aLen ∧ d + l.length + 1 < d + aLen := by
      unfold ProdOk at hp
      cases hprod : s.prod <;> simp only [hprod, Prod.given, reduceCtorEq] at hp hgiven <;>
        obtain rfl := Option.some.inj hgiven
      case fill => exact hp
      case commit => exact ⟨hp.1, hp.2.1⟩
      case publish => exact ⟨hp.1, hp.2.1⟩
    obtain ⟨e, he, hi', -⟩ : Holds aLen d l s i := by
      unfold ConsOk at hc
      cases hcons : s.cons <;> simp only [hcons, Cons.reading, reduceCtorEq] at hc hreading <;>
        obtain rfl := Option.some.inj hreading
      case read => exact hc
      case discard => exact hc
      case check => exact hc.1
      case release => exact hc.1
    have hne := h.ne_mWrite he
    rw [h.mWrite, ← hi, ← hi'] at hne
    exact hne rfl

theorem step_inv (hpos : 0 < aLen) (s : St) (m : Move) (h : ∃ d l, Inv aLen d l s)
    (hm : Undisturbed s m) : ∃ d l, Inv aLen d l (step aLen s m) := by
  obtain ⟨d, l, h⟩ := h
  cases m with
  | prod op =>
    obtain ⟨l', h'⟩ := stepProd_inv hpos h op hm
    exact ⟨d, l', h'⟩
  | cons => exact stepCons_inv h

/-- **In a run in which no clear stores `m_write` while the consumer works on an element or has stored
`m_read` since the clear loaded it, clearing is safe.** -/
theorem safe (hpos : 0 < aLen) (moves : List Move)
    (h : ∀ pre m post, moves = pre ++ m :: post → Undisturbed (run aLen start pre) m) :
    Safe (run aLen start moves) := by
  obtain ⟨d, l, hI⟩ := foldl_inv (step_inv hpos) moves ⟨0, [], inv_start hpos⟩ h
  exact safe_of_inv hI

/-- The consumer receives element 0, element 1 is cleared, and the consumer receives element 2. -/
def pushClearPush : List Move :=
  repeated [(5, .prod .push), (6, .cons), (5, .prod .push), (2, .prod .clear), (5, .prod .push), (6, .cons)]

theorem safe_second_push : Safe (run 4 start pushClearPush) ∧
    received (run 4 start pushClearPush).log = [0, 2] := by
  have hok : Along (step 4) Undisturbed start pushClearPush := by decide +kernel
  exact ⟨safe (by decide) pushClearPush hok.forall_split, by decide +kernel⟩

/-- The producer clears the queue and pushes the next element while the consumer reads the first one:
both have the slot 0. -/
theorem slot_shared : ¬ Safe (run 2 start (List.replicate 5 (.prod .push) ++ [.cons, .cons] ++
    List.replicate 2 (.prod .clear) ++ List.replicate 2 (.prod .push))) :=
  fun h => h.apart 0 rfl rfl

end Xstack.Sock.Clear
