import Xstack.Arp.Cache

/-! # The representation invariant of the ARP cache

The array and the tree are in step when the slots that can be reached from `arp_cache_head` are
those that hold an entry. The code takes `age ≥ 0` for "linked", which is true neither of a slot
that was never filled nor of an expired one, and it fills a static slot anew without unlinking it.

* `RepInv`: array and tree are in step. `RbCall.Ok`: a call of a tree macro that `tree.h` allows.
* `StepOk`: the calls that keep them in step, as a condition on the cache before the call.
* `scan_spec`: which slot `arp_cache_insert` takes.
* `step_inv`: a call that meets the condition keeps the invariant `Inv`.
* `run_repInv`: so does every run of such calls from start-up. -/

namespace Xstack.Arp.Invariant

open Xstack.Config Xstack.Tree.Macros Xstack.Tree.Find Xstack.Arp.Cache

/-- The slot holds an entry that was inserted and neither removed nor expired: only a slot that was
never filled has the address zero. -/
def Holds (c : ArpCache) (i : Slot) : Prop :=
  (c.slot i).ipAddr ≠ 0 ∧ (c.slot i).age ≠ arpCacheFree

/-- **Array and tree are in step.** -/
structure RepInv (c : ArpCache) : Prop where
  /-- The reachable slots form a tree, so each is linked once. -/
  tree : ∃ l, Valid c.head l
  linked : ∀ i, c.head.Reach i ↔ Holds c i
  distinct : ∀ i j, c.head.Reach i → c.head.Reach j → (c.slot i).ipAddr = (c.slot j).ipAddr → i = j

/-- `RB_REMOVE` gets a linked slot, `RB_INSERT` none that is linked under another address. -/
def RbCallOk : RbCall → Prop
  | .remove h elm => h.Reach elm
  | .insert h elm old new => h.Reach elm → old = new

/-! ### The condition -/

/-- The slot is not before the first dynamic one. -/
def Behind (c : ArpCache) (j : Slot) : Prop := ∃ f ≤ j, 0 ≤ (c.slot f).age

/-- The slot has the least age of all that are not before the first dynamic one, and it is the
first of that age. -/
def Youngest (c : ArpCache) (v : Slot) : Prop :=
  Behind c v ∧ ∀ j, Behind c j → (c.slot v).age ≤ (c.slot j).age ∧
    (j < v → (c.slot v).age < (c.slot j).age)

/-- The insertions that keep array and tree in step. A static entry for the address can be found;
for an address that is not in the array there is a free slot, or else the youngest slot is a
dynamic one that was filled before. -/
def InsertOk (c : ArpCache) (ipAddr : InAddr) (type : ArpCacheEntryType) : Prop :=
  ipAddr = 0 ∨ type ≠ .free ∧
    (∀ i, (c.slot i).ipAddr = ipAddr → (c.slot i).age = ArpCacheEntryType.static.toInt →
      c.arpCacheGetEntry ipAddr = some (some i)) ∧
    ((∀ i, (c.slot i).ipAddr ≠ ipAddr) → (∃ i, (c.slot i).age = arpCacheFree) ∨
      ∀ v, Youngest c v → (c.slot v).ipAddr ≠ 0 ∧ 0 ≤ (c.slot v).age)

/-- The updates that keep array and tree in step: no entry expires, no age overflows. -/
def UpdateOk (c : ArpCache) (deltaTime : ℤ) : Prop :=
  0 ≤ deltaTime ∧ (∀ i, Holds c i → (c.slot i).age ≤ arpCacheAgeMax) ∧
    ∀ i, 0 ≤ (c.slot i).age → (c.slot i).age ≤ arpCacheAgeMax →
      (c.slot i).age + deltaTime ≤ intMax

/-- **The calls that keep array and tree in step**, in terms of the cache before the call. -/
def StepOk (c : ArpCache) : ArpOp → Prop
  | .insert ipAddr _ type => InsertOk c ipAddr type
  | .remove ipAddr => ∃ i, c.arpCacheGetEntry ipAddr = some (some i)
  | .update deltaTime => UpdateOk c deltaTime

/-- All calls of a run meet the condition, each in the cache it is made in. -/
def RunOk (c : ArpCache) : List ArpOp → Prop
  | [] => True
  | op :: ops => StepOk c op ∧ ∀ c', c.step op = some c' → RunOk c' ops

instance (c : ArpCache) (i : Slot) : Decidable (Holds c i) :=
  inferInstanceAs (Decidable (_ ∧ _))

instance (c : ArpCache) (j : Slot) : Decidable (Behind c j) :=
  inferInstanceAs (Decidable (∃ f ≤ j, 0 ≤ (c.slot f).age))

instance (c : ArpCache) (v : Slot) : Decidable (Youngest c v) :=
  inferInstanceAs (Decidable (_ ∧ ∀ j, Behind c j → _))

instance (c : ArpCache) (ip : InAddr) (type : ArpCacheEntryType) : Decidable (InsertOk c ip type) :=
  inferInstanceAs (Decidable (_ ∨ _ ∧ (∀ i, (c.slot i).ipAddr = ip → _) ∧ (_ → _ ∨ ∀ _, _)))

instance (c : ArpCache) (deltaTime : ℤ) : Decidable (UpdateOk c deltaTime) :=
  inferInstanceAs (Decidable (_ ∧ (∀ i, Holds c i → _) ∧ ∀ i, 0 ≤ (c.slot i).age → _))

instance (c : ArpCache) : (op : ArpOp) → Decidable (StepOk c op)
  | .insert ip _ type => inferInstanceAs (Decidable (InsertOk c ip type))
  | .remove ip => inferInstanceAs (Decidable (∃ i, c.arpCacheGetEntry ip = some (some i)))
  | .update deltaTime => inferInstanceAs (Decidable (UpdateOk c deltaTime))

instance RunOk.decidable : (c : ArpCache) → (ops : List ArpOp) → Decidable (RunOk c ops)
  | _, [] => isTrue trivial
  | c, op :: ops =>
    have : Decidable (∀ c', c.step op = some c' → RunOk c' ops) :=
      match h : c.step op with
      | none => isTrue (by simp)
      | some c' =>
        have := RunOk.decidable c' ops
        decidable_of_iff (RunOk c' ops) (by simp)
    inferInstanceAs (Decidable (StepOk c op ∧ _))

/-! ### The invariant -/

/-- The invariant with the list `l` of the linked slots. In the whole array, free slots included,
no address other than zero stands twice. -/
structure Inv (c : ArpCache) (l : List Slot) : Prop where
  valid : Valid c.head l
  mem : ∀ i, i ∈ l ↔ Holds c i
  inj : ∀ i j, (c.slot i).ipAddr ≠ 0 → (c.slot i).ipAddr = (c.slot j).ipAddr → i = j
  age : ∀ i, arpCacheFree ≤ (c.slot i).age
  log : ∀ call ∈ c.rbLog, RbCallOk call

theorem Inv.repInv {c : ArpCache} {l : List Slot} (hi : Inv c l) : RepInv c where
  tree := ⟨l, hi.valid⟩
  linked i := (hi.valid.reach i).trans (hi.mem i)
  distinct i j h1 _ h3 := hi.inj i j ((hi.mem i).mp ((hi.valid.reach i).mp h1)).1 h3

theorem inv_init : Inv ArpCache.init [] where
  valid := valid_init
  mem i := by simp [Holds, ArpCache.init]
  inj i j h := absurd rfl h
  age i := by simp [ArpCache.init, arpCacheFree, ArpCacheEntryType.toInt]
  log := by simp [ArpCache.init]

theorem length_lt_fuel {l : List Slot} (hn : l.Nodup) : l.length < ArpCache.fuel := by
  have h := hn.length_le_card
  rw [Fintype.card_fin] at h
  unfold ArpCache.fuel
  omega

section
variable {c c' : ArpCache} {ipAddr : InAddr} {haddr : MacAddr} {type : ArpCacheEntryType} {retval : ℤ}

/-- The slot that an insert fills. -/
theorem insert_fills {e : Slot} (hip : ipAddr ≠ 0)
    (hscan : c.scan ipAddr (List.finRange xstackArpCacheSize) none = some e)
    (h : c.arpCacheInsert ipAddr haddr type = some (retval, c')) :
    c'.slot = Function.update c.slot e ⟨ipAddr, haddr, type.toInt⟩ := by
  unfold ArpCache.arpCacheInsert at h
  rw [if_neg hip, hscan] at h
  obtain ⟨c₁, h₁, h⟩ := Option.bind_eq_some_iff.mp h
  obtain ⟨c₂, h₂, h⟩ := Option.bind_eq_some_iff.mp h
  obtain ⟨-, rfl⟩ := Prod.mk.inj (Option.some.inj h)
  have hslot₁ : c₁.slot = c.slot := by
    unfold ArpCache.removeDyn at h₁
    split_ifs at h₁
    · obtain ⟨head, -, h₁⟩ := Option.bind_eq_some_iff.mp h₁
      rw [← Option.some.inj h₁]
    · rw [← Option.some.inj h₁]
  obtain ⟨x, -, h₂⟩ := Option.bind_eq_some_iff.mp h₂
  rw [← Option.some.inj h₂, ← hslot₁]
  rfl

/-- What an insert does to the slots. -/
theorem insert_slots (h : c.arpCacheInsert ipAddr haddr type = some (retval, c')) :
    c'.slot = c.slot ∨ ∃ e, c.scan ipAddr (List.finRange xstackArpCacheSize) none = some e ∧
      c'.slot = Function.update c.slot e ⟨ipAddr, haddr, type.toInt⟩ := by
  by_cases hip : ipAddr = 0
  · obtain ⟨-, rfl⟩ : retval = 0 ∧ c' = c := by
      simpa [ArpCache.arpCacheInsert, hip, eq_comm] using h
    exact Or.inl rfl
  · rcases hscan : c.scan ipAddr (List.finRange xstackArpCacheSize) none with _ | e
    · obtain ⟨-, rfl⟩ : retval = -1 ∧ c' = c := by
        simpa [ArpCache.arpCacheInsert, hip, hscan, eq_comm] using h
      exact Or.inl rfl
    · exact Or.inr ⟨e, rfl, insert_fills hip hscan h⟩

end

/-! ### The slot that is taken -/

theorem scan_match {c : ArpCache} {ip : InAddr} {i : Slot} (hi : (c.slot i).ipAddr = ip)
    (hu : ∀ j, (c.slot j).ipAddr = ip → j = i) : ∀ {its : List Slot} {entry : Option Slot},
    i ∈ its → c.scan ip its entry = some i
  | [], _, h => absurd h List.not_mem_nil
  | it :: rest, entry, h => by
    unfold ArpCache.scan
    by_cases hit : (c.slot it).ipAddr = ip
    · rw [if_pos hit, hu it hit]
    · rw [if_neg hit]
      rcases List.mem_cons.mp h with rfl | h
      · exact absurd hi hit
      · exact scan_match hi hu h

theorem scan_foldl {c : ArpCache} {ip : InAddr} (hne : ∀ j, (c.slot j).ipAddr ≠ ip) :
    ∀ (its : List Slot) (entry : Option Slot),
      c.scan ip its entry = its.foldl c.better entry
  | [], _ => rfl
  | it :: rest, entry => by
    unfold ArpCache.scan
    rw [if_neg (hne it), scan_foldl hne rest, List.foldl_cons]

/-- What the loop holds after the slots of `d`. -/
def Best (c : ArpCache) (d : List Slot) (r : Option Slot) : Prop :=
  (r = none ∧ ∀ j ∈ d, (c.slot j).age ≠ arpCacheFree ∧ (c.slot j).age < 0) ∨
  (∃ e ∈ d, r = some e ∧ (c.slot e).age = arpCacheFree) ∨
  ∃ e ∈ d, r = some e ∧ (∀ j ∈ d, (c.slot j).age ≠ arpCacheFree) ∧
    (∃ f ∈ d, f ≤ e ∧ 0 ≤ (c.slot f).age) ∧
    ∀ j ∈ d, (∃ f ∈ d, f ≤ j ∧ 0 ≤ (c.slot f).age) →
      (c.slot e).age ≤ (c.slot j).age ∧ (j < e → (c.slot e).age < (c.slot j).age)

section

variable {c : ArpCache} {d : List Slot} {x : Slot} (hx : ∀ j ∈ d, j < x)
include hx

/-- The slots before `x` are behind a dynamic slot as before. -/
theorem behind_of_snoc {j : Slot} (hj : j ∈ d) (h : ∃ f ∈ d ++ [x], f ≤ j ∧ 0 ≤ (c.slot f).age) :
    ∃ f ∈ d, f ≤ j ∧ 0 ≤ (c.slot f).age := by
  obtain ⟨f, hf, hfj, hf0⟩ := h
  rcases List.mem_append.mp hf with hf | hf
  · exact ⟨f, hf, hfj, hf0⟩
  · rw [List.mem_singleton.mp hf] at hfj
    exact absurd hfj (not_le.mpr (hx j hj))

/-- No slot was chosen, and `x` is not free. -/
theorem best_snoc_none (hd : ∀ j ∈ d, (c.slot j).age ≠ arpCacheFree ∧ (c.slot j).age < 0)
    (hfree : (c.slot x).age ≠ arpCacheFree) :
    Best c (d ++ [x]) (if (c.slot x).age ≥ 0 then some x else none) := by
  by_cases h0 : (c.slot x).age ≥ 0
  · rw [if_pos h0]
    refine Or.inr (Or.inr ⟨x, by simp, rfl, ?_, ⟨x, by simp, le_rfl, h0⟩, ?_⟩)
    · exact List.forall_mem_append.mpr ⟨fun j hj => (hd j hj).1, List.forall_mem_singleton.mpr hfree⟩
    · refine List.forall_mem_append.mpr ⟨fun j hj hjf => ?_, List.forall_mem_singleton.mpr fun _ => ?_⟩
      · obtain ⟨f, hf, -, hf0⟩ := behind_of_snoc hx hj hjf
        exact absurd hf0 (not_le.mpr (hd f hf).2)
      · exact ⟨le_rfl, fun h => absurd h (lt_irrefl _)⟩
  · rw [if_neg h0]
    refine Or.inl ⟨rfl, List.forall_mem_append.mpr ⟨hd, List.forall_mem_singleton.mpr ?_⟩⟩
    exact ⟨hfree, not_le.mp h0⟩

/-- The slot `e` is the youngest so far, and `x` is not free. -/
theorem best_snoc_some {e f : Slot} (he : e ∈ d) (hd : ∀ j ∈ d, (c.slot j).age ≠ arpCacheFree)
    (hf : f ∈ d) (hfe : f ≤ e) (hf0 : 0 ≤ (c.slot f).age)
    (hmin : ∀ j ∈ d, (∃ f ∈ d, f ≤ j ∧ 0 ≤ (c.slot f).age) →
      (c.slot e).age ≤ (c.slot j).age ∧ (j < e → (c.slot e).age < (c.slot j).age))
    (hfree : (c.slot x).age ≠ arpCacheFree) :
    Best c (d ++ [x]) (some (if (c.slot e).age > (c.slot x).age then x else e)) := by
  have hall : ∀ j ∈ d ++ [x], (c.slot j).age ≠ arpCacheFree :=
    List.forall_mem_append.mpr ⟨hd, List.forall_mem_singleton.mpr hfree⟩
  by_cases hlt : (c.slot e).age > (c.slot x).age
  · rw [if_pos hlt]
    refine Or.inr (Or.inr ⟨x, by simp, rfl, hall, ⟨f, by simp [hf], (hx f hf).le, hf0⟩,
      List.forall_mem_append.mpr ⟨fun j hj hjf => ?_, List.forall_mem_singleton.mpr fun _ => ?_⟩⟩)
    · have hle := (hmin j hj (behind_of_snoc hx hj hjf)).1
      exact ⟨by omega, fun _ => by omega⟩
    · exact ⟨le_rfl, fun h => absurd h (lt_irrefl _)⟩
  · rw [if_neg hlt]
    refine Or.inr (Or.inr ⟨e, by simp [he], rfl, hall, ⟨f, by simp [hf], hfe, hf0⟩,
      List.forall_mem_append.mpr ⟨fun j hj hjf => ?_, List.forall_mem_singleton.mpr fun _ => ?_⟩⟩)
    · exact hmin j hj (behind_of_snoc hx hj hjf)
    · exact ⟨not_lt.mp hlt, fun h => absurd h (not_lt.mpr (hx e he).le)⟩

theorem best_snoc (hage : ∀ i, arpCacheFree ≤ (c.slot i).age) {r : Option Slot}
    (hb : Best c d r) : Best c (d ++ [x]) (c.better r x) := by
  unfold ArpCache.better
  by_cases hfree : (c.slot x).age = arpCacheFree
  · rw [if_pos hfree]
    exact Or.inr (Or.inl ⟨x, by simp, rfl, hfree⟩)
  rw [if_neg hfree]
  rcases hb with ⟨rfl, hd⟩ | ⟨e, he, rfl, hef⟩ | ⟨e, he, rfl, hd, ⟨f, hf, hfe, hf0⟩, hmin⟩
  · exact best_snoc_none hx hd hfree
  · have hle := hage x
    simp only [if_neg (show ¬ (c.slot e).age > (c.slot x).age by omega)]
    exact Or.inr (Or.inl ⟨e, by simp [he], rfl, hef⟩)
  · have hbest := best_snoc_some hx he hd hf hfe hf0 hmin hfree
    rwa [apply_ite some] at hbest

end

theorem best_foldl {c : ArpCache} (hage : ∀ i, arpCacheFree ≤ (c.slot i).age) (d : List Slot)
    (hd : d.Pairwise (· < ·)) : Best c d (d.foldl c.better none) := by
  induction d using List.reverseRecOn with
  | nil => exact Or.inl ⟨rfl, by simp⟩
  | append_singleton d x ih =>
    rw [List.pairwise_append] at hd
    rw [List.foldl_append]
    exact best_snoc (fun j hj => hd.2.2 j hj x (by simp)) hage (ih hd.1)

/-- For an address that is not in the array, `arp_cache_insert` takes a free slot, and if there is
none the youngest one. -/
theorem scan_spec {c : ArpCache} {ip : InAddr} (hage : ∀ i, arpCacheFree ≤ (c.slot i).age)
    (hne : ∀ j, (c.slot j).ipAddr ≠ ip) {e : Slot}
    (hs : c.scan ip (List.finRange xstackArpCacheSize) none = some e) :
    (c.slot e).age = arpCacheFree ∨
      (∀ j, (c.slot j).age ≠ arpCacheFree) ∧ Youngest c e := by
  rw [scan_foldl hne] at hs
  have hb := best_foldl hage (List.finRange xstackArpCacheSize) (List.pairwise_lt_finRange _)
  rw [hs] at hb
  rcases hb with ⟨h, -⟩ | ⟨e', -, h, hf⟩ | ⟨e', -, h, hf, ⟨f, -, hfe, hf0⟩, hmin⟩
  · exact absurd h (by simp)
  · rw [Option.some.inj h]
    exact Or.inl hf
  · rw [Option.some.inj h]
    refine Or.inr ⟨fun j => hf j (List.mem_finRange j), ⟨f, hfe, hf0⟩, ?_⟩
    rintro j ⟨g, hgj, hg0⟩
    exact hmin j (List.mem_finRange j) ⟨g, List.mem_finRange g, hgj, hg0⟩

/-- Under the condition of an insertion, the slot for a new address is free, or dynamic and filled. -/
theorem scan_fresh {c : ArpCache} {ip : InAddr} (hage : ∀ i, arpCacheFree ≤ (c.slot i).age)
    (hne : ∀ j, (c.slot j).ipAddr ≠ ip)
    (hfresh : (∃ i, (c.slot i).age = arpCacheFree) ∨
      ∀ v, Youngest c v → (c.slot v).ipAddr ≠ 0 ∧ 0 ≤ (c.slot v).age) {e : Slot}
    (hs : c.scan ip (List.finRange xstackArpCacheSize) none = some e) :
    (c.slot e).age = arpCacheFree ∨ (c.slot e).ipAddr ≠ 0 ∧ 0 ≤ (c.slot e).age := by
  refine (scan_spec hage hne hs).imp_right fun ⟨hnf, hy⟩ => ?_
  rcases hfresh with ⟨i, hfree⟩ | hfresh
  · exact absurd hfree (hnf i)
  · exact hfresh e hy

/-! ### One call -/

theorem arpCacheCmp_eq_zero {c : ArpCache} {ip : InAddr} {i : Slot} :
    c.arpCacheCmp ip i = 0 ↔ (c.slot i).ipAddr = ip := by
  unfold ArpCache.arpCacheCmp
  rw [addrCmp_eq_zero]
  exact eq_comm

/-- What is left of the invariant when one slot `e` is filled with the address `ip`. -/
theorem inv_fill {c c' : ArpCache} {l l' : List Slot} {e : Slot} {ip : InAddr} {mac : MacAddr}
    {type : ArpCacheEntryType} (hi : Inv c l) (hip : ip ≠ 0) (htype : type ≠ .free)
    (hne : ∀ j, (c.slot j).ipAddr = ip → j = e) (hv : Valid c'.head l')
    (hl : ∀ j, j ∈ l' ↔ j = e ∨ j ∈ l)
    (hs : c'.slot = Function.update c.slot e ⟨ip, mac, type.toInt⟩)
    (hlog : ∀ call ∈ c'.rbLog, RbCallOk call) : Inv c' l' where
  valid := hv
  mem j := by
    rw [hl, hi.mem]
    unfold Holds
    rw [hs]
    by_cases hj : j = e
    · rw [hj, Function.update_self]
      have ht : type.toInt ≠ arpCacheFree := by
        rcases type with _ | _ | _
        · exact absurd rfl htype
        · decide
        · decide
      simp [hip, ht]
    · rw [Function.update_of_ne hj]
      simp [hj]
  inj i j h0 heq := by
    rw [hs] at h0 heq
    by_cases hie : i = e
    · by_cases hje : j = e
      · rw [hie, hje]
      · rw [hie, Function.update_self, Function.update_of_ne hje] at heq
        exact absurd (hne j heq.symm) hje
    · rw [Function.update_of_ne hie] at h0 heq
      by_cases hje : j = e
      · rw [hje, Function.update_self] at heq
        exact absurd (hne i heq) hie
      · rw [Function.update_of_ne hje] at heq
        exact hi.inj i j h0 heq
  age i := by
    rw [hs]
    by_cases hie : i = e
    · rw [hie, Function.update_self]
      have ht : arpCacheFree ≤ type.toInt := by
        rcases type with _ | _ | _ <;> decide
      exact ht
    · rw [Function.update_of_ne hie]
      exact hi.age i
  log := hlog

theorem place_of_insert {c : ArpCache} {e : Slot} {ip : InAddr} {mac : MacAddr}
    {type : ArpCacheEntryType} {h' : Rb Slot} {r : Option Slot}
    (h : c.head.rbInsert ArpCache.fuel ((c.fill e ip mac type).arpCacheCmp ip) e = some (h', r)) :
    c.place e ip mac type = some { c.fill e ip mac type with
      head := h', rbLog := c.rbLog ++ [.insert c.head e (c.slot e).ipAddr ip] } := by
  have hfill : (c.fill e ip mac type).head = c.head := rfl
  simp only [ArpCache.place, hfill, h, Option.bind_eq_bind, Option.bind_some]
  rfl

/-- `place` of a slot that is not linked. -/
theorem place_spec {c : ArpCache} {l : List Slot} {e : Slot} {ip : InAddr} (mac : MacAddr)
    (type : ArpCacheEntryType) (hv : Valid c.head l) (he : e ∉ l)
    (hne : ∀ j ∈ l, (c.slot j).ipAddr ≠ ip) :
    ∃ c' l', c.place e ip mac type = some c' ∧ Valid c'.head l' ∧
      (∀ j, j ∈ l' ↔ j = e ∨ j ∈ l) ∧
      c'.slot = Function.update c.slot e ⟨ip, mac, type.toInt⟩ ∧
      c'.rbLog = c.rbLog ++ [.insert c.head e (c.slot e).ipAddr ip] := by
  have hcmp : ∀ z ∈ l, (c.fill e ip mac type).arpCacheCmp ip z ≠ 0 := by
    intro z hz h0
    have hze : z ≠ e := fun h => he (h ▸ hz)
    rw [arpCacheCmp_eq_zero] at h0
    simp only [ArpCache.fill, Function.update_of_ne hze] at h0
    exact hne z hz h0
  obtain ⟨h', p, q, h1, h2, rfl, -, -⟩ := valid_insert _ hv (length_lt_fuel hv.nodup) he hcmp
  refine ⟨_, p ++ e :: q, place_of_insert h1, h2, fun j => ?_, rfl, rfl⟩
  simp only [List.mem_append, List.mem_cons]
  tauto

theorem remove_spec {c : ArpCache} {l : List Slot} {e : Slot} (hv : Valid c.head l) (he : e ∈ l) :
    ∃ c', c.remove e = some c' ∧ Valid c'.head (l.erase e) ∧ c'.slot = c.slot ∧
      c'.rbLog = c.rbLog ++ [.remove c.head e] := by
  obtain ⟨h', h1, h2, -⟩ := valid_remove hv (length_lt_fuel hv.nodup).le he
  refine ⟨{ c with head := h', rbLog := c.rbLog ++ [.remove c.head e] }, ?_, h2, rfl, rfl⟩
  unfold ArpCache.remove
  rw [h1]
  rfl

/-- The chosen slot is dynamic and linked: it is unlinked, filled and linked again. -/
theorem insert_linked {c : ArpCache} {l : List Slot} {e : Slot} {ip : InAddr} {mac : MacAddr}
    {type : ArpCacheEntryType} (hi : Inv c l) (hip : ip ≠ 0) (htype : type ≠ .free) (he : e ∈ l)
    (hne : ∀ j, (c.slot j).ipAddr = ip → j = e) :
    ∃ c', (c.remove e).bind (fun c => c.place e ip mac type) = some c' ∧ ∃ l', Inv c' l' := by
  have hn := hi.valid.nodup
  obtain ⟨c1, h1, hv1, hs1, hlog1⟩ := remove_spec hi.valid he
  have hne1 : ∀ j ∈ l.erase e, (c1.slot j).ipAddr ≠ ip := by
    intro j hj heq
    rw [hs1] at heq
    rw [hne j heq] at hj
    exact hn.not_mem_erase hj
  obtain ⟨c2, l2, h2, hv2, hl2, hs2, hlog2⟩ :=
    place_spec mac type hv1 hn.not_mem_erase hne1
  refine ⟨c2, by rw [h1]; exact h2, l2, ?_⟩
  refine inv_fill hi hip htype hne hv2 (fun j => ?_) (by rw [hs2, hs1]) ?_
  · rw [hl2, hn.mem_erase_iff]
    by_cases hj : j = e
    · simp [hj]
    · simp [hj]
  · rw [hlog2, hlog1]
    intro call hcall
    simp only [List.mem_append, List.mem_singleton] at hcall
    rcases hcall with (hcall | rfl) | rfl
    · exact hi.log call hcall
    · exact (hi.valid.reach e).mpr he
    · intro hr
      exact absurd ((hv1.reach e).mp hr) hn.not_mem_erase

/-- The chosen slot is not linked: it is filled and linked. -/
theorem insert_unlinked {c : ArpCache} {l : List Slot} {e : Slot} {ip : InAddr} {mac : MacAddr}
    {type : ArpCacheEntryType} (hi : Inv c l) (hip : ip ≠ 0) (htype : type ≠ .free) (he : e ∉ l)
    (hne : ∀ j, (c.slot j).ipAddr = ip → j = e) :
    ∃ c', c.place e ip mac type = some c' ∧ ∃ l', Inv c' l' := by
  have hne1 : ∀ j ∈ l, (c.slot j).ipAddr ≠ ip := fun j hj heq => he (hne j heq ▸ hj)
  obtain ⟨c2, l2, h2, hv2, hl2, hs2, hlog2⟩ :=
    place_spec mac type hi.valid he hne1
  refine ⟨c2, h2, l2, inv_fill hi hip htype hne hv2 hl2 hs2 ?_⟩
  rw [hlog2]
  intro call hcall
  rcases List.mem_append.mp hcall with hcall | hcall
  · exact hi.log call hcall
  · rw [List.mem_singleton.mp hcall]
    intro hr
    exact absurd ((hi.valid.reach e).mp hr) he

/-- The chosen slot is linked under the same address and `RB_INSERT` meets it: the tree stays. -/
theorem insert_same {c : ArpCache} {l : List Slot} {e : Slot} {ip : InAddr} {mac : MacAddr}
    {type : ArpCacheEntryType} (hi : Inv c l) (hip : ip ≠ 0) (htype : type ≠ .free) (he : e ∈ l)
    (heip : (c.slot e).ipAddr = ip) (hf : c.arpCacheGetEntry ip = some (some e)) :
    ∃ c', c.place e ip mac type = some c' ∧ ∃ l', Inv c' l' := by
  have hcmp : (c.fill e ip mac type).arpCacheCmp ip = c.arpCacheCmp ip := by
    funext j
    unfold ArpCache.arpCacheCmp ArpCache.fill
    by_cases hj : j = e
    · simp only [hj, heip, Function.update_self]
    · simp only [Function.update_of_ne hj]
  have hins : c.head.rbInsert ArpCache.fuel ((c.fill e ip mac type).arpCacheCmp ip) e =
      some (c.head, some e) := by
    rw [hcmp]
    exact rbInsert_found hf
  have hne : ∀ j, (c.slot j).ipAddr = ip → j = e := fun j hj =>
    hi.inj j e (by rw [hj]; exact hip) (hj.trans heip.symm)
  refine ⟨_, place_of_insert hins, l, ?_⟩
  refine inv_fill hi hip htype hne hi.valid (fun j => ?_) rfl ?_
  · exact ⟨Or.inr, fun h => h.elim (fun h => h ▸ he) id⟩
  · intro call hcall
    rcases List.mem_append.mp hcall with hcall | hcall
    · exact hi.log call hcall
    · rw [List.mem_singleton.mp hcall]
      exact fun _ => heip

/-- `arp_cache_insert` under its condition. -/
theorem insert_inv {c : ArpCache} {l : List Slot} {ip : InAddr} (mac : MacAddr)
    {type : ArpCacheEntryType} (hi : Inv c l) (hok : InsertOk c ip type) :
    ∃ r c', c.arpCacheInsert ip mac type = some (r, c') ∧ ∃ l', Inv c' l' := by
  unfold ArpCache.arpCacheInsert
  by_cases hip : ip = 0
  · rw [if_pos hip]
    exact ⟨0, c, rfl, l, hi⟩
  rw [if_neg hip]
  obtain ⟨htype, hstatic, hfresh⟩ := hok.resolve_left hip
  rcases hscan : c.scan ip (List.finRange xstackArpCacheSize) none with _ | e
  · exact ⟨-1, c, rfl, l, hi⟩
  have hage := hi.age
  have hne : ∀ j, (c.slot j).ipAddr = ip → j = e := by
    intro j hj
    have hu : ∀ i, (c.slot i).ipAddr = ip → i = j := fun i h =>
      hi.inj i j (by rw [h]; exact hip) (h.trans hj.symm)
    rw [scan_match hj hu (List.mem_finRange j)] at hscan
    exact Option.some.inj hscan
  suffices h : ∃ c', (c.removeDyn e).bind (fun c => c.place e ip mac type) = some c' ∧
      ∃ l', Inv c' l' by
    obtain ⟨c', h1, h2⟩ := h
    obtain ⟨c1, hc1, hc2⟩ := Option.bind_eq_some_iff.mp h1
    refine ⟨0, c', ?_, h2⟩
    simp only [hc1, hc2, Option.bind_eq_bind, Option.bind_some]
    rfl
  unfold ArpCache.removeDyn
  by_cases hdyn : (c.slot e).age ≥ 0
  · rw [if_pos hdyn]
    refine insert_linked hi hip htype ((hi.mem e).mpr ⟨?_, ?_⟩) hne
    · by_cases hm : (c.slot e).ipAddr = ip
      · rw [hm]
        exact hip
      · have hno : ∀ j, (c.slot j).ipAddr ≠ ip := fun j hj => hm (hne j hj ▸ hj)
        rcases scan_fresh hage hno (hfresh hno) hscan with h | h
        · rw [h] at hdyn
          exact absurd hdyn (by decide)
        · exact h.1
    · intro h
      rw [h] at hdyn
      exact absurd hdyn (by decide)
  · rw [if_neg hdyn, Option.bind_some]
    by_cases hm : e ∈ l
    · have hh := (hi.mem e).mp hm
      have hst : (c.slot e).age = ArpCacheEntryType.static.toInt := by
        have h1 := hage e
        have h2 := hh.2
        simp only [arpCacheFree, ArpCacheEntryType.toInt] at h1 h2 ⊢
        omega
      by_cases heip : (c.slot e).ipAddr = ip
      · exact insert_same hi hip htype hm heip (hstatic e heip hst)
      · have hno : ∀ j, (c.slot j).ipAddr ≠ ip := fun j hj => heip (hne j hj ▸ hj)
        rcases scan_fresh hage hno (hfresh hno) hscan with h | h
        · exact absurd h hh.2
        · exact absurd h.2 hdyn
    · exact insert_unlinked hi hip htype hm hne

/-- `arp_cache_remove` of an entry that the search finds. -/
theorem remove_inv {c : ArpCache} {l : List Slot} {ip : InAddr} (hi : Inv c l)
    (hok : ∃ i, c.arpCacheGetEntry ip = some (some i)) :
    ∃ c', c.arpCacheRemove ip = some c' ∧ ∃ l', Inv c' l' := by
  obtain ⟨e, hfind⟩ := hok
  have hn := hi.valid.nodup
  obtain ⟨r, hr, hmem, -⟩ :=
    valid_find (c.arpCacheCmp ip) hi.valid (length_lt_fuel hn)
  have hre : r = some e := Option.some.inj (hr.symm.trans hfind)
  have he : e ∈ l := (hmem e hre).1
  obtain ⟨c1, h1, hv1, hs1, hlog1⟩ := remove_spec hi.valid he
  refine ⟨{ c1 with slot := Function.update c1.slot e { c1.slot e with age := arpCacheFree } },
    ?_, l.erase e, ⟨hv1, fun j => ?_, fun i j h0 h => ?_, fun i => ?_, ?_⟩⟩
  · unfold ArpCache.arpCacheRemove
    rw [hfind]
    simp only [Option.bind_eq_bind, Option.bind_some, h1]
    rfl
  · rw [hn.mem_erase_iff, hi.mem]
    unfold Holds
    by_cases hj : j = e
    · simp [hj]
    · simp only [Function.update_of_ne hj, hs1]
      simp [hj]
  · have hip : ∀ k, ((Function.update c1.slot e { c1.slot e with age := arpCacheFree }) k).ipAddr =
        (c.slot k).ipAddr := by
      intro k
      by_cases hk : k = e
      · rw [hk, Function.update_self, hs1]
      · rw [Function.update_of_ne hk, hs1]
    simp only [hip] at h0 h
    exact hi.inj i j h0 h
  · by_cases hie : i = e
    · simp only [hie, Function.update_self]
      exact le_rfl
    · simp only [Function.update_of_ne hie, hs1]
      exact hi.age i
  · intro call hcall
    simp only [hlog1, List.mem_append, List.mem_singleton] at hcall
    rcases hcall with hcall | rfl
    · exact hi.log call hcall
    · exact (hi.valid.reach e).mpr he

/-- `arp_cache_update` when no entry expires. -/
theorem update_inv {c : ArpCache} {l : List Slot} {δ : ℤ} (hi : Inv c l) (hok : UpdateOk c δ) :
    ∃ c', c.arpCacheUpdate δ = some c' ∧ Inv c' l := by
  obtain ⟨hδ, hexp, hovf⟩ := hok
  have hfree : arpCacheFree = -2 := rfl
  have hmax : arpCacheAgeMax = 72000 := rfl
  have hint : intMax = 2147483647 := rfl
  have hip : ∀ i, (ArpCache.ageSlot δ (c.slot i)).ipAddr = (c.slot i).ipAddr := by
    intro i
    unfold ArpCache.ageSlot
    split_ifs <;> rfl
  have hage : ∀ i, (c.slot i).age < 0 ∧ (ArpCache.ageSlot δ (c.slot i)).age = (c.slot i).age ∨
      arpCacheAgeMax < (c.slot i).age ∧ (ArpCache.ageSlot δ (c.slot i)).age = arpCacheFree ∨
      0 ≤ (c.slot i).age ∧ (c.slot i).age ≤ arpCacheAgeMax ∧
        (ArpCache.ageSlot δ (c.slot i)).age = (c.slot i).age + δ := by
    intro i
    unfold ArpCache.ageSlot
    split_ifs with h1 h2
    · exact Or.inr (Or.inl ⟨h1, rfl⟩)
    · exact Or.inr (Or.inr ⟨h2, not_lt.mp h1, rfl⟩)
    · exact Or.inl ⟨not_le.mp h2, rfl⟩
  have hbound : ∀ i, -intMax - 1 ≤ (ArpCache.ageSlot δ (c.slot i)).age ∧
      (ArpCache.ageSlot δ (c.slot i)).age ≤ intMax := by
    intro i
    have h0 := hi.age i
    rcases hage i with ⟨h1, h2⟩ | ⟨h1, h2⟩ | ⟨h1, h2, h3⟩
    · omega
    · omega
    · have := hovf i h1 h2
      omega
  refine ⟨{ c with slot := fun i => ArpCache.ageSlot δ (c.slot i) }, ?_,
    ⟨hi.valid, fun i => ?_, fun i j h0 h => ?_, fun i => ?_, hi.log⟩⟩
  · unfold ArpCache.arpCacheUpdate
    rw [if_pos hbound]
  · rw [hi.mem]
    unfold Holds
    simp only [hip]
    refine and_congr_right fun h0 => ?_
    have hexp' : (c.slot i).age ≠ arpCacheFree → (c.slot i).age ≤ arpCacheAgeMax :=
      fun h => hexp i ⟨h0, h⟩
    rcases hage i with ⟨h1, h2⟩ | ⟨h1, h2⟩ | ⟨h1, h2, h3⟩
    · rw [h2]
    · omega
    · omega
  · simp only [hip] at h0 h
    exact hi.inj i j h0 h
  · have h0 := hi.age i
    show arpCacheFree ≤ (ArpCache.ageSlot δ (c.slot i)).age
    rcases hage i with ⟨h1, h2⟩ | ⟨h1, h2⟩ | ⟨h1, h2, h3⟩
    · rw [h2]
      exact h0
    · exact h2.ge
    · omega

/-- **One call that meets the condition keeps the invariant.** -/
theorem step_inv {c : ArpCache} {l : List Slot} {op : ArpOp} (hi : Inv c l) (hok : StepOk c op) :
    ∃ c', c.step op = some c' ∧ ∃ l', Inv c' l' := by
  rcases op with ⟨ip, mac, type⟩ | ip | δ
  · obtain ⟨r, c', h1, h2⟩ := insert_inv mac hi hok
    exact ⟨c', by simp [ArpCache.step, h1], h2⟩
  · exact remove_inv hi hok
  · obtain ⟨c', h1, h2⟩ := update_inv hi hok
    exact ⟨c', h1, l, h2⟩

theorem run_inv : ∀ {ops : List ArpOp} {c : ArpCache} {l : List Slot}, Inv c l → RunOk c ops →
    ∀ pre, pre <+: ops → ∃ c', c.run pre = some c' ∧ ∃ l', Inv c' l'
  | ops, c, l, hi, _, [], _ => ⟨c, rfl, l, hi⟩
  | [], c, l, hi, _, op :: pre, hp => absurd hp (by simp)
  | op' :: ops, c, l, hi, hok, op :: pre, hp => by
    obtain ⟨rfl, hp'⟩ := List.cons_prefix_cons.mp hp
    obtain ⟨c1, h1, l1, hi1⟩ := step_inv hi hok.1
    obtain ⟨c2, h2, hi2⟩ := run_inv hi1 (hok.2 c1 h1) pre hp'
    refine ⟨c2, ?_, hi2⟩
    unfold ArpCache.run
    rw [h1]
    exact h2

/-- **In every run from start-up whose calls meet the condition, array and tree are in step after
each call** and every call of a tree macro was allowed. -/
theorem run_repInv (ops : List ArpOp) (hok : RunOk ArpCache.init ops) (pre : List ArpOp)
    (hp : pre <+: ops) : ∃ c, ArpCache.init.run pre = some c ∧ RepInv c ∧
      ∀ call ∈ c.rbLog, RbCallOk call := by
  obtain ⟨c, h1, l, hi⟩ := run_inv inv_init hok pre hp
  exact ⟨c, h1, hi.repInv, hi.log⟩

/-- Twenty hours without traffic make all slots free; after that a dynamic entry, a second one and
a removal. -/
theorem run_repInv_quiet_start : ∃ c, ArpCache.init.run [.update 72001, .update 10,
    .insert 5 (fun _ => 1) .dyn, .insert 7 (fun _ => 2) .static, .insert 7 (fun _ => 3) .static,
    .update 10, .remove 5] = some c ∧ RepInv c ∧ ∀ call ∈ c.rbLog, RbCallOk call :=
  run_repInv _ (by decide +kernel) _ (List.prefix_refl _)

/-- An entry expires but stays linked. -/
theorem expired_linked : ¬ ∀ ops pre : List ArpOp, pre <+: ops →
    ∃ c, ArpCache.init.run pre = some c ∧ RepInv c ∧ ∀ call ∈ c.rbLog, RbCallOk call := by
  intro h
  obtain ⟨c, h1, h2, -⟩ := h [.insert 5 (fun _ => 1) .dyn, .update 72001, .update 10] _
    (List.prefix_refl _)
  have h3 : (ArpCache.init.run [.insert 5 (fun _ => 1) .dyn, .update 72001, .update 10]).map
      (fun c => (c.head.root, (c.slot 0).age)) = some (some 0, arpCacheFree) := by
    decide +kernel
  rw [h1, Option.map_some, Option.some.injEq, Prod.mk.injEq] at h3
  exact ((h2.linked 0).mp (.root h3.1)).2 h3.2

end Xstack.Arp.Invariant
