import Xstack.Arp.Invariant
import Xstack.Arp.Static

/-! # The entry that has to go

`config.h` says that a full ARP cache gives up its oldest dynamic entry. The loop of
`arp_cache_insert` starts at the first dynamic slot and from there on goes to every slot of a smaller
age: to a younger dynamic entry, and to a static one, whose age is `-1`. So the oldest dynamic
entry goes iff nothing behind the first dynamic slot is static or of another age
(`follows_policy_iff`). -/

namespace Xstack.Arp.Evict

open Xstack.Config Xstack.Tree.Macros Xstack.Tree.Find Xstack.Arp.Cache Xstack.Arp.Invariant
open Xstack.Arp.Static

/-- The slot holds a static entry. -/
def IsStatic (c : ArpCache) (i : Slot) : Prop :=
  (c.slot i).age = ArpCacheEntryType.static.toInt

/-- No slot is free: each holds a static or a dynamic entry, and the dynamic ones, which
`arp_cache_insert` unlinks before it fills them anew, are in the tree. -/
structure Full (c : ArpCache) : Prop where
  used : ∀ i, IsStatic c i ∨ 0 ≤ (c.slot i).age
  linked : ∃ l, Valid c.head l ∧ ∀ i, 0 ≤ (c.slot i).age → i ∈ l

/-- A dynamic entry such that none is older. -/
def Oldest (c : ArpCache) (e : Slot) : Prop :=
  0 ≤ (c.slot e).age ∧ ∀ j, (c.slot j).age ≤ (c.slot e).age

/-- **The policy of `config.h`** for one insert. -/
structure Follows (c : ArpCache) (ipAddr : InAddr) (haddr : MacAddr) (type : ArpCacheEntryType) :
    Prop where
  /-- The oldest dynamic entry goes, all others stay. -/
  evicts : (∃ i, ¬ IsStatic c i) → ∃ e c', c.arpCacheInsert ipAddr haddr type = some (0, c') ∧
    Oldest c e ∧ c'.slot = Function.update c.slot e ⟨ipAddr, haddr, type.toInt⟩
  fails : (∃ c', c.arpCacheInsert ipAddr haddr type = some (-1, c')) ↔ ∀ i, IsStatic c i
  unchanged : ∀ c', c.arpCacheInsert ipAddr haddr type = some (-1, c') → c' = c

/-- All slots from the first dynamic one on have one age. -/
def OneAge (c : ArpCache) : Prop :=
  ∀ i j, Behind c i → Behind c j → (c.slot i).age = (c.slot j).age

variable {c : ArpCache} {ipAddr : InAddr} {haddr : MacAddr} {type : ArpCacheEntryType}

theorem isStatic_iff {i : Slot} : IsStatic c i ↔ (c.slot i).age = -1 := Iff.rfl

theorem Full.age (h : Full c) (i : Slot) : -1 ≤ (c.slot i).age := by
  rcases h.used i with hi | hi
  · rw [isStatic_iff] at hi
    omega
  · omega

theorem Full.free_le (h : Full c) (i : Slot) : arpCacheFree ≤ (c.slot i).age := by
  have hi := h.age i
  have hfree : arpCacheFree = -2 := rfl
  omega

theorem Full.dyn (h : Full c) {i : Slot} (hi : ¬ IsStatic c i) : 0 ≤ (c.slot i).age :=
  (h.used i).resolve_left hi

theorem behind_self {i : Slot} (hi : 0 ≤ (c.slot i).age) : Behind c i := ⟨i, le_rfl, hi⟩

/-! ### The slot that is taken -/

theorem scan_youngest (h : Full c) (hnew : ∀ i, (c.slot i).ipAddr ≠ ipAddr) {v : Slot}
    (hv : c.scan ipAddr (List.finRange xstackArpCacheSize) none = some v) : Youngest c v := by
  rcases scan_spec h.free_le hnew hv with hfree | ⟨-, hy⟩
  · have hage := h.age v
    have hfree' : arpCacheFree = -2 := rfl
    omega
  · exact hy

/-- No slot is taken iff all are static. -/
theorem scan_eq_none_iff (h : Full c) (hnew : ∀ i, (c.slot i).ipAddr ≠ ipAddr) :
    c.scan ipAddr (List.finRange xstackArpCacheSize) none = none ↔ ∀ i, IsStatic c i := by
  constructor
  · intro hscan i
    rw [scan_foldl hnew] at hscan
    have hb := best_foldl h.free_le (List.finRange xstackArpCacheSize) (List.pairwise_lt_finRange _)
    rw [hscan] at hb
    rcases hb with ⟨-, hb⟩ | ⟨e, -, he, -⟩ | ⟨e, -, he, -⟩
    · exact (h.used i).resolve_right (not_le.mpr (hb i (List.mem_finRange i)).2)
    · cases he
    · cases he
  · intro hall
    rcases hscan : c.scan ipAddr (List.finRange xstackArpCacheSize) none with _ | v
    · rfl
    · obtain ⟨⟨f, -, hf⟩, -⟩ := scan_youngest h hnew hscan
      have hst := isStatic_iff.mp (hall f)
      omega

/-- An insert that changes one slot changes the one the loop has chosen. -/
theorem evicted_eq {c' : ArpCache} {e : Slot} (hnew : ∀ i, (c.slot i).ipAddr ≠ ipAddr)
    (h : c.arpCacheInsert ipAddr haddr type = some (0, c'))
    (he : c'.slot = Function.update c.slot e ⟨ipAddr, haddr, type.toInt⟩) :
    c.scan ipAddr (List.finRange xstackArpCacheSize) none = some e := by
  have hip : (c'.slot e).ipAddr = ipAddr := by
    rw [he, Function.update_self]
  rcases insert_slots h with hslot | ⟨v, hscan, hslot⟩
  · rw [hslot] at hip
    exact absurd hip (hnew e)
  · by_cases hev : e = v
    · rw [hev]
      exact hscan
    · rw [hslot, Function.update_of_ne hev] at hip
      exact absurd hip (hnew e)

/-- A dynamic slot is unlinked, filled and linked again. -/
theorem insert_dyn (haddr : MacAddr) (type : ArpCacheEntryType) (h : Full c) (hip : ipAddr ≠ 0)
    (hnew : ∀ i, (c.slot i).ipAddr ≠ ipAddr) {v : Slot}
    (hv : c.scan ipAddr (List.finRange xstackArpCacheSize) none = some v)
    (hdyn : 0 ≤ (c.slot v).age) : ∃ c', c.arpCacheInsert ipAddr haddr type = some (0, c') ∧
      c'.slot = Function.update c.slot v ⟨ipAddr, haddr, type.toInt⟩ := by
  obtain ⟨l, hl, hmem⟩ := h.linked
  obtain ⟨c₁, h₁, hl₁, hs₁, -⟩ := remove_spec hl (hmem v hdyn)
  have hne₁ : ∀ j ∈ l.erase v, (c₁.slot j).ipAddr ≠ ipAddr := by
    intro j _
    rw [hs₁]
    exact hnew j
  obtain ⟨c₂, -, h₂, -, -, hs₂, -⟩ := place_spec haddr type hl₁ hl.nodup.not_mem_erase hne₁
  refine ⟨c₂, ?_, by rw [hs₂, hs₁]⟩
  unfold ArpCache.arpCacheInsert
  rw [if_neg hip, hv]
  simp only [ArpCache.removeDyn, ge_iff_le, if_pos hdyn, h₁, h₂, Option.bind_eq_bind,
    Option.bind_some]
  rfl

/-! ### The policy -/

theorem insert_allStatic (h : Full c) (hip : ipAddr ≠ 0) (hnew : ∀ i, (c.slot i).ipAddr ≠ ipAddr)
    (hall : ∀ i, IsStatic c i) : c.arpCacheInsert ipAddr haddr type = some (-1, c) := by
  unfold ArpCache.arpCacheInsert
  rw [if_neg hip, (scan_eq_none_iff h hnew).mpr hall]

theorem follows_of_oneAge (h : Full c) (hip : ipAddr ≠ 0)
    (hnew : ∀ i, (c.slot i).ipAddr ≠ ipAddr) (hone : OneAge c) :
    Follows c ipAddr haddr type := by
  have hevicts : (∃ i, ¬ IsStatic c i) → ∃ e c', c.arpCacheInsert ipAddr haddr type = some (0, c') ∧
      Oldest c e ∧ c'.slot = Function.update c.slot e ⟨ipAddr, haddr, type.toInt⟩ := by
    rintro ⟨i, hi⟩
    rcases hscan : c.scan ipAddr (List.finRange xstackArpCacheSize) none with _ | v
    · exact absurd ((scan_eq_none_iff h hnew).mp hscan i) hi
    have hv := (scan_youngest h hnew hscan).1
    have hdyn : ∀ j, 0 ≤ (c.slot j).age → (c.slot v).age = (c.slot j).age := fun j hj =>
      hone v j hv (behind_self hj)
    have hv0 : 0 ≤ (c.slot v).age := by
      rw [hdyn i (h.dyn hi)]
      exact h.dyn hi
    obtain ⟨c', hins, hslot⟩ := insert_dyn haddr type h hip hnew hscan hv0
    refine ⟨v, c', hins, ⟨hv0, fun j => ?_⟩, hslot⟩
    by_cases hj : 0 ≤ (c.slot j).age
    · exact (hdyn j hj).ge
    · omega
  have hfails : ∀ c', c.arpCacheInsert ipAddr haddr type = some (-1, c') →
      ∀ i, IsStatic c i := by
    intro c' hc' i
    by_contra hi
    obtain ⟨-, c₁, h₁, -⟩ := hevicts ⟨i, hi⟩
    rw [h₁] at hc'
    cases hc'
  refine ⟨hevicts, ⟨fun ⟨c', hc'⟩ => hfails c' hc', fun hall => ⟨c, insert_allStatic h hip hnew hall⟩⟩,
    fun c' hc' => ?_⟩
  rw [insert_allStatic h hip hnew (hfails c' hc')] at hc'
  exact ((Prod.mk.inj (Option.some.inj hc')).2).symm

theorem oneAge_of_follows (h : Full c) (hnew : ∀ i, (c.slot i).ipAddr ≠ ipAddr)
    (hf : Follows c ipAddr haddr type) : OneAge c := by
  intro i j hi hj
  have hex : ∃ i, ¬ IsStatic c i := by
    obtain ⟨f, -, hf0⟩ := hi
    refine ⟨f, fun hst => ?_⟩
    rw [isStatic_iff] at hst
    omega
  obtain ⟨e, c', hins, hold, hslot⟩ := hf.evicts hex
  have hy := scan_youngest h hnew (evicted_eq hnew hins hslot)
  -- The victim is at once the oldest and the youngest.
  have hsame : ∀ k, Behind c k → (c.slot k).age = (c.slot e).age := fun k hk =>
    le_antisymm (hold.2 k) (hy.2 k hk).1
  rw [hsame i hi, hsame j hj]

/-- **The insert into a full cache follows the policy iff all slots from the first dynamic one on
have one age.** -/
theorem follows_policy_iff (c : ArpCache) (ipAddr : InAddr) (haddr : MacAddr)
    (type : ArpCacheEntryType) (h : Full c) (hip : ipAddr ≠ 0)
    (hnew : ∀ i, (c.slot i).ipAddr ≠ ipAddr) : Follows c ipAddr haddr type ↔ OneAge c :=
  ⟨oneAge_of_follows h hnew, follows_of_oneAge h hip hnew⟩

/-! ### A full cache -/

theorem exists_valid_perm (s : List Slot) (hs : s.Nodup) :
    ∃ (h : Rb Slot) (l : List Slot), Valid h l ∧ l.Perm s := by
  induction s with
  | nil => exact ⟨Rb.init, [], valid_init, List.Perm.nil⟩
  | cons x s ih =>
    obtain ⟨hx, hs⟩ := List.nodup_cons.mp hs
    obtain ⟨h, l, hv, hp⟩ := ih hs
    have hxl : x ∉ l := fun hm => hx (hp.mem_iff.mp hm)
    obtain ⟨h', p, q, -, hv', rfl, -, -⟩ :=
      valid_insert (fun _ => 1) hv (length_lt_fuel hv.nodup) hxl fun _ _ => one_ne_zero
    exact ⟨h', p ++ x :: q, hv', List.perm_middle.trans (hp.cons x)⟩

/-- A cache with given ages in which slot `i` has the address `i + 1`. -/
def withAges (age : Slot → ℤ) (head : Rb Slot) : ArpCache :=
  ⟨fun i => ⟨UInt32.ofNat (i + 1), fun _ => 0, age i⟩, head, []⟩

theorem exists_full {age : Slot → ℤ} (h : ∀ i, age i = -1 ∨ 0 ≤ age i) :
    ∃ head, Full (withAges age head) := by
  obtain ⟨head, l, hv, hp⟩ := exists_valid_perm _ (List.nodup_finRange xstackArpCacheSize)
  exact ⟨head, h, l, hv, fun i _ => hp.mem_iff.mpr (List.mem_finRange i)⟩

theorem withAges_new (age : Slot → ℤ) (head : Rb Slot) (i : Slot) :
    ((withAges age head).slot i).ipAddr ≠ 100 := by
  revert i
  show ∀ i : Slot, UInt32.ofNat (i + 1) ≠ 100
  decide

/-- A static entry in every slot but `k`. -/
def ageBut (k i : Slot) : ℤ := if i = k then 5 else -1

theorem ageBut_or (k i : Slot) : ageBut k i = -1 ∨ 0 ≤ ageBut k i := by
  unfold ageBut
  split_ifs <;> decide

/-- The only dynamic entry is in the last slot: it goes. -/
theorem follows_policy_iff_last : ∃ head, Full (withAges (ageBut 49) head) ∧
    OneAge (withAges (ageBut 49) head) ∧
    Follows (withAges (ageBut 49) head) 100 (fun _ => 7) .dyn := by
  obtain ⟨head, h⟩ := exists_full (ageBut_or 49)
  have hlast : ∀ i, Behind (withAges (ageBut 49) head) i → i = 49 := by
    rintro i ⟨f, hfi, hf0⟩
    have hf : f = 49 := by
      by_contra hf
      have hneg : ageBut 49 f = -1 := if_neg hf
      have hf0' : 0 ≤ ageBut 49 f := hf0
      omega
    rw [hf] at hfi
    exact le_antisymm (Fin.le_last i) hfi
  have hone : OneAge (withAges (ageBut 49) head) := by
    intro i j hi hj
    rw [hlast i hi, hlast j hj]
  exact ⟨head, h, hone, (follows_policy_iff _ 100 (fun _ => 7) .dyn h (by decide)
    (withAges_new _ _)).mpr hone⟩

/-- The only dynamic entry is in the first slot: a static one goes. -/
theorem static_evicted : ∃ head, Full (withAges (ageBut 0) head) ∧
    (∀ i, ((withAges (ageBut 0) head).slot i).ipAddr ≠ 100) ∧
    ¬ Follows (withAges (ageBut 0) head) 100 (fun _ => 7) .dyn := by
  obtain ⟨head, h⟩ := exists_full (ageBut_or 0)
  refine ⟨head, h, withAges_new _ _, fun hf => ?_⟩
  have hone := oneAge_of_follows h (withAges_new _ _) hf
  have hdyn : (0 : ℤ) ≤ ((withAges (ageBut 0) head).slot 0).age := by
    show 0 ≤ ageBut 0 0
    decide
  have hage : ageBut 0 0 = ageBut 0 1 := hone 0 1 ⟨0, le_rfl, hdyn⟩ ⟨0, Fin.zero_le _, hdyn⟩
  exact absurd hage (by decide)

end Xstack.Arp.Evict
