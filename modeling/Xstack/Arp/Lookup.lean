import Mathlib.Order.UpperLower.CompleteLattice
import Xstack.Arp.Invariant
import Xstack.Ip.Rib
import Xstack.Tree.Small

/-! # Looking an address up in the ARP tree

`arp_cache_cmp` subtracts two addresses and takes the difference as an `int`, so three addresses that
are far apart can go round in a circle. The tree is then built and searched with different orders.

* `TreeOp`, `treeStep`: `RB_INSERT` of an entry that is not linked, and `RB_REMOVE` of one that is.
* `Built ok`: what such steps lead to from the empty tree, with the linked addresses in `ok`.
* `Complete`: `arp_cache_get_entry` finds the linked addresses and no others.
* `Fits`: two addresses at most, or a range of 2^31. `Inv.step`: as long as the addresses fit, the tree
  is in order or has two elements.
* `circle_of_not_fits`, `lost_of_circle`: from three addresses in a circle one can be lost. -/

namespace Xstack.Arp.Lookup

open Xstack.Config Xstack.Lib.TreeShape Xstack.Tree.Macros Xstack.Tree.Repr Xstack.Tree.Find
open Xstack.Tree.Map Xstack.Tree.Small
open Xstack.Arp.Cache Xstack.Arp.Invariant Xstack.Ip.Rib

/-! ### Runs -/

/-- The two macros that change the tree. An entry gets its address before `RB_INSERT`. -/
inductive TreeOp
  | insert (elm : Slot) (ipAddr : InAddr) (haddr : MacAddr) (type : ArpCacheEntryType)
  | remove (elm : Slot)

def treeStep (c : ArpCache) : TreeOp → Option ArpCache
  | .insert elm ipAddr haddr type => c.place elm ipAddr haddr type
  | .remove elm => c.remove elm

/-- The addresses of the linked entries. -/
def addresses (c : ArpCache) : Set InAddr := { a | ∃ i, c.head.Reach i ∧ (c.slot i).ipAddr = a }

/-- `RB_INSERT` of an unlinked entry with a new address, `RB_REMOVE` of a linked one. -/
def Allowed (c : ArpCache) : TreeOp → Prop
  | .insert elm ipAddr _ _ => ¬ c.head.Reach elm ∧ ipAddr ∉ addresses c
  | .remove elm => c.head.Reach elm

/-- **The caches that allowed steps lead to,** the linked addresses being in `ok` after each step. -/
inductive Built (ok : LowerSet (Set InAddr)) : ArpCache → Prop
  | init : Built ok ArpCache.init
  | step {c c' : ArpCache} (op : TreeOp) (h : Built ok c) (hop : Allowed c op)
      (hstep : treeStep c op = some c') (hok : addresses c' ∈ ok) : Built ok c'

/-- **The lookup is complete:** it finds the linked entry of an address, if there is one. -/
def Complete (c : ArpCache) : Prop :=
  ∀ ipAddr, ∃ r, c.arpCacheGetEntry ipAddr = some r ∧
    ∀ i, r = some i ↔ c.head.Reach i ∧ (c.slot i).ipAddr = ipAddr

theorem not_complete {c : ArpCache} {a : InAddr} (ha : a ∈ addresses c)
    (hlost : c.arpCacheGetEntry a = some none) : ¬ Complete c := by
  intro h
  obtain ⟨i, hi, hia⟩ := ha
  obtain ⟨r, hr, hr'⟩ := h a
  have hnone : r = none := Option.some.inj (hr.symm.trans hlost)
  have hsome := (hr' i).mpr ⟨hi, hia⟩
  rw [hnone] at hsome
  cases hsome

/-! ### The condition -/

/-- The addresses are in a range of 2^31. -/
def InHalf (s : Set InAddr) : Prop := ∃ base, s ⊆ halfFrom base

/-- **The condition:** the addresses are in a range of 2^31, or there are at most two. -/
def Fits (s : Set InAddr) : Prop := InHalf s ∨ ∃ a b, s ⊆ {a, b}

theorem InHalf.mono {s t : Set InAddr} (h : InHalf t) (hst : s ⊆ t) : InHalf s := by
  obtain ⟨base, hb⟩ := h
  exact ⟨base, hst.trans hb⟩

/-- The sets of addresses that fit. -/
def fitting : LowerSet (Set InAddr) where
  carrier := { s | Fits s }
  lower' := by
    rintro t s hst (h | ⟨a, b, h⟩)
    · exact .inl (h.mono hst)
    · exact .inr ⟨a, b, hst.trans h⟩

theorem inHalf_singleton (a : InAddr) : InHalf {a} := by
  refine ⟨a, ?_⟩
  intro n hn
  rw [Set.mem_singleton_iff.mp hn]
  show (a - a).toNat < 2 ^ 31
  rw [UInt32.sub_self]
  decide

variable {c c' : ArpCache} {l : List Slot} {op : TreeOp} {s : Set InAddr} {a b d : InAddr}

theorem mem_addresses (hv : Valid c.head l) : a ∈ addresses c ↔ ∃ i ∈ l, (c.slot i).ipAddr = a := by
  unfold addresses
  simp only [Set.mem_ofPred_eq, hv.reach]

theorem key_mem (hv : Valid c.head l) {i : Slot} (hi : i ∈ l) : (c.slot i).ipAddr ∈ addresses c :=
  (mem_addresses hv).mpr ⟨i, hi, rfl⟩

/-! ### The tree is in order -/

/-- The tree is in the order of `arp_cache_cmp`. -/
def Ordered (c : ArpCache) (l : List Slot) : Prop :=
  ∃ base, Holds addrCmp (halfFrom base) (fun i => (c.slot i).ipAddr) c.head l

/-- **The invariant:** the tree is in order, or it has two elements that are not in a range. -/
structure Inv (c : ArpCache) (l : List Slot) : Prop where
  valid : Valid c.head l
  find : Ordered c l ∨ ¬ InHalf (addresses c) ∧ l.length ≤ 2 ∧ Complete c

theorem Ordered.complete (hv : Valid c.head l) (h : Ordered c l) : Complete c := by
  obtain ⟨base, hh⟩ := h
  intro ipAddr
  obtain ⟨r, h1, h2⟩ := hh.find_key (compares_half base) (length_lt_fuel hv.nodup)
    (fun a => addrCmp_eq_zero' ipAddr a)
  refine ⟨r, h1, fun i => ?_⟩
  rw [h2, hv.reach]

theorem Inv.complete (hi : Inv c l) : Complete c := by
  rcases hi.find with h | ⟨-, -, h⟩
  · exact h.complete hi.valid
  · exact h

/-- Different entries have different addresses. -/
theorem Inv.inj (hi : Inv c l) {i j : Slot} (hil : i ∈ l) (hjl : j ∈ l)
    (hij : (c.slot i).ipAddr = (c.slot j).ipAddr) : i = j := by
  obtain ⟨r, -, hr⟩ := hi.complete (c.slot i).ipAddr
  have h1 := (hr i).mpr ⟨(hi.valid.reach i).mpr hil, rfl⟩
  have h2 := (hr j).mpr ⟨(hi.valid.reach j).mpr hjl, hij.symm⟩
  exact Option.some.inj (h1.symm.trans h2)

theorem inv_init : Inv ArpCache.init [] := ⟨valid_init, .inl ⟨0, holds_init⟩⟩

/-- One element is always in order. -/
theorem ordered_of_length (hv : Valid c.head l) (hl : l.length ≤ 1) : Ordered c l := by
  rcases l with _ | ⟨y, _ | ⟨z, l⟩⟩
  · exact ⟨0, hv, by simp, .nil⟩
  · obtain ⟨base, hbase⟩ := inHalf_singleton (c.slot y).ipAddr
    refine ⟨base, hv, fun i hi => hbase ?_, List.pairwise_singleton _ _⟩
    rw [List.mem_singleton.mp hi]
    exact Set.mem_singleton _
  · simp at hl

theorem Inv.remove {elm : Slot} (hi : Inv c l) (he : elm ∈ l) (hstep : c.remove elm = some c') :
    Inv c' (l.erase elm) := by
  obtain ⟨c₁, h1, hv, hslot, -⟩ := remove_spec hi.valid he
  obtain rfl : c₁ = c' := Option.some.inj (h1.symm.trans hstep)
  refine ⟨hv, .inl ?_⟩
  rcases hi.find with ⟨base, hh⟩ | ⟨-, hlen, -⟩
  · have hkeys := hh.keys
    have hsorted := hh.sorted
    rw [← hslot] at hkeys hsorted
    exact ⟨base, hv, fun i hi => hkeys i (List.mem_of_mem_erase hi),
      hsorted.sublist List.erase_sublist⟩
  · refine ordered_of_length hv ?_
    rw [List.length_erase_of_mem he]
    omega

section

variable {elm : Slot} {ipAddr : InAddr} {haddr : MacAddr} {type : ArpCacheEntryType}

/-- The other entries keep their addresses. -/
theorem fill_linked (he : elm ∉ l) {i : Slot} (hi : i ∈ l) :
    ((c.fill elm ipAddr haddr type).slot i).ipAddr = (c.slot i).ipAddr := by
  have hie : i ≠ elm := by
    rintro rfl
    exact he hi
  unfold ArpCache.fill
  dsimp only
  rw [Function.update_of_ne hie]

theorem fill_self : ((c.fill elm ipAddr haddr type).slot elm).ipAddr = ipAddr := by
  unfold ArpCache.fill
  dsimp only
  rw [Function.update_self]

theorem not_mem_of_allowed (hv : Valid c.head l) (hop : Allowed c (.insert elm ipAddr haddr type)) :
    elm ∉ l := mt (hv.reach elm).mpr hop.1

theorem insert_head {h' : Rb Slot} {r : Option Slot}
    (hstep : treeStep c (.insert elm ipAddr haddr type) = some c')
    (hins : c.head.rbInsert ArpCache.fuel ((c.fill elm ipAddr haddr type).arpCacheCmp ipAddr) elm =
      some (h', r)) : c'.head = h' := by
  have hplace := place_of_insert (c := c) hins
  rw [Option.some.inj (hstep.symm.trans hplace)]

/-- An insert returns, and the linked addresses are the old ones and the new one. -/
theorem insert_valid (hv : Valid c.head l) (hop : Allowed c (.insert elm ipAddr haddr type)) :
    ∃ c' l', treeStep c (.insert elm ipAddr haddr type) = some c' ∧ Valid c'.head l' ∧
      (∀ j, j ∈ l' ↔ j = elm ∨ j ∈ l) ∧ c'.slot = (c.fill elm ipAddr haddr type).slot ∧
      addresses c' = insert ipAddr (addresses c) := by
  have he := not_mem_of_allowed hv hop
  have hne : ∀ j ∈ l, (c.slot j).ipAddr ≠ ipAddr := fun j hj heq => hop.2 (heq ▸ key_mem hv hj)
  obtain ⟨c', l', hplace, hv', hmem, hslot, -⟩ := place_spec haddr type hv he hne
  refine ⟨c', l', hplace, hv', hmem, hslot, Set.ext fun a => ?_⟩
  rw [Set.mem_insert_iff, mem_addresses hv', mem_addresses hv]
  simp only [hmem, hslot]
  constructor
  · rintro ⟨i, rfl | hi, rfl⟩
    · exact .inl fill_self
    · exact .inr ⟨i, hi, (fill_linked he hi).symm⟩
  · rintro (rfl | ⟨i, hi, rfl⟩)
    · exact ⟨elm, .inl rfl, fill_self⟩
    · exact ⟨i, .inr hi, fill_linked he hi⟩

theorem step_valid (hv : Valid c.head l) (hop : Allowed c op) :
    ∃ c', treeStep c op = some c' ∧ ∃ l', Valid c'.head l' := by
  cases op with
  | insert elm ipAddr haddr type =>
    obtain ⟨c', l', h1, hv', -⟩ := insert_valid hv hop
    exact ⟨c', h1, l', hv'⟩
  | remove elm =>
    obtain ⟨c', h1, hv', -⟩ := remove_spec hv ((hv.reach elm).mp hop)
    exact ⟨c', h1, _, hv'⟩

/-- An insert that leaves the addresses in a range. -/
theorem Ordered.insert (hv : Valid c.head l) (ho : Ordered c l) {base : InAddr}
    (hbase : Insert.insert ipAddr (addresses c) ⊆ halfFrom base)
    (hop : Allowed c (.insert elm ipAddr haddr type))
    (hstep : treeStep c (.insert elm ipAddr haddr type) = some c') : ∃ l', Ordered c' l' := by
  have he := not_mem_of_allowed hv hop
  have hfill : ∀ i ∈ l, ((c.fill elm ipAddr haddr type).slot i).ipAddr = (c.slot i).ipAddr :=
    fun i hi => fill_linked he hi
  obtain ⟨base', hh⟩ := ho
  have hh' := (hh.rebase fun i hi => hbase (.inr (key_mem hv hi))).congr hfill
  have hself : ((c.fill elm ipAddr haddr type).slot elm).ipAddr = ipAddr := fill_self
  obtain ⟨h', l', hins, hholds, -⟩ := hh'.insert (compares_half base) (length_lt_fuel hv.nodup) he
    (by rw [hself]; exact hbase (.inl rfl)) (fun i hi heq => by
      rw [hfill i hi, hself] at heq
      exact hop.2 (heq ▸ key_mem hv hi))
  rw [hself] at hins
  have hplace := place_of_insert (c := c) hins
  obtain rfl := Option.some.inj (hplace.symm.trans hstep)
  exact ⟨l', base, hholds⟩

/-- The second element of a tree is found, whatever the comparison does. -/
theorem insert_second {y : Slot} (hv : Valid c.head [y])
    (hop : Allowed c (.insert elm ipAddr haddr type))
    (hstep : treeStep c (.insert elm ipAddr haddr type) = some c') : Complete c' := by
  obtain ⟨c₁, l', h1, hv', hmem, hslot, -⟩ := insert_valid hv hop
  obtain rfl : c₁ = c' := Option.some.inj (h1.symm.trans hstep)
  have he := not_mem_of_allowed hv hop
  have hy : y ∈ [y] := List.mem_singleton_self y
  have hye : elm ≠ y := fun h => he (h ▸ hy)
  have hyk : ((c.fill elm ipAddr haddr type).slot y).ipAddr = (c.slot y).ipAddr := fill_linked he hy
  have hne : (c.slot y).ipAddr ≠ ipAddr := fun h => hop.2 (h ▸ key_mem hv hy)
  have hcmp : (c.fill elm ipAddr haddr type).arpCacheCmp ipAddr y ≠ 0 := by
    unfold ArpCache.arpCacheCmp
    rw [hyk, Ne, addrCmp_eq_zero]
    exact hne.symm
  obtain ⟨h', hins, htwo⟩ := (one_of_valid hv).insert 49 hye hcmp
  have hhead := insert_head h1 hins
  have hself : (c₁.slot elm).ipAddr = ipAddr := by rw [hslot, fill_self]
  have hother : (c₁.slot y).ipAddr = (c.slot y).ipAddr := by rw [hslot, hyk]
  have hlink : Two c₁.head (side (addrCmp (c₁.slot elm).ipAddr (c₁.slot y).ipAddr)) y elm := by
    rw [hself, hhead, hslot]
    exact htwo
  intro k
  obtain ⟨r, hr, hr'⟩ := Two.find_key addrCmp_eq_zero' (fun i => (c₁.slot i).ipAddr) hlink
    (by rw [hself, hother]; exact hne.symm) 48 k
  refine ⟨r, hr, fun i => ?_⟩
  rw [hr', hv'.reach, hmem, List.mem_singleton]

/-- With at most two addresses after it, an insert was into a tree with one element at most. -/
theorem Inv.short (hi : Inv c l) (hnew : ipAddr ∉ addresses c)
    (hpair : Insert.insert ipAddr (addresses c) ⊆ {a, b}) : l.length ≤ 1 := by
  by_contra hlen
  obtain ⟨i, j, l', rfl⟩ : ∃ i j l', l = i :: j :: l' := by
    rcases l with _ | ⟨i, _ | ⟨j, l'⟩⟩
    · simp at hlen
    · simp at hlen
    · exact ⟨i, j, l', rfl⟩
  have hij : i ≠ j := by
    have hn := hi.valid.nodup
    rintro rfl
    simp at hn
  have hil : i ∈ i :: j :: l' := by simp
  have hjl : j ∈ i :: j :: l' := by simp
  have hki := key_mem hi.valid hil
  have hkj := key_mem hi.valid hjl
  have hne : (c.slot i).ipAddr ≠ (c.slot j).ipAddr := fun h => hij (hi.inj hil hjl h)
  have hni : ipAddr ≠ (c.slot i).ipAddr := fun h => hnew (h ▸ hki)
  have hnj : ipAddr ≠ (c.slot j).ipAddr := fun h => hnew (h ▸ hkj)
  have h0 : ipAddr = a ∨ ipAddr = b := hpair (.inl rfl)
  have h1 : (c.slot i).ipAddr = a ∨ (c.slot i).ipAddr = b := hpair (.inr hki)
  have h2 : (c.slot j).ipAddr = a ∨ (c.slot j).ipAddr = b := hpair (.inr hkj)
  grind

theorem Inv.insert (hi : Inv c l) (hop : Allowed c (.insert elm ipAddr haddr type))
    (hstep : treeStep c (.insert elm ipAddr haddr type) = some c') (hfits : Fits (addresses c')) :
    ∃ l', Inv c' l' := by
  obtain ⟨c₁, l', h1, hv', hmem, -, haddr'⟩ := insert_valid hi.valid hop
  obtain rfl : c₁ = c' := Option.some.inj (h1.symm.trans hstep)
  by_cases hhalf : InHalf (addresses c₁)
  · rw [haddr'] at hhalf
    have ho : Ordered c l := by
      rcases hi.find with h | ⟨h, -, -⟩
      · exact h
      · exact absurd (hhalf.mono (Set.subset_insert _ _)) h
    obtain ⟨base, hbase⟩ := hhalf
    obtain ⟨l₂, base₂, hh⟩ := ho.insert hi.valid hbase hop hstep
    exact ⟨l₂, hh.valid, .inl ⟨base₂, hh⟩⟩
  · obtain ⟨a, b, hpair⟩ := hfits.resolve_left hhalf
    have hlen := hi.short hop.2 (haddr' ▸ hpair)
    have he := not_mem_of_allowed hi.valid hop
    have hperm : l'.Perm (elm :: l) := by
      refine (List.perm_ext_iff_of_nodup hv'.nodup (hi.valid.nodup.cons he)).mpr fun j => ?_
      rw [hmem, List.mem_cons]
    have hlen' : l'.length = l.length + 1 := hperm.length_eq
    refine ⟨l', hv', ?_⟩
    rcases l with _ | ⟨y, _ | ⟨z, l⟩⟩
    · exact .inl (ordered_of_length hv' hlen'.le)
    · exact .inr ⟨hhalf, hlen'.le, insert_second hi.valid hop hstep⟩
    · simp at hlen

end

/-- **One step keeps the invariant,** if the addresses fit after it. -/
theorem Inv.step (hi : Inv c l) (hop : Allowed c op) (hstep : treeStep c op = some c')
    (hfits : Fits (addresses c')) : ∃ l', Inv c' l' := by
  cases op with
  | insert elm ipAddr haddr type => exact hi.insert hop hstep hfits
  | remove elm => exact ⟨_, hi.remove ((hi.valid.reach elm).mp hop) hstep⟩

theorem Built.inv {ok : LowerSet (Set InAddr)} (h : Built ok c) (hok : ok ≤ fitting) :
    ∃ l, Inv c l := by
  induction h with
  | init => exact ⟨[], inv_init⟩
  | step op _ hop hstep hin ih =>
    obtain ⟨l, hi⟩ := ih
    exact hi.step hop hstep (hok hin)

theorem Built.valid {ok : LowerSet (Set InAddr)} (h : Built ok c) : ∃ l, Valid c.head l := by
  induction h with
  | init => exact ⟨[], valid_init⟩
  | step op _ hop hstep _ ih =>
    obtain ⟨l, hv⟩ := ih
    obtain ⟨c₁, h₁, hv₁⟩ := step_valid hv hop
    rw [← Option.some.inj (h₁.symm.trans hstep)]
    exact hv₁

/-- The macros return, with any addresses. -/
theorem Built.returns {ok : LowerSet (Set InAddr)} (h : Built ok c) (op : TreeOp)
    (hop : Allowed c op) : ∃ c', treeStep c op = some c' := by
  obtain ⟨l, hv⟩ := h.valid
  obtain ⟨c', hstep, -⟩ := step_valid hv hop
  exact ⟨c', hstep⟩

/-! ### Addresses that do not fit -/

/-- Three addresses go round in a circle: `b` is above `a`, `d` is above `b`, and `a` is above `d`. -/
def Circle (a b d : InAddr) : Prop := addrCmp a b < 0 ∧ 0 < addrCmp d b ∧ 0 < addrCmp a d

instance (a b d : InAddr) : Decidable (Circle a b d) := inferInstanceAs (Decidable (_ ∧ _ ∧ _))

section

variable {ok : LowerSet (Set InAddr)} {x y z : Slot}

/-- An allowed insert, when it is known what `RB_INSERT` makes of the tree. -/
theorem Built.insert {P : Rb Slot → Prop} (h : Built ok c) (hv : Valid c.head l) (elm : Slot)
    (ipAddr : InAddr) (haddr : MacAddr) (type : ArpCacheEntryType) (he : elm ∉ l)
    (hip : ipAddr ∉ addresses c) (hok : insert ipAddr (addresses c) ∈ ok)
    (hins : ∃ h', c.head.rbInsert ArpCache.fuel ((c.fill elm ipAddr haddr type).arpCacheCmp ipAddr) elm =
      some (h', none) ∧ P h') :
    ∃ c' l', treeStep c (.insert elm ipAddr haddr type) = some c' ∧ Built ok c' ∧ Valid c'.head l' ∧
      (∀ j, j ∈ l' ↔ j = elm ∨ j ∈ l) ∧ c'.slot = (c.fill elm ipAddr haddr type).slot ∧
      addresses c' = insert ipAddr (addresses c) ∧ P c'.head := by
  have hop : Allowed c (.insert elm ipAddr haddr type) := ⟨mt (hv.reach elm).mp he, hip⟩
  obtain ⟨c', l', h1, hv', hmem, hslot, haddr'⟩ := insert_valid hv hop
  obtain ⟨h', hins, hP⟩ := hins
  refine ⟨c', l', h1, .step _ h hop h1 (haddr' ▸ hok), hv', hmem, hslot, haddr', ?_⟩
  rw [insert_head h1 hins]
  exact hP

/-- `b` becomes the root, with `a` on its left and `d` on its right. -/
theorem three_built (hs : {a, b, d} ∈ ok) (hab : addrCmp a b < 0) (hdb : 0 < addrCmp d b)
    (had : a ≠ d) (hxy : x ≠ y) (hzy : z ≠ y) (hxz : x ≠ z) (haddr : MacAddr)
    (type : ArpCacheEntryType) :
    ∃ c l, [TreeOp.insert y b haddr type, .insert x a haddr type,
        .insert z d haddr type].foldlM treeStep ArpCache.init = some c ∧
      Built ok c ∧ Valid c.head l ∧ x ∈ l ∧ y ∈ l ∧ addresses c = {d, a, b} ∧
      (c.slot x).ipAddr = a ∧ (c.slot z).ipAddr = d ∧ Three c.head x y z := by
  have hok : ∀ t, t ⊆ {a, b, d} → t ∈ ok := fun t ht => ok.lower ht hs
  have hne : a ≠ b := fun h => hab.ne (addrCmp_eq_zero.mpr h)
  have hne' : d ≠ b := fun h => hdb.ne' (addrCmp_eq_zero.mpr h)
  have h0 : addresses ArpCache.init = ∅ := by
    refine Set.eq_empty_of_forall_notMem fun k hk => ?_
    obtain ⟨i, hi, -⟩ := (mem_addresses valid_init).mp hk
    cases hi
  obtain ⟨c₁, l₁, h₁, hb₁, hv₁, hm₁, hs₁, ha₁, hone⟩ :=
    (Built.init : Built ok ArpCache.init).insert valid_init y b haddr type (by simp) (by simp [h0])
      (hok _ (by simp [h0])) (one_insert _ 50 y)
  have hy₁ : y ∈ l₁ := (hm₁ y).mpr (.inl rfl)
  have hx₁ : x ∉ l₁ := by simp [hm₁, hxy]
  have hby₁ : (c₁.slot y).ipAddr = b := by rw [hs₁, fill_self]
  have hcmp₁ : (c₁.fill x a haddr type).arpCacheCmp a y = addrCmp a b := by
    rw [ArpCache.arpCacheCmp, fill_linked hx₁ hy₁, hby₁]
  have hfresh₂ : a ∉ addresses c₁ := by simp [ha₁, h0, hne]
  have hleft : side ((c₁.fill x a haddr type).arpCacheCmp a y) = .left := by
    rw [hcmp₁]
    exact if_pos hab
  have hins₂ := hone.insert 49 hxy (hcmp₁.trans_ne hab.ne)
  rw [hleft] at hins₂
  obtain ⟨c₂, l₂, h₂, hb₂, hv₂, hm₂, hs₂, ha₂, htwo⟩ :=
    hb₁.insert hv₁ x a haddr type hx₁ hfresh₂ (hok _ (by simp [ha₁, h0, Set.insert_subset_iff])) hins₂
  have hx₂ : x ∈ l₂ := (hm₂ x).mpr (.inl rfl)
  have hy₂ : y ∈ l₂ := (hm₂ y).mpr (.inr hy₁)
  have hz₂ : z ∉ l₂ := by simp [hm₂, hm₁, hzy, hxz.symm]
  have hax₂ : (c₂.slot x).ipAddr = a := by rw [hs₂, fill_self]
  have hby₂ : (c₂.slot y).ipAddr = b := by rw [hs₂, fill_linked hx₁ hy₁, hby₁]
  have hcmp₂ : (c₂.fill z d haddr type).arpCacheCmp d y = addrCmp d b := by
    rw [ArpCache.arpCacheCmp, fill_linked hz₂ hy₂, hby₂]
  have hfresh₃ : d ∉ addresses c₂ := by simp [ha₂, ha₁, h0, hne', had.symm]
  have hall : addresses c₂ = {a, b} := by simp [ha₂, ha₁, h0]
  obtain ⟨c₃, l₃, h₃, hb₃, hv₃, hm₃, hs₃, ha₃, hthree⟩ :=
    hb₂.insert hv₂ z d haddr type hz₂ hfresh₃ (hok _ (by simp [hall, Set.insert_subset_iff]))
      (htwo.insert 49 hzy hxz.symm (hdb.trans_eq hcmp₂.symm))
  refine ⟨c₃, l₃, ?_, hb₃, hv₃, (hm₃ x).mpr (.inr hx₂), (hm₃ y).mpr (.inr hy₂), by rw [ha₃, hall],
    ?_, ?_, hthree⟩
  · simp only [List.foldlM_cons, List.foldlM_nil, h₁, h₂, h₃, Option.bind_eq_bind, Option.bind_some,
      Option.pure_def]
  · rw [hs₃, fill_linked hz₂ hx₂, hax₂]
  · rw [hs₃, fill_self]

/-- **From three addresses in a circle one can be lost:** the entries are inserted and the one that
was the root is removed, so `d` is above `a`, and `a` is searched on the right of `d`. -/
theorem lost_of_circle (hs : {a, b, d} ∈ ok) (hc : Circle a b d) (hxy : x ≠ y) (hzy : z ≠ y)
    (hxz : x ≠ z) (haddr : MacAddr) (type : ArpCacheEntryType) :
    ∃ c, [TreeOp.insert y b haddr type, .insert x a haddr type, .insert z d haddr type,
        .remove y].foldlM treeStep ArpCache.init = some c ∧
      Built ok c ∧ a ∈ addresses c ∧ c.arpCacheGetEntry a = some none := by
  obtain ⟨hab, hdb, had⟩ := hc
  have hne : a ≠ d := fun h => had.ne' (addrCmp_eq_zero.mpr h)
  obtain ⟨c, l, hrun, hb, hv, hx, hy, hall, hax, hdz, hthree⟩ :=
    three_built hs hab hdb hne hxy hzy hxz haddr type
  obtain ⟨c', hrem, hv', hslot, -⟩ := remove_spec hv hy
  obtain ⟨h', hrem', htwo⟩ := hthree.remove 50
  have hhead : c'.head = h' := by
    have hrem₂ : c.remove y = some { c with head := h', rbLog := c.rbLog ++ [.remove c.head y] } := by
      unfold ArpCache.remove
      rw [show c.head.rbRemove ArpCache.fuel y = some h' from hrem']
      rfl
    rw [Option.some.inj (hrem.symm.trans hrem₂)]
  have hmem : a ∈ addresses c' := by
    refine (mem_addresses hv').mpr ⟨x, ?_, ?_⟩
    · exact (List.mem_erase_of_ne hxy).mpr hx
    · rw [hslot, hax]
  have hsub : addresses c' ⊆ {a, b, d} := by
    intro k hk
    obtain ⟨i, hi, hik⟩ := (mem_addresses hv').mp hk
    have hk' : k ∈ addresses c := (mem_addresses hv).mpr ⟨i, List.mem_of_mem_erase hi, by
      rw [← hslot, hik]⟩
    rw [hall] at hk'
    rcases hk' with rfl | rfl | rfl <;> simp
  have hfind : c'.arpCacheGetEntry a = some none := by
    have hpos : 0 < c'.arpCacheCmp a z := by
      rw [ArpCache.arpCacheCmp, hslot, hdz]
      exact had
    have hright : side (c'.arpCacheCmp a z) = .right := if_neg (not_lt_of_gt hpos)
    rw [← hhead] at htwo
    have hfind := htwo.find (c'.arpCacheCmp a) 48
    rw [if_neg hpos.ne', hright, if_neg fun h => Dir.noConfusion h.1] at hfind
    exact hfind
  refine ⟨c', ?_, .step (.remove y) hb ((hv.reach y).mpr hy) hrem (ok.lower hsub hs), hmem, hfind⟩
  have happ : ∀ ops : List TreeOp, ops.foldlM treeStep ArpCache.init = some c →
      (ops ++ [TreeOp.remove y]).foldlM treeStep ArpCache.init = some c' := by
    intro ops h
    rw [List.foldlM_append, h]
    simp [treeStep, hrem]
  exact happ _ hrun

end

theorem addrCmp_neg_iff : addrCmp a b < 0 ↔ 2 ^ 31 ≤ (a - b).toNat := by
  have h := (a - b).toNat_lt
  unfold addrCmp
  rw [BitVec.toInt_eq_toNat_cond, UInt32.toNat_toBitVec]
  split_ifs <;> omega

theorem addrCmp_pos_iff : 0 < addrCmp a b ↔ 0 < (a - b).toNat ∧ (a - b).toNat < 2 ^ 31 := by
  have h := (a - b).toNat_lt
  unfold addrCmp
  rw [BitVec.toInt_eq_toNat_cond, UInt32.toNat_toBitVec]
  split_ifs <;> omega

/-- Two addresses on opposite sides, and any third one, make a circle. -/
theorem circle_of_opposite (hab : addrCmp a b < 0) (hba : addrCmp b a < 0) (hda : d ≠ a)
    (hdb : d ≠ b) : Circle a b d ∨ Circle b a d := by
  have ha := a.toNat_lt
  have hb := b.toNat_lt
  have hd := d.toNat_lt
  rw [Ne, ← UInt32.toNat_inj] at hda hdb
  unfold Circle
  simp only [addrCmp_neg_iff, addrCmp_pos_iff, UInt32.toNat_sub] at *
  omega

/-- Without a circle, the comparison is an order on three addresses or more. -/
theorem compares_of_no_circle (hno : ∀ a ∈ s, ∀ b ∈ s, ∀ d ∈ s, ¬ Circle a b d)
    (hthree : ¬ ∃ a b, s ⊆ {a, b}) : Compares addrCmp s := by
  have hswap : ∀ a ∈ s, ∀ b ∈ s, addrCmp a b < 0 ↔ 0 < addrCmp b a := by
    intro a ha b hb
    constructor
    · intro hab
      by_contra hnot
      have hne : addrCmp b a ≠ 0 := by
        intro h0
        rw [addrCmp_eq_zero.mp h0] at hab
        exact absurd (addrCmp_eq_zero.mpr rfl) hab.ne
      obtain ⟨d, hd, hda, hdb⟩ : ∃ d ∈ s, d ≠ a ∧ d ≠ b := by
        by_contra hall
        push Not at hall
        exact hthree ⟨a, b, fun d hd => or_iff_not_imp_left.mpr (hall d hd)⟩
      rcases circle_of_opposite hab (by omega) hda hdb with h | h
      · exact hno a ha b hb d hd h
      · exact hno b hb a ha d hd h
    · intro hba
      rw [addrCmp_neg_iff]
      rw [addrCmp_pos_iff] at hba
      have h1 := a.toNat_lt
      have h2 := b.toNat_lt
      rw [UInt32.toNat_sub] at *
      omega
  refine ⟨fun a _ b _ => addrCmp_eq_zero, hswap, fun a ha b hb d hd hab hbd => ?_⟩
  by_contra hnot
  have hdb := (hswap b hb d hd).mp hbd
  have hne : addrCmp a d ≠ 0 := by
    intro h0
    rw [addrCmp_eq_zero.mp h0] at hab
    omega
  exact hno a ha b hb d hd ⟨hab, hdb, by omega⟩

/-- A set in order is in the range from its least address on. -/
theorem inHalf_of_compares (h : Compares addrCmp s) (hne : s.Nonempty) : InHalf s := by
  have : Finite InAddr := Finite.of_injective UInt32.toFin fun _ _ => UInt32.toFin_inj.mp
  let r : s → s → Prop := fun a b => addrCmp a b < 0
  have : IsTrans s r := ⟨fun a b d => h.trans a a.2 b b.2 d d.2⟩
  have : Std.Irrefl r := ⟨fun a haa => absurd (addrCmp_eq_zero.mpr rfl) haa.ne⟩
  obtain ⟨x, hx⟩ := hne
  obtain ⟨m, -, hm⟩ := (Finite.wellFounded_of_trans_of_irrefl r).has_min Set.univ ⟨⟨x, hx⟩, trivial⟩
  refine ⟨m, fun n hn => ?_⟩
  have hle : ¬ addrCmp n m < 0 := hm ⟨n, hn⟩ trivial
  rw [addrCmp_neg_iff] at hle
  exact not_le.mp hle

/-- **Addresses that do not fit contain a circle.** -/
theorem circle_of_not_fits (h : ¬ Fits s) : ∃ a ∈ s, ∃ b ∈ s, ∃ d ∈ s, Circle a b d := by
  obtain ⟨hhalf, hthree⟩ := not_or.mp h
  by_contra hno
  push Not at hno
  refine hhalf (inHalf_of_compares (compares_of_no_circle hno hthree) ?_)
  by_contra hempty
  exact hthree ⟨0, 0, by rw [Set.not_nonempty_iff_eq_empty.mp hempty]; exact Set.empty_subset _⟩

/-- **The lookup is complete in every run whose linked addresses fit after each step,** and no step
hangs. In terms of the addresses no more can be said: if any others may be linked, some run loses an
entry. -/
theorem complete_iff (ok : LowerSet (Set InAddr)) :
    (∀ c, Built fitting c →
      Complete c ∧ ∀ op, Allowed c op → ∃ c', treeStep c op = some c') ∧
    ((∀ c, Built ok c → Complete c) ↔ ∀ s ∈ ok, Fits s) := by
  have hrun : ∀ ok : LowerSet (Set InAddr), ok ≤ fitting → ∀ c, Built ok c → Complete c := by
    intro ok hok c hc
    obtain ⟨l, hi⟩ := hc.inv hok
    exact hi.complete
  refine ⟨fun c hc => ⟨hrun fitting le_rfl c hc, hc.returns⟩, fun hall s hs => ?_, hrun ok⟩
  by_contra hfits
  obtain ⟨a, ha, b, hb, d, hd, hcircle⟩ := circle_of_not_fits hfits
  have hsub : {a, b, d} ∈ ok := ok.lower (Set.insert_subset ha (Set.insert_subset hb
    (Set.singleton_subset_iff.mpr hd))) hs
  have hslots : (0 : Slot) ≠ 1 ∧ (2 : Slot) ≠ 1 ∧ (0 : Slot) ≠ 2 := by decide
  obtain ⟨c, -, hbuilt, hin, hlost⟩ :=
    lost_of_circle hsub hcircle hslots.1 hslots.2.1 hslots.2.2 (fun _ => 0) .dyn
  exact not_complete hin hlost (hall c hbuilt)

/-- A network with addresses of three ranges: the entry of 192.168.0.1 cannot be found after the entry
of 10.0.0.1 is removed. -/
theorem far_addresses : ∃ c, [TreeOp.insert 1 0x0a000001 (fun _ => 1) .dyn,
      .insert 0 0xc0a80001 (fun _ => 1) .dyn, .insert 2 0x64400001 (fun _ => 1) .dyn,
      .remove 1].foldlM treeStep ArpCache.init = some c ∧
    Built ⊤ c ∧ 0xc0a80001 ∈ addresses c ∧ c.arpCacheGetEntry 0xc0a80001 = some none ∧
    ¬ Complete c := by
  have hcircle : Circle 0xc0a80001 0x0a000001 0x64400001 := by decide
  obtain ⟨c, hrun, hbuilt, hin, hlost⟩ := lost_of_circle (LowerSet.mem_top) hcircle
    (show (0 : Slot) ≠ 1 by decide) (show (2 : Slot) ≠ 1 by decide) (by decide) (fun _ => 1) .dyn
  exact ⟨c, hrun, hbuilt, hin, hlost, not_complete hin hlost⟩

end Xstack.Arp.Lookup
