import Xstack.Lib.Lex
import Xstack.Tree.Find

/-! # Trees as maps

What the macros do if the elements have keys and the comparison function is that of a strict order
on the keys in use.

* `Compares cmp S`: on the keys in `S`, `cmp` has the sign of a linear order; so has `memcmp`.
* `Holds cmp S key h l`: the tree `h` has the elements `l`, with keys in `S`, in order.
* `Holds.find`, `Holds.insert`, `Holds.remove`: the map operations. -/

namespace Xstack.Tree.Map

open Xstack.Lib.Lex Xstack.Lib.TreeShape
open Xstack.Tree.Macros Xstack.Tree.Repr Xstack.Tree.Insert Xstack.Tree.Find

variable {ι κ : Type}

/-- On the keys in `S` the comparison is that of a linear order. -/
structure Compares (cmp : κ → κ → ℤ) (S : Set κ) : Prop where
  eq_zero : ∀ a ∈ S, ∀ b ∈ S, cmp a b = 0 ↔ a = b
  swap : ∀ a ∈ S, ∀ b ∈ S, cmp a b < 0 ↔ 0 < cmp b a
  trans : ∀ a ∈ S, ∀ b ∈ S, ∀ c ∈ S, cmp a b < 0 → cmp b c < 0 → cmp a c < 0

/-- `memcmp` of the keys as byte strings of one length. -/
theorem compares_memcmp (mc : Memcmp) {enc : κ → List UInt8} (hinj : Function.Injective enc)
    (hlen : ∀ a b, (enc a).length = (enc b).length) :
    Compares (fun a b => mc.fn (enc a) (enc b)) Set.univ where
  eq_zero a _ b _ := by
    rw [mc.eq_iff (hlen a b)]
    exact ⟨fun h => hinj (beNum_inj (hlen a b) h), fun h => h ▸ rfl⟩
  swap a _ b _ := by rw [mc.lt_iff (hlen a b), mc.gt_iff (hlen b a)]
  trans a _ b _ c _ := by
    rw [mc.lt_iff (hlen a b), mc.lt_iff (hlen b c), mc.lt_iff (hlen a c)]
    exact lt_trans

/-- **The tree holds the elements `l`,** in the order of their keys. -/
structure Holds (cmp : κ → κ → ℤ) (S : Set κ) (key : ι → κ) (h : Rb ι) (l : List ι) : Prop where
  valid : Valid h l
  keys : ∀ i ∈ l, key i ∈ S
  sorted : l.Pairwise fun i j => cmp (key i) (key j) < 0

variable {cmp : κ → κ → ℤ} {S : Set κ} {key key' : ι → κ} {h : Rb ι} {l : List ι} {i j x : ι} {k : κ}
  {fuel : ℕ}

theorem holds_init : Holds cmp S key Rb.init [] := ⟨valid_init, by simp, .nil⟩

theorem Holds.congr (hh : Holds cmp S key h l) (hkey : ∀ i ∈ l, key' i = key i) :
    Holds cmp S key' h l := by
  refine ⟨hh.valid, fun i hi => ?_, hh.sorted.imp_of_mem fun {i j} hi hj hij => ?_⟩
  · rw [hkey i hi]
    exact hh.keys i hi
  · rw [hkey i hi, hkey j hj]
    exact hij

theorem Holds.rebase {S' : Set κ} (hh : Holds cmp S key h l) (hkeys : ∀ i ∈ l, key i ∈ S') :
    Holds cmp S' key h l := ⟨hh.valid, hkeys, hh.sorted⟩

/-- Different elements have different keys. -/
theorem Holds.inj (hc : Compares cmp S) (hh : Holds cmp S key h l) (hi : i ∈ l) (hj : j ∈ l)
    (hij : key i = key j) : i = j := by
  by_contra hne
  let R : ι → ι → Prop := fun a b => key a ≠ key b
  have : Std.Symm R := ⟨fun a b h => Ne.symm h⟩
  have hR : l.Pairwise R := by
    refine hh.sorted.imp_of_mem fun {a b} ha hb hab heq => ?_
    rw [(hc.eq_zero _ (hh.keys a ha) _ (hh.keys b hb)).mpr heq] at hab
    exact absurd hab (lt_irrefl 0)
  exact hR.forall hi hj hne hij

theorem Holds.mono (hc : Compares cmp S) (hh : Holds cmp S key h l) (hk : k ∈ S) :
    Mono (fun i => cmp k (key i)) l := by
  refine hh.sorted.imp_of_mem fun {a b} ha hb hab => ⟨fun h => ?_, fun h => ?_⟩
  · rw [← hc.swap _ (hh.keys b hb) _ hk] at h
    rw [← hc.swap _ (hh.keys a ha) _ hk]
    exact hc.trans _ (hh.keys a ha) _ (hh.keys b hb) _ hk hab h
  · exact hc.trans _ hk _ (hh.keys a ha) _ (hh.keys b hb) h hab

variable [DecidableEq ι]

/-- **`RB_FIND`** finds the element with the key, if there is one. -/
theorem Holds.find (hc : Compares cmp S) (hh : Holds cmp S key h l) (hf : l.length < fuel)
    (hk : k ∈ S) : ∃ r, h.rbFind fuel (fun i => cmp k (key i)) = some r ∧
      ∀ i, r = some i ↔ i ∈ l ∧ key i = k := by
  obtain ⟨r, h1, h2, h3⟩ := valid_find (fun i => cmp k (key i)) hh.valid hf
  have hz : ∀ i ∈ l, cmp k (key i) = 0 ↔ key i = k := fun i hi =>
    (hc.eq_zero _ hk _ (hh.keys i hi)).trans eq_comm
  refine ⟨r, h1, fun i => ⟨fun hr => ?_, fun ⟨hi, hik⟩ => ?_⟩⟩
  · obtain ⟨hi, h0⟩ := h2 i hr
    exact ⟨hi, (hz i hi).mp h0⟩
  · obtain _ | j := r
    · exact absurd rfl (h3 (hh.mono hc hk) ⟨i, hi, (hz i hi).mpr hik⟩)
    · obtain ⟨hj, h0⟩ := h2 j rfl
      rw [hh.inj hc hj hi (((hz j hj).mp h0).trans hik.symm)]

/-- `RB_FIND` of a key that may be outside of `S`, where `cmp` need not be an order. -/
theorem Holds.find_key (hc : Compares cmp S) (hh : Holds cmp S key h l) (hf : l.length < fuel)
    (hz : ∀ a, cmp k a = 0 ↔ a = k) : ∃ r, h.rbFind fuel (fun i => cmp k (key i)) = some r ∧
      ∀ i, r = some i ↔ i ∈ l ∧ key i = k := by
  by_cases hk : ∃ i ∈ l, key i = k
  · obtain ⟨i, hi, rfl⟩ := hk
    exact hh.find hc hf (hh.keys i hi)
  · obtain ⟨r, h1, h2, -⟩ := valid_find (fun i => cmp k (key i)) hh.valid hf
    refine ⟨r, h1, fun i => ⟨fun hr => ?_, fun ⟨hi, hik⟩ => absurd ⟨i, hi, hik⟩ hk⟩⟩
    obtain ⟨hi, h0⟩ := h2 i hr
    exact ⟨hi, (hz _).mp h0⟩

/-- **`RB_INSERT`** of an element with a new key. -/
theorem Holds.insert (hc : Compares cmp S) (hh : Holds cmp S key h l) (hf : l.length < fuel)
    (hx : x ∉ l) (hk : key x ∈ S) (hne : ∀ i ∈ l, key i ≠ key x) :
    ∃ h' l', h.rbInsert fuel (fun i => cmp (key x) (key i)) x = some (h', none) ∧
      Holds cmp S key h' l' ∧ l'.Perm (x :: l) := by
  have h0 : ∀ z ∈ l, cmp (key x) (key z) ≠ 0 := fun z hz h =>
    hne z hz ((hc.eq_zero _ hk _ (hh.keys z hz)).mp h).symm
  obtain ⟨h', p, q, h1, h2, rfl, h4, -⟩ := valid_insert _ (x := x) hh.valid hf hx h0
  obtain ⟨h5, h6⟩ := h4 (hh.mono hc hk)
  have hs := List.pairwise_append.mp hh.sorted
  refine ⟨h', p ++ x :: q, h1, ⟨h2, fun i hi => ?_, ?_⟩, List.perm_middle⟩
  · rcases List.mem_cons.mp (List.perm_middle.mem_iff.mp hi) with rfl | hi
    · exact hk
    · exact hh.keys i hi
  · rw [List.pairwise_append, List.pairwise_cons]
    refine ⟨hs.1, ⟨h6, hs.2.1⟩, fun y hy z hz => ?_⟩
    rcases List.mem_cons.mp hz with rfl | hz
    · exact (hc.swap _ (hh.keys y (List.mem_append_left _ hy)) _ hk).mpr (h5 y hy)
    · exact hs.2.2 y hy z hz

/-- `RB_INSERT` of an element whose key is there already. -/
theorem Holds.insert_found (hc : Compares cmp S) (hh : Holds cmp S key h l) (hf : l.length < fuel)
    (hi : i ∈ l) (hk : key i = k) :
    h.rbInsert fuel (fun j => cmp k (key j)) x = some (h, some i) := by
  obtain ⟨r, hr, hr'⟩ := hh.find hc hf (hk ▸ hh.keys i hi)
  obtain rfl := (hr' i).mpr ⟨hi, hk⟩
  exact rbInsert_found hr

/-- **`RB_REMOVE`** of an element of the tree. -/
theorem Holds.remove (hh : Holds cmp S key h l) (hf : l.length ≤ fuel) (hx : x ∈ l) :
    ∃ h', h.rbRemove fuel x = some h' ∧ Holds cmp S key h' (l.erase x) := by
  obtain ⟨h', h1, h2, -⟩ := valid_remove hh.valid hf hx
  refine ⟨h', h1, h2, fun i hi => hh.keys i (List.mem_of_mem_erase hi), ?_⟩
  exact hh.sorted.sublist List.erase_sublist

theorem Holds.setEntry (hh : Holds cmp S key h l) (hx : x ∉ l) (e : RbEntry ι) :
    Holds cmp S key (h.setEntry x e) l := ⟨valid_setEntry hh.valid hx e, hh.keys, hh.sorted⟩

end Xstack.Tree.Map
