import Xstack.Lib.TreeHeight
import Xstack.Tree.Map
import Xstack.Tree.Walk

/-! # Runs of the tree macros

Any calls of `RB_INSERT` and `RB_REMOVE` on one head, with the list of linked elements next to the tree.

* `searches_logarithmic`: whatever the comparisons return, the tree stays balanced, and no search makes
  more than `2 * Nat.log 2 (n + 1)` comparisons.
* `tree_is_map`: if the comparisons are those of an order of the keys, the tree is the map with the linked
  elements, and `RB_FOREACH` visits them in order. -/

namespace Xstack.Tree.Runs

open Xstack.Lib.TreeShape Xstack.Lib.TreeShape.Shape Xstack.Lib.TreeHeight Xstack.Tree.Macros
open Xstack.Tree.Repr Xstack.Tree.Insert Xstack.Tree.Find Xstack.Tree.Map Xstack.Tree.Walk

variable {ι κ : Type} [DecidableEq ι]

/-- Calls on a tree; `cmp` compares the element with the linked ones. -/
inductive Op (ι : Type)
  | insert (cmp : ι → ℤ) (x : ι)
  | remove (x : ι)

/-- The tree, and the elements that `RB_INSERT` has linked and `RB_REMOVE` has not unlinked. -/
structure History (ι : Type) where
  head : Rb ι
  linked : List ι

def start : History ι := ⟨Rb.init, []⟩

/-- More turns than any loop of the macros can take. -/
def History.fuel (s : History ι) : ℕ := s.linked.length + 1

def step (s : History ι) : Op ι → Option (History ι)
  | .insert cmp x => (s.head.rbInsert s.fuel cmp x).map fun r =>
    ⟨r.1, if r.2.isNone then x :: s.linked else s.linked⟩
  | .remove x => (s.head.rbRemove s.fuel x).map fun h => ⟨h, s.linked.erase x⟩

def run (s : History ι) (ops : List (Op ι)) : Option (History ι) := ops.foldlM step s

/-- An element is inserted while it is not linked, and removed while it is. -/
def Proper (s : History ι) : Op ι → Prop
  | .insert _ x => x ∉ s.linked
  | .remove x => x ∈ s.linked

/-- All calls of a run are proper. -/
def Meets (s : History ι) : List (Op ι) → Prop
  | [] => True
  | op :: ops => Proper s op ∧ ∀ s', step s op = some s' → Meets s' ops

variable {s s' : History ι} {l : List ι} {h : Rb ι} {x : ι} {fuel : ℕ}

/-! ### One call -/

/-- **`RB_INSERT` with any comparison** meets an equal element, or the new one is linked. -/
theorem insert_cases (cmp : ι → ℤ) (hv : Valid h l) (hf : l.length < fuel) (hx : x ∉ l) :
    (∃ y ∈ l, cmp y = 0 ∧ h.rbInsert fuel cmp x = some (h, some y)) ∨
    ∃ h' l', h.rbInsert fuel cmp x = some (h', none) ∧ Valid h' l' ∧ l'.Perm (x :: l) := by
  obtain ⟨r, hfind, hfound, -⟩ := valid_find cmp hv hf
  obtain _ | y := r
  · -- the descent goes on to the right where it would stop at an equal element
    have hne : ∀ z ∈ l, (if cmp z = 0 then 1 else cmp z) ≠ 0 := by
      intro z _
      split_ifs with hz
      · decide
      · exact hz
    obtain ⟨h', p, q, h1, h2, rfl, -, -⟩ := valid_insert _ hv hf hx hne
    refine Or.inr ⟨h', _, ?_, h2, List.perm_middle⟩
    unfold Rb.rbInsert at h1 ⊢
    rwa [descend_congr cmp fuel _ _ _ hfind]
  · exact Or.inl ⟨y, (hfound y rfl).1, (hfound y rfl).2, rbInsert_found hfind⟩

/-- **The tree is balanced** and has the linked elements. -/
def Balanced (s : History ι) : Prop := ∃ l, Valid s.head l ∧ l.Perm s.linked

omit [DecidableEq ι] in
theorem balanced_start : Balanced (start : History ι) := ⟨[], valid_init, .nil⟩

theorem step_balanced (hs : Balanced s) {op : Op ι} (hop : Proper s op) :
    ∃ s', step s op = some s' ∧ Balanced s' := by
  obtain ⟨l, hv, hp⟩ := hs
  have hlen : l.length = s.linked.length := hp.length_eq
  cases op with
  | insert cmp x =>
    have hx : x ∉ l := fun hx => hop (hp.mem_iff.mp hx)
    rcases insert_cases cmp hv (show l.length < s.fuel by unfold History.fuel; omega) hx with
      ⟨y, -, -, hrun⟩ | ⟨h', l', hrun, hv', hp'⟩
    · exact ⟨_, by rw [step, hrun]; rfl, l, hv, hp⟩
    · exact ⟨_, by rw [step, hrun]; rfl, l', hv', hp'.trans (hp.cons x)⟩
  | remove x =>
    obtain ⟨h', hrun, hv', -⟩ := valid_remove hv (show l.length ≤ s.fuel by unfold History.fuel; omega)
      (hp.mem_iff.mpr hop)
    exact ⟨_, by rw [step, hrun]; rfl, _, hv', hp.erase x⟩

theorem run_balanced : ∀ (ops : List (Op ι)) {s : History ι}, Balanced s → Meets s ops →
    ∃ s', run s ops = some s' ∧ Balanced s'
  | [], s, hs, _ => ⟨s, rfl, hs⟩
  | op :: ops, s, hs, hmeets => by
    obtain ⟨s', hstep, hs'⟩ := step_balanced hs hmeets.1
    obtain ⟨s'', hrun, hs''⟩ := run_balanced ops hs' (hmeets.2 s' hstep)
    exact ⟨s'', by rw [run, List.foldlM_cons, hstep]; exact hrun, hs''⟩

/-! ### The way down -/

omit [DecidableEq ι] in
/-- `RB_FIND` follows one path. -/
theorem findFrom_returns (cmp : ι → ℤ) : ∀ (fuel : ℕ) {C : Ctx ι} {t : Shape ι}, height t < fuel →
    Linked h (plug C t) → ∃ r, h.findFrom cmp fuel t.ptr = some r
  | 0, _, _, hf, _ => absurd hf (Nat.not_lt_zero _)
  | fuel + 1, C, .nil, _, _ => ⟨none, rfl⟩
  | fuel + 1, C, .node c l x r, hf, hl => by
    have he := entry_of_linked (d := .left) hl
    have hcl : h.child .left x = l.ptr := child_of_entry he
    have hcr : h.child .right x = r.ptr := child_flip_of_entry he
    have hf : max (height l) (height r) < fuel := Nat.lt_of_succ_lt_succ hf
    show ∃ q, (if cmp x < 0 then _ else if 0 < cmp x then _ else some (some x)) = some q
    rw [hcl, hcr]
    split_ifs
    · exact findFrom_returns cmp fuel (C := ⟨.left, c, x, r⟩ :: C) (lt_of_le_of_lt (le_max_left _ _) hf) hl
    · exact findFrom_returns cmp fuel (C := ⟨.right, c, x, l⟩ :: C) (lt_of_le_of_lt (le_max_right _ _) hf)
        hl
    · exact ⟨_, rfl⟩

omit [DecidableEq ι] in
/-- The descent of `RB_INSERT` takes the same way. -/
theorem descend_returns (cmp : ι → ℤ) : ∀ (fuel : ℕ) {p : Option ι} (q : Option ι) (d : Dir) {r : Option ι},
    h.findFrom cmp fuel p = some r → ∃ place, h.descend cmp fuel p q d = some place
  | 0, _, _, _, _, hfind => by cases hfind
  | fuel + 1, none, _, _, _, _ => ⟨_, rfl⟩
  | fuel + 1, some x, _, _, _, hfind => by
    unfold Rb.findFrom at hfind
    unfold Rb.descend
    split_ifs at hfind ⊢
    · exact descend_returns cmp fuel _ _ hfind
    · exact descend_returns cmp fuel _ _ hfind
    · exact ⟨_, rfl⟩

omit [DecidableEq ι] in
/-- More turns than it takes change nothing. -/
theorem descend_mono (cmp : ι → ℤ) (k : ℕ) : ∀ (fuel : ℕ) {p q : Option ι} {d : Dir} {place : Rb.Place ι},
    h.descend cmp fuel p q d = some place → h.descend cmp (fuel + k) p q d = some place
  | 0, _, _, _, _, hrun => by cases hrun
  | fuel + 1, none, _, _, _, hrun => by
    rw [Nat.add_right_comm]
    exact hrun
  | fuel + 1, some x, _, _, _, hrun => by
    rw [Nat.add_right_comm]
    unfold Rb.descend at hrun ⊢
    split_ifs at hrun ⊢
    · exact descend_mono cmp k fuel hrun
    · exact descend_mono cmp k fuel hrun
    · exact hrun

/-- **`RB_INSERT`** goes down one path and back. -/
theorem insert_returns (cmp : ι → ℤ) {t : Shape ι} (hl : Linked h t) (hg : Good t) (hx : x ∉ t.toList)
    (hf : height t < fuel) : ∃ r, h.rbInsert fuel cmp x = some r := by
  have hroot : h.root = t.ptr := hl.root
  obtain ⟨r, hfind⟩ := findFrom_returns cmp fuel (C := []) hf hl
  obtain ⟨place, hplace⟩ := descend_returns cmp fuel none .right hfind
  rw [← hroot] at hplace
  have hmore := descend_mono cmp (t.toList.length + 1) fuel hplace
  rw [hroot] at hmore
  unfold Rb.rbInsert
  rw [hplace, Option.bind_eq_bind, Option.bind_some]
  rcases descend_spec cmp (fuel + (t.toList.length + 1)) (C := []) (t := t) (d := .right) (by omega) hl
    (by simp) with ⟨y, -, -, hfound⟩ | ⟨C, d, h1, h2, hbelow, -⟩
  · obtain rfl := Option.some.inj (hmore.symm.trans hfound)
    exact ⟨_, rfl⟩
  · obtain rfl := Option.some.inj (hmore.symm.trans hbelow)
    rw [plug_nil] at h1
    subst h1
    obtain ⟨n, hn, hC⟩ := holeBal_of_plug C hg
    obtain rfl : n = 0 := by
      cases hn
      rfl
    have hlen : C.length < fuel := lt_of_le_of_lt (length_add_height_le C .nil) hf
    obtain ⟨h', t', hcolor, -, -⟩ := insertColor_spec fuel hlen (linked_attach hl h2 hx)
      (bal_mk_red .nil .nil rfl rfl) hC
    exact ⟨(h', none), by dsimp only; rw [hcolor]; rfl⟩

/-- **The cost of a search.** After any insertions and removals, whatever their comparisons returned, the
tree is a red-black tree of the linked elements; and whatever the comparisons return, the loops of
`RB_FIND` and `RB_INSERT` make at most `2 * Nat.log 2 (n + 1)` turns before the last one. -/
theorem searches_logarithmic (ops : List (Op ι)) (hops : Meets start ops) :
    ∃ s, run start ops = some s ∧ (∃ t, Linked s.head t ∧ Good t ∧ t.toList.Perm s.linked) ∧
      ∀ cmp, (∃ r, s.head.rbFind (2 * Nat.log 2 (s.linked.length + 1) + 1) cmp = some r) ∧
        ∀ x ∉ s.linked, ∃ r, s.head.rbInsert (2 * Nat.log 2 (s.linked.length + 1) + 1) cmp x = some r := by
  obtain ⟨s, hrun, l, ⟨t, hl, hg, rfl⟩, hp⟩ := run_balanced ops balanced_start hops
  have hheight : height t < 2 * Nat.log 2 (s.linked.length + 1) + 1 := by
    rw [← hp.length_eq]
    exact Nat.lt_succ_of_le (good_height_le hg)
  refine ⟨s, hrun, ⟨t, hl, hg, hp⟩, fun cmp => ⟨?_, fun x hx => ?_⟩⟩
  · unfold Rb.rbFind
    rw [hl.root]
    exact findFrom_returns cmp _ (C := []) hheight hl
  · exact insert_returns cmp hl hg (fun hmem => hx (hp.mem_iff.mp hmem)) hheight

/-- Distinct elements can be inserted one after the other. -/
theorem meets_inserts (cmp : ι → ι → ℤ) : ∀ (xs : List ι) {s : History ι}, xs.Nodup →
    (∀ x ∈ xs, x ∉ s.linked) → Meets s (xs.map fun x => .insert (cmp x) x)
  | [], _, _, _ => trivial
  | x :: xs, s, hnodup, hnew => by
    refine ⟨hnew x List.mem_cons_self, fun s' hstep => ?_⟩
    obtain ⟨hx, hnodup⟩ := List.nodup_cons.mp hnodup
    refine meets_inserts cmp xs hnodup fun y hy hmem => hnew y (List.mem_cons_of_mem x hy) ?_
    obtain ⟨r, -, rfl⟩ := Option.map_eq_some_iff.mp hstep
    dsimp only at hmem
    split_ifs at hmem
    · rcases List.mem_cons.mp hmem with rfl | hmem
      · exact absurd hy hx
      · exact hmem
    · exact hmem

/-- Seven numbers, inserted in order. -/
def ascending : List (Op ℕ) :=
  (List.range 7).map fun x : ℕ => .insert (fun y : ℕ => (x : ℤ) - (y : ℤ)) x

/-- No search makes more than six comparisons. -/
theorem searches_logarithmic_ascending : ∃ s : History ℕ, run start ascending = some s ∧
    s.linked.length = 7 ∧ ∀ cmp, ∃ r, s.head.rbFind 7 cmp = some r := by
  obtain ⟨s, hrun, -, h⟩ := searches_logarithmic ascending
    (meets_inserts (fun x y : ℕ => (x : ℤ) - (y : ℤ)) _ List.nodup_range fun x _ => List.not_mem_nil)
  have hlen : (run start ascending).map (fun s => s.linked.length) = some 7 := by decide +kernel
  rw [hrun] at hlen
  have hlen : s.linked.length = 7 := Option.some.inj hlen
  refine ⟨s, hrun, hlen, fun cmp => ?_⟩
  rw [hlen] at h
  exact (h cmp).1

/-! ### The map -/

section

variable [DecidableEq κ]

/-- Calls with elements that are compared by their keys. -/
inductive KeyOp (ι : Type)
  | insert (x : ι)
  | remove (x : ι)

def KeyOp.op (cmp : κ → κ → ℤ) (key : ι → κ) : KeyOp ι → Op ι
  | .insert x => .insert (fun y => cmp (key x) (key y)) x
  | .remove x => .remove x

/-- The elements of the map after a call: an element is inserted if its key is new. -/
def after (key : ι → κ) (m : List ι) : KeyOp ι → List ι
  | .insert x => if ∃ y ∈ m, key y = key x then m else x :: m
  | .remove x => m.erase x

/-- An element is inserted while it is not in the map, and removed while it is. -/
def KeyOp.proper (m : List ι) : KeyOp ι → Bool
  | .insert x => x ∉ m
  | .remove x => x ∈ m

/-- All calls of a run are proper. -/
def properRun (key : ι → κ) (m : List ι) : List (KeyOp ι) → Bool
  | [] => true
  | op :: ops => op.proper m && properRun key (after key m op) ops

variable {cmp : κ → κ → ℤ} {key : ι → κ}

theorem step_map (hc : Compares cmp Set.univ) (hh : Holds cmp Set.univ key s.head l)
    (hp : l.Perm s.linked) {op : KeyOp ι} (hop : op.proper s.linked = true) :
    ∃ s' l', step s (op.op cmp key) = some s' ∧ s'.linked = after key s.linked op ∧
      Holds cmp Set.univ key s'.head l' ∧ l'.Perm s'.linked := by
  have hlen : l.length < s.fuel := by
    unfold History.fuel
    rw [hp.length_eq]
    exact Nat.lt_succ_self _
  cases op with
  | insert x =>
    by_cases hused : ∃ y ∈ s.linked, key y = key x
    · obtain ⟨y, hy, hkey⟩ := hused
      have hrun := hh.insert_found (x := x) hc hlen (hp.mem_iff.mpr hy) hkey
      refine ⟨_, l, by rw [KeyOp.op, step, hrun]; rfl, ?_, hh, hp⟩
      exact (if_pos ⟨y, hy, hkey⟩).symm
    · have hx : x ∉ l := fun hx => of_decide_eq_true hop (hp.mem_iff.mp hx)
      obtain ⟨h', l', hrun, hh', hp'⟩ := hh.insert hc hlen hx (Set.mem_univ _)
        fun i hi hkey => hused ⟨i, hp.mem_iff.mp hi, hkey⟩
      refine ⟨_, l', by rw [KeyOp.op, step, hrun]; rfl, ?_, hh', hp'.trans (hp.cons x)⟩
      exact (if_neg hused).symm
  | remove x =>
    obtain ⟨h', hrun, hh'⟩ := hh.remove hlen.le (hp.mem_iff.mpr (of_decide_eq_true hop))
    exact ⟨_, _, by rw [KeyOp.op, step, hrun]; rfl, rfl, hh', hp.erase x⟩

theorem run_map (hc : Compares cmp Set.univ) : ∀ (ops : List (KeyOp ι)) {s : History ι} {l : List ι},
    Holds cmp Set.univ key s.head l → l.Perm s.linked → properRun key s.linked ops = true →
    ∃ s' l', run s (ops.map (KeyOp.op cmp key)) = some s' ∧ s'.linked = ops.foldl (after key) s.linked ∧
      Holds cmp Set.univ key s'.head l' ∧ l'.Perm s'.linked
  | [], s, l, hh, hp, _ => ⟨s, l, rfl, rfl, hh, hp⟩
  | op :: ops, s, l, hh, hp, hproper => by
    obtain ⟨hop, hops⟩ := Bool.and_eq_true_iff.mp hproper
    obtain ⟨s', l', hstep, hlinked, hh', hp'⟩ := step_map hc hh hp hop
    obtain ⟨s'', l'', hrun, hlinked', hh'', hp''⟩ := run_map hc ops hh' hp' (hlinked ▸ hops)
    refine ⟨s'', l'', ?_, by rw [hlinked', hlinked]; rfl, hh'', hp''⟩
    rw [run, List.map_cons, List.foldlM_cons, hstep]
    exact hrun

/-- **The macros of `tree.h` are an ordered map.** After any proper calls, with comparisons by an order of
the keys: the linked elements are those of the map, `RB_FIND` finds the element with a key if there is one,
and `RB_FOREACH` visits all elements in the order of their keys. -/
theorem tree_is_map (cmp : κ → κ → ℤ) (hc : Compares cmp Set.univ) (key : ι → κ) (ops : List (KeyOp ι))
    (hops : properRun key [] ops = true) :
    ∃ s, run start (ops.map (KeyOp.op cmp key)) = some s ∧ s.linked = ops.foldl (after key) [] ∧
      (∀ k, ∃ r, s.head.rbFind s.fuel (fun x => cmp k (key x)) = some r ∧
        ∀ x, r = some x ↔ x ∈ s.linked ∧ key x = k) ∧
      ∃ l : List ι, l.Perm s.linked ∧ l.Pairwise (fun x y => cmp (key x) (key y) < 0) ∧
        ∀ p, s.head.rbForeach (2 * s.fuel) p = some (l.find? p) := by
  obtain ⟨s, l, hrun, hlinked, hh, hp⟩ := run_map hc ops (s := start) holds_init .nil hops
  have hfuel : s.fuel = l.length + 1 := by
    unfold History.fuel
    rw [hp.length_eq]
  refine ⟨s, hrun, hlinked, fun k => ?_, l, hp, hh.sorted, fun p => ?_⟩
  · obtain ⟨r, hfind, hr⟩ := hh.find hc (show l.length < s.fuel by omega) (Set.mem_univ k)
    refine ⟨r, hfind, fun x => ?_⟩
    rw [hr, hp.mem_iff]
  · exact valid_foreach p hh.valid (by omega)

end

/-- Numbers compared by their difference; the second 30 is not inserted. -/
theorem tree_is_map_numbers : ∃ s : History (Fin 4), s.linked = [2, 1] ∧
    ∃ l : List (Fin 4), l.Perm [2, 1] ∧ ∀ p, s.head.rbForeach 6 p = some (l.find? p) := by
  have hc : Compares (fun a b : ℤ => a - b) Set.univ :=
    ⟨fun a _ b _ => sub_eq_zero, fun a _ b _ => by omega, fun a _ b _ c _ => by omega⟩
  obtain ⟨s, -, hlinked, -, l, hp, -, hforeach⟩ := tree_is_map (fun a b : ℤ => a - b) hc
    (![30, 20, 10, 30] : Fin 4 → ℤ) [.insert 0, .insert 1, .insert 3, .insert 2, .remove 0] (by decide)
  have hlinked : s.linked = [2, 1] := hlinked.trans (by decide)
  refine ⟨s, hlinked, l, hlinked ▸ hp, fun p => ?_⟩
  have hfuel : s.fuel = 3 := by
    unfold History.fuel
    rw [hlinked]
    rfl
  rw [← hforeach p, hfuel]

end Xstack.Tree.Runs
