import Xstack.Tree.Find

/-! # Trees with two elements

With two elements the search finds both, whatever the comparison does: an element is compared with
the root on the way in as it is on the search. With three elements that is no longer so, since
`RB_REMOVE` of the root puts two elements above each other that were never compared.

* `One`, `Two`, `Three`: the link fields of small trees.
* `One.insert`, `Two.insert`, `Three.remove`: the macros on them.
* `Two.find`, `Two.find_key`: what the search does. -/

namespace Xstack.Tree.Small

open Xstack.Lib.TreeShape Xstack.Lib.TreeShape.Shape Xstack.Tree.Macros Xstack.Tree.Repr
open Xstack.Tree.Find

variable {ι : Type} {h : Rb ι} {x y z : ι} {d : Dir} {cmp : ι → ℤ}

/-- The element `y` alone. -/
structure One (h : Rb ι) (y : ι) : Prop where
  root : h.root = some y
  entry : h.entry y = ⟨none, none, none, .black⟩

/-- The root `y` with `x` on side `d`. -/
structure Two (h : Rb ι) (d : Dir) (y x : ι) : Prop where
  ne : x ≠ y
  root : h.root = some y
  entry : h.entry y = mkEntry d .black (some x) none none
  below : h.entry x = ⟨none, none, some y, .red⟩

/-- The root `y` with `x` on the left and `z` on the right. -/
structure Three (h : Rb ι) (x y z : ι) : Prop where
  ne : x ≠ y ∧ z ≠ y ∧ x ≠ z
  root : h.root = some y
  entry : h.entry y = ⟨some x, some z, none, .black⟩
  left : h.entry x = ⟨none, none, some y, .red⟩
  right : h.entry z = ⟨none, none, some y, .red⟩

/-- The side that a comparison sends a search to. -/
def side (r : ℤ) : Dir := if r < 0 then .left else .right

theorem one_of_valid (hv : Valid h [y]) : One h y := by
  obtain ⟨t, hl, hg, ht⟩ := hv
  have hroot := hl.root
  have hrep := hl.rep
  rcases t with _ | ⟨c, l, w, r⟩
  · cases ht
  have hlen := congrArg List.length ht
  simp only [toList, List.length_append, List.length_cons, List.length_nil] at hlen
  rcases l with _ | ⟨cl, ll, wl, lr⟩
  · rcases r with _ | ⟨cr, rl, wr, rr⟩
    · obtain rfl : w = y := by simpa [toList] using ht
      obtain rfl : c = .black := hg.1
      exact ⟨hroot, hrep.1⟩
    · simp only [toList, List.length_append, List.length_cons] at hlen
      omega
  · simp only [toList, List.length_append, List.length_cons] at hlen
    omega

variable [DecidableEq ι]

theorem one_insert (cmp : ι → ℤ) (fuel : ℕ) (y : ι) :
    ∃ h', (Rb.init : Rb ι).rbInsert (fuel + 1) cmp y = some (h', none) ∧ One h' y := by
  have hparent : ((Rb.init : Rb ι).attach y none .right).parent y = none := by
    simp [Rb.attach, Rb.parent, Rb.setEntry]
  refine ⟨((Rb.init : Rb ι).attach y none .right).setColor y .black, ?_, rfl, ?_⟩
  · show (((Rb.init : Rb ι).attach y none .right).insertColor (fuel + 1) y).bind _ = _
    unfold Rb.insertColor
    rw [hparent]
    rfl
  · simp [Rb.attach, Rb.setColor, Rb.setEntry]

/-- A new element below the root is painted by no rotation. -/
theorem hang {fuel : ℕ} (hroot : h.root = some y) (hcolor : h.color y = .black) (hx : x ≠ y)
    (hplace : h.descend cmp (fuel + 1) h.root none .right = some (.below (some y) d)) :
    ∃ h', h.rbInsert (fuel + 1) cmp x = some (h', none) ∧ h'.root = some y ∧
      h'.entry x = ⟨none, none, some y, .red⟩ ∧
      h'.entry y = (h.setChild d y (some x)).entry y ∧
      ∀ w, w ≠ x → w ≠ y → h'.entry w = h.entry w := by
  have hparent : (h.attach x (some y) d).parent x = some y := by
    cases d <;> simp [Rb.attach, Rb.setChild, Rb.setEntry, Rb.parent, hx]
  have hblack : (h.attach x (some y) d).color y = .black := by
    cases d <;> simp [Rb.attach, Rb.setChild, Rb.setEntry, Rb.color, hx.symm, ← hcolor]
  have hroot' : (h.attach x (some y) d).root = some y := by
    cases d <;> exact hroot
  refine ⟨(h.attach x (some y) d).setColor y .black, ?_, hroot', ?_, ?_, fun w hwx hwy => ?_⟩
  · unfold Rb.rbInsert
    rw [hplace]
    show ((h.attach x (some y) d).insertColor (fuel + 1) x).bind _ = _
    unfold Rb.insertColor
    rw [hparent, hroot']
    simp [hblack]
  · cases d <;> simp [Rb.attach, Rb.setChild, Rb.setEntry, Rb.setColor, hx]
  · cases d <;> simp [Rb.attach, Rb.setChild, Rb.setEntry, Rb.setColor, hx.symm, ← hcolor, Rb.color]
  · cases d <;> simp [Rb.attach, Rb.setChild, Rb.setEntry, Rb.setColor, hwx, hwy]

theorem One.insert (hh : One h y) (fuel : ℕ) (hx : x ≠ y) (hc : cmp y ≠ 0) :
    ∃ h', h.rbInsert (fuel + 2) cmp x = some (h', none) ∧ Two h' (side (cmp y)) y x := by
  obtain ⟨hroot, hy⟩ := hh
  have hplace : h.descend cmp (fuel + 2) h.root none .right =
      some (.below (some y) (side (cmp y))) := by
    unfold Rb.descend side
    rw [hroot]
    rcases lt_or_gt_of_ne hc with h1 | h1
    · simp [h1, Rb.child, hy, Rb.descend]
    · simp [h1, not_lt_of_gt h1, Rb.child, hy, Rb.descend]
  obtain ⟨h', h1, h2, h3, h4, -⟩ := hang hroot (by rw [Rb.color, hy]) hx hplace
  refine ⟨h', h1, hx, h2, ?_, h3⟩
  rw [h4]
  exact entry_setChild_mk _ (a := none) (by rw [hy]; cases side (cmp y) <;> rfl)

theorem Two.insert (hh : Two h .left y x) (fuel : ℕ) (hzy : z ≠ y) (hzx : z ≠ x) (hc : 0 < cmp y) :
    ∃ h', h.rbInsert (fuel + 2) cmp z = some (h', none) ∧ Three h' x y z := by
  have hy : h.entry y = ⟨some x, none, none, .black⟩ := hh.entry
  have hplace : h.descend cmp (fuel + 2) h.root none .right = some (.below (some y) .right) := by
    unfold Rb.descend
    rw [hh.root]
    simp [hc.le, hc, Rb.child, hy, Rb.descend]
  obtain ⟨h', h1, h2, h3, h4, h5⟩ := hang hh.root (by rw [Rb.color, hy]) hzy hplace
  refine ⟨h', h1, ⟨hh.ne, hzy, hzx.symm⟩, h2, ?_, ?_, h3⟩
  · rw [h4]
    simp [Rb.setChild, Rb.setEntry, hy]
  · rw [h5 x hzx.symm hh.ne, hh.below]

/-- The root goes, and what was on its right takes its place. -/
theorem Three.remove (hh : Three h x y z) (fuel : ℕ) :
    ∃ h', h.rbRemove (fuel + 1) y = some h' ∧ Two h' .left z x := by
  obtain ⟨⟨hxy, hzy, hxz⟩, -, hy, hx, hz⟩ := hh
  have hleft : h.child .left y = some x := congrArg RbEntry.left hy
  have hright : h.child .right y = some z := congrArg RbEntry.right hy
  have hnext : h.leftmost (fuel + 1) z = some z := by
    unfold Rb.leftmost
    simp [Rb.child, hz]
  have hchild : h.child .right z = none := congrArg RbEntry.right hz
  have hcolor : h.color z = .red := congrArg RbEntry.color hz
  have hsplice : h.splice z none = h.setChild .right y none := by
    have hparent : h.parent z = some y := congrArg RbEntry.parent hz
    have hne : h.child .left y ≠ some z := by
      rw [hleft]
      exact fun he => hxz (Option.some.inj he)
    unfold Rb.splice Rb.relink
    rw [hparent]
    exact if_neg hne
  -- `z` with the links of `y`, which are those of a root with `x` on the left
  set u : Rb ι := (h.setChild .right y none).setEntry z ((h.setChild .right y none).entry y) with hu
  have huy : u.entry y = ⟨some x, none, none, .black⟩ := by
    simp [hu, Rb.setChild, Rb.setEntry, hzy.symm, hy]
  have huz : u.entry z = ⟨some x, none, none, .black⟩ := by
    simp [hu, Rb.setChild, Rb.setEntry, hy]
  have hux : u.entry x = ⟨none, none, some y, .red⟩ := by
    simp [hu, Rb.setChild, Rb.setEntry, hxz, hxy, hx]
  have hrelink : u.relink (u.parent y) y (some z) = { u with root := some z } := by
    rw [show u.parent y = none from congrArg RbEntry.parent huy]
    rfl
  have huleft : ({ u with root := some z } : Rb ι).child .left y = some x :=
    congrArg RbEntry.left huy
  have huright : (({ u with root := some z } : Rb ι).setParent x (some z)).child .right y = none := by
    simp [Rb.setParent, Rb.setEntry, Rb.child, hxy.symm, huy]
  refine ⟨({ u with root := some z } : Rb ι).setParent x (some z), ?_, hxz, rfl, ?_, ?_⟩
  · unfold Rb.rbRemove Rb.unlinkNext
    rw [hleft, hright]
    simp only [Option.bind_eq_bind, Option.bind_some, hnext, hchild, hsplice, hcolor, if_false,
      reduceCtorEq, ← hu, hrelink, huleft, huright, Rb.setParent?]
  · simp [Rb.setParent, Rb.setEntry, hxz.symm, huz, mkEntry]
  · simp [Rb.setParent, Rb.setEntry, hux]

omit [DecidableEq ι] in
theorem findFrom_none (cmp : ι → ℤ) (h : Rb ι) (fuel : ℕ) :
    h.findFrom cmp (fuel + 1) none = some none := rfl

omit [DecidableEq ι] in
theorem findFrom_some (cmp : ι → ℤ) (h : Rb ι) (fuel : ℕ) (x : ι) :
    h.findFrom cmp (fuel + 1) (some x) =
      if cmp x = 0 then some (some x) else h.findFrom cmp fuel (h.child (side (cmp x)) x) := by
  rw [Rb.findFrom, side]
  rcases lt_trichotomy (cmp x) 0 with h1 | h1 | h1
  · rw [if_pos h1, if_neg h1.ne, if_pos h1]
  · rw [if_neg h1.not_lt, if_neg h1.symm.not_lt, if_pos h1]
  · rw [if_neg (not_lt_of_gt h1), if_pos h1, if_neg h1.ne', if_neg (not_lt_of_gt h1)]

omit [DecidableEq ι] in
/-- **What the search does** in a tree with two elements. -/
theorem Two.find (hh : Two h d y x) (cmp : ι → ℤ) (fuel : ℕ) : h.rbFind (fuel + 3) cmp = some
    (if cmp y = 0 then some y else if side (cmp y) = d ∧ cmp x = 0 then some x else none) := by
  have hbelow : h.findFrom cmp (fuel + 2) (some x) = some (if cmp x = 0 then some x else none) := by
    have hx : ∀ e, h.child e x = none := fun e => by cases e <;> simp [Rb.child, hh.below]
    rw [findFrom_some, hx, findFrom_none, apply_ite some]
  have hchild : h.child d y = some x := child_of_entry hh.entry
  have hother : h.child d.flip y = none := child_flip_of_entry hh.entry
  unfold Rb.rbFind
  rw [hh.root, findFrom_some]
  split_ifs with h0 h1
  · rfl
  · rw [h1.1, hchild, hbelow, if_pos h1.2]
  · by_cases hd : side (cmp y) = d
    · rw [hd, hchild, hbelow, if_neg fun hx0 => h1 ⟨hd, hx0⟩]
    · have hflip : side (cmp y) = d.flip := by
        cases hs : side (cmp y) <;> cases d
        · exact absurd hs hd
        · rfl
        · rfl
        · exact absurd hs hd
      rw [hflip, hother, findFrom_none]

omit [DecidableEq ι] in
/-- **Both elements are found,** if the lower one hangs where its own comparison with the root sends
it; `cmp` only has to tell different keys apart. -/
theorem Two.find_key {κ : Type} {cmp : κ → κ → ℤ} (hz : ∀ a b, cmp a b = 0 ↔ b = a) (key : ι → κ)
    (hh : Two h (side (cmp (key x) (key y))) y x) (hne : key x ≠ key y) (fuel : ℕ) (k : κ) :
    ∃ r, h.rbFind (fuel + 3) (fun i => cmp k (key i)) = some r ∧
      ∀ i, r = some i ↔ (i = x ∨ i = y) ∧ key i = k := by
  have hfind : h.rbFind (fuel + 3) (fun i => cmp k (key i)) = some
      (if cmp k (key y) = 0 then some y
      else if side (cmp k (key y)) = side (cmp (key x) (key y)) ∧ cmp k (key x) = 0 then some x
      else none) := hh.find _ fuel
  refine ⟨_, hfind, fun i => ?_⟩
  by_cases hy : key y = k
  · rw [if_pos ((hz _ _).mpr hy)]
    constructor
    · intro hi
      obtain rfl : y = i := Option.some.inj hi
      exact ⟨.inr rfl, hy⟩
    · rintro ⟨rfl | rfl, hi⟩
      · exact absurd (hi.trans hy.symm) hne
      · rfl
  · rw [if_neg (mt (hz _ _).mp hy)]
    by_cases hx : key x = k
    · rw [if_pos ⟨by rw [hx], (hz _ _).mpr hx⟩]
      constructor
      · intro hi
        obtain rfl : x = i := Option.some.inj hi
        exact ⟨.inl rfl, hx⟩
      · rintro ⟨rfl | rfl, hi⟩
        · rfl
        · exact absurd hi hy
    · rw [if_neg fun h => hx ((hz _ _).mp h.2)]
      constructor
      · intro hi
        cases hi
      · rintro ⟨rfl | rfl, hi⟩
        · exact absurd hi hx
        · exact absurd hi hy

end Xstack.Tree.Small
