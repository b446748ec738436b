import Xstack.Tree.Remove

/-! # `RB_FIND`, and the tree as a set of elements

`rbFind_spec`: the search always ends, what it returns is linked and compares equal, and if the
comparison is monotone along the tree it finds every equal element. `rbInsert_found`: `RB_INSERT`
walks the same way, so an element that `RB_FIND` finds stops the insertion.

`Valid h l`: the link fields are those of a balanced tree with the elements `l` in order. The three
operations in terms of `l` are what the callers use: `valid_insert`, `valid_remove`, `valid_find`. -/

namespace Xstack.Tree.Find

open Xstack.Lib.TreeShape Xstack.Lib.TreeShape.Shape Xstack.Tree.Macros Xstack.Tree.Repr
open Xstack.Tree.Insert Xstack.Tree.Remove

variable {ι : Type} [DecidableEq ι]

omit [DecidableEq ι] in
theorem findFrom_spec [DecidableEq ι] (cmp : ι → ℤ) {h : Rb ι} : ∀ (fuel : ℕ) {C : Ctx ι}
    {t : Shape ι}, t.toList.length < fuel → Linked h (plug C t) →
    ∃ r, h.findFrom cmp fuel t.ptr = some r ∧ (∀ x, r = some x → x ∈ t.toList ∧ cmp x = 0) ∧
      (Mono cmp t.toList → (∃ z ∈ t.toList, cmp z = 0) → r ≠ none)
  | 0, _, _, hf, _ => absurd hf (Nat.not_lt_zero _)
  | fuel + 1, C, .nil, _, _ => ⟨none, rfl, by simp, by simp [toList]⟩
  | fuel + 1, C, .node c l x r, hf, hl => by
    simp only [toList, List.length_append, List.length_cons] at hf
    have he := entry_of_linked (d := .left) hl
    have hcl : h.child .left x = l.ptr := child_of_entry he
    have hcr : h.child .right x = r.ptr := child_flip_of_entry he
    rcases lt_trichotomy (cmp x) 0 with hlt | heq | hgt
    · obtain ⟨q, h1, h2, h3⟩ := findFrom_spec cmp fuel (C := ⟨.left, c, x, r⟩ :: C) (t := l)
        (by omega) hl
      have hstep : h.findFrom cmp (fuel + 1) (Shape.node c l x r).ptr =
          h.findFrom cmp fuel l.ptr := by
        simp [Rb.findFrom, Shape.ptr, hlt, hcl]
      refine ⟨q, hstep.trans h1, fun y hy => ?_, fun hm hz => ?_⟩
      · exact ⟨by simp [toList, (h2 y hy).1], (h2 y hy).2⟩
      · obtain ⟨z, hz, hz0⟩ := hz
        simp only [Mono, toList, List.pairwise_append, List.pairwise_cons] at hm
        simp only [toList, List.mem_append, List.mem_cons] at hz
        refine h3 hm.1 ⟨z, ?_, hz0⟩
        rcases hz with hz | rfl | hz
        · exact hz
        · omega
        · have := (hm.2.1.1 z hz).2 hlt
          omega
    · exact ⟨some x, by simp [Rb.findFrom, Shape.ptr, heq], by simp [toList, heq], by simp⟩
    · obtain ⟨q, h1, h2, h3⟩ := findFrom_spec cmp fuel (C := ⟨.right, c, x, l⟩ :: C) (t := r)
        (by omega) hl
      have hstep : h.findFrom cmp (fuel + 1) (Shape.node c l x r).ptr =
          h.findFrom cmp fuel r.ptr := by
        simp [Rb.findFrom, Shape.ptr, hgt, not_lt.mpr hgt.le, hcr]
      refine ⟨q, hstep.trans h1, fun y hy => ?_, fun hm hz => ?_⟩
      · exact ⟨by simp [toList, (h2 y hy).1], (h2 y hy).2⟩
      · obtain ⟨z, hz, hz0⟩ := hz
        simp only [Mono, toList, List.pairwise_append, List.pairwise_cons] at hm
        simp only [toList, List.mem_append, List.mem_cons] at hz
        refine h3 hm.2.1.2 ⟨z, ?_, hz0⟩
        rcases hz with hz | rfl | hz
        · have := (hm.2.2 z hz x (by simp)).1 hgt
          omega
        · omega
        · exact hz

omit [DecidableEq ι] in
/-- What `RB_FIND` returns compares equal, whatever the links are. -/
theorem rbFind_eq_zero [DecidableEq ι] {cmp : ι → ℤ} {h : Rb ι} {fuel : ℕ} {x : ι}
    (hf : h.rbFind fuel cmp = some (some x)) : cmp x = 0 := by
  suffices hfrom : ∀ (fuel : ℕ) (p : Option ι), h.findFrom cmp fuel p = some (some x) → cmp x = 0 from
    hfrom fuel h.root hf
  intro fuel
  induction fuel with
  | zero => intro p hp; cases hp
  | succ fuel ih =>
    intro p hp
    cases p with
    | none => cases hp
    | some y =>
      unfold Rb.findFrom at hp
      split_ifs at hp with h1 h2
      · exact ih _ hp
      · exact ih _ hp
      · obtain rfl : y = x := by simpa using hp
        omega

omit [DecidableEq ι] in
/-- `RB_INSERT` and `RB_FIND` take the same way down. -/
theorem descend_found [DecidableEq ι] (cmp : ι → ℤ) {h : Rb ι} {x : ι} : ∀ (fuel : ℕ)
    (p q : Option ι) (d : Dir), h.findFrom cmp fuel p = some (some x) →
      h.descend cmp fuel p q d = some (.found x)
  | 0, _, _, _, hf => by simp [Rb.findFrom] at hf
  | fuel + 1, none, _, _, hf => by simp [Rb.findFrom] at hf
  | fuel + 1, some y, q, d, hf => by
    unfold Rb.findFrom at hf
    unfold Rb.descend
    split_ifs at hf ⊢ with h1 h2
    · exact descend_found cmp fuel _ _ _ hf
    · exact descend_found cmp fuel _ _ _ hf
    · simpa using hf

theorem rbInsert_found {cmp : ι → ℤ} {h : Rb ι} {x y : ι} {fuel : ℕ}
    (hf : h.rbFind fuel cmp = some (some x)) : h.rbInsert fuel cmp y = some (h, some x) := by
  simp [Rb.rbInsert, descend_found cmp fuel _ none .right hf]

omit [DecidableEq ι] in
/-- Where `RB_FIND` finds nothing, the descent does not see that other elements are equal. -/
theorem descend_congr (cmp : ι → ℤ) {h : Rb ι} : ∀ (fuel : ℕ) (p q : Option ι) (d : Dir),
    h.findFrom cmp fuel p = some none →
      h.descend cmp fuel p q d = h.descend (fun z => if cmp z = 0 then 1 else cmp z) fuel p q d
  | 0, _, _, _, hf => by simp [Rb.findFrom] at hf
  | fuel + 1, none, _, _, _ => rfl
  | fuel + 1, some y, q, d, hf => by
    unfold Rb.findFrom at hf
    unfold Rb.descend
    split_ifs at hf with h1 h2
    · have hy : cmp y ≠ 0 := by omega
      simp only [if_neg hy, if_pos h1]
      exact descend_congr cmp fuel _ _ _ hf
    · have hy : cmp y ≠ 0 := by omega
      simp only [if_neg hy, if_neg h1, if_pos h2]
      exact descend_congr cmp fuel _ _ _ hf
    · simp at hf

/-! ### The elements of a tree -/

/-- **The link fields of `h` are those of a balanced tree** with the elements `l` in order. -/
def Valid (h : Rb ι) (l : List ι) : Prop := ∃ t, Linked h t ∧ Good t ∧ t.toList = l

omit [DecidableEq ι] in
theorem Valid.nodup {h : Rb ι} {l : List ι} (hv : Valid h l) : l.Nodup := by
  obtain ⟨t, hl, -, rfl⟩ := hv
  exact hl.nodup

omit [DecidableEq ι] in
theorem valid_init : Valid (Rb.init : Rb ι) [] :=
  ⟨.nil, ⟨rfl, trivial, List.nodup_nil⟩, ⟨rfl, 0, .nil⟩, rfl⟩

omit [DecidableEq ι] in
theorem mem_of_child {h : Rb ι} {x y : ι} {d : Dir} (hc : h.child d x = some y) :
    ∀ {t : Shape ι} {q : Option ι}, Rep h q t → x ∈ t.toList → y ∈ t.toList
  | .nil, _, _, hx => absurd hx (by simp [toList])
  | .node c l z r, q, ⟨he, h1, h2⟩, hx => by
    simp only [toList, List.mem_append, List.mem_cons] at hx ⊢
    rcases hx with hx | rfl | hx
    · exact Or.inl (mem_of_child hc h1 hx)
    · rcases d with _ | _
      · have hl : l.ptr = some y := (child_of_entry (d := .left) he).symm.trans hc
        exact Or.inl (by by_contra hn; exact ptr_ne hn hl)
      · have hr : r.ptr = some y := (child_flip_of_entry (d := .left) he).symm.trans hc
        exact Or.inr (Or.inr (by by_contra hn; exact ptr_ne hn hr))
    · exact Or.inr (Or.inr (mem_of_child hc h2 hx))

omit [DecidableEq ι] in
theorem reach_of_rep {h : Rb ι} : ∀ {t : Shape ι} {q : Option ι}, Rep h q t →
    (∀ x, t.ptr = some x → h.Reach x) → ∀ x ∈ t.toList, h.Reach x
  | .nil, _, _, _, x, hx => absurd hx (by simp [toList])
  | .node c l z r, q, ⟨he, h1, h2⟩, hp, x, hx => by
    have hz : h.Reach z := hp z rfl
    simp only [toList, List.mem_append, List.mem_cons] at hx
    rcases hx with hx | rfl | hx
    · refine reach_of_rep h1 (fun y hy => hz.child .left ?_) x hx
      exact (child_of_entry (d := .left) he).trans hy
    · exact hz
    · refine reach_of_rep h2 (fun y hy => hz.child .right ?_) x hx
      exact (child_flip_of_entry (d := .left) he).trans hy

omit [DecidableEq ι] in
/-- The elements of the tree are those that can be reached. -/
theorem Valid.reach {h : Rb ι} {l : List ι} (hv : Valid h l) (x : ι) : h.Reach x ↔ x ∈ l := by
  obtain ⟨t, hl, -, rfl⟩ := hv
  constructor
  · intro hr
    induction hr with
    | root hx =>
      by_contra hn
      exact ptr_ne hn (hl.root.symm.trans hx)
    | child d _ hc ih => exact mem_of_child hc hl.rep ih
  · exact reach_of_rep hl.rep (fun x hx => .root (hl.root.trans hx)) x

/-- The link fields of other elements do not matter. -/
theorem valid_setEntry {h : Rb ι} {l : List ι} {x : ι} (hv : Valid h l) (hx : x ∉ l)
    (e : RbEntry ι) : Valid (h.setEntry x e) l := by
  obtain ⟨t, hl, hg, rfl⟩ := hv
  refine ⟨t, ⟨hl.root, ?_, hl.nodup⟩, hg, rfl⟩
  refine rep_congr (fun y hy => ?_) hl.rep
  rw [entry_setEntry_ne]
  rintro rfl
  exact hx hy

theorem valid_insert (cmp : ι → ℤ) {h : Rb ι} {l : List ι} {x : ι} {fuel : ℕ} (hv : Valid h l)
    (hf : l.length < fuel) (hx : x ∉ l) (hc : ∀ z ∈ l, cmp z ≠ 0) :
    ∃ h' p q, h.rbInsert fuel cmp x = some (h', none) ∧ Valid h' (p ++ x :: q) ∧ l = p ++ q ∧
      (Mono cmp l → (∀ z ∈ p, 0 < cmp z) ∧ ∀ z ∈ q, cmp z < 0) ∧
      ∀ z, z ≠ x → z ∉ l → h'.entry z = h.entry z := by
  obtain ⟨t, hl, hg, rfl⟩ := hv
  obtain ⟨h', t', p, q, h1, h2, h3, h4, h5, h6, h7⟩ := rbInsert_spec hf hl hg hx hc
  exact ⟨h', p, q, h1, ⟨t', h2, h3, h5⟩, h4, h6, h7⟩

theorem valid_remove {h : Rb ι} {l : List ι} {x : ι} {fuel : ℕ} (hv : Valid h l)
    (hf : l.length ≤ fuel) (hx : x ∈ l) :
    ∃ h', h.rbRemove fuel x = some h' ∧ Valid h' (l.erase x) ∧
      ∀ z, z ∉ l → h'.entry z = h.entry z := by
  obtain ⟨t, hl, hg, rfl⟩ := hv
  obtain ⟨h', t', h1, h2, h3, h4, h5⟩ := rbRemove_spec hf hl hg hx
  exact ⟨h', h1, ⟨t', h2, h3, h4⟩, h5⟩

theorem valid_find (cmp : ι → ℤ) {h : Rb ι} {l : List ι} {fuel : ℕ} (hv : Valid h l)
    (hf : l.length < fuel) : ∃ r, h.rbFind fuel cmp = some r ∧
      (∀ x, r = some x → x ∈ l ∧ cmp x = 0) ∧
      (Mono cmp l → (∃ z ∈ l, cmp z = 0) → r ≠ none) := by
  obtain ⟨t, hl, hg, rfl⟩ := hv
  obtain ⟨r, h1, h2, h3⟩ := findFrom_spec cmp fuel (C := []) (t := t) hf hl
  refine ⟨r, ?_, h2, h3⟩
  unfold Rb.rbFind
  rw [hl.root]
  exact h1

/-- **`RB_INSERT` with any comparison:** the element goes into the tree, or an equal one is there. -/
theorem valid_insert_any (cmp : ι → ℤ) {h : Rb ι} {l : List ι} {x : ι} {fuel : ℕ}
    (hv : Valid h l) (hf : l.length < fuel) (hx : x ∉ l) :
    ∃ h' y, h.rbInsert fuel cmp x = some (h', y) ∧
      (h' = h ∨ ∃ l', Valid h' l' ∧ l'.Perm (x :: l)) := by
  obtain ⟨r, hfind, -, -⟩ := valid_find cmp hv hf
  obtain _ | y := r
  · have hne : ∀ z ∈ l, (if cmp z = 0 then 1 else cmp z) ≠ 0 := by
      intro z _
      split_ifs with hz
      · decide
      · exact hz
    obtain ⟨h', p, q, h1, h2, rfl, -, -⟩ := valid_insert _ hv hf hx hne
    refine ⟨h', none, ?_, Or.inr ⟨_, h2, List.perm_middle⟩⟩
    unfold Rb.rbInsert at h1 ⊢
    rwa [descend_congr cmp fuel _ _ _ hfind]
  · exact ⟨h, some y, rbInsert_found hfind, Or.inl rfl⟩

end Xstack.Tree.Find
