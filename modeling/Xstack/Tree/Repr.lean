import Xstack.Tree.Macros

/-! # Link fields that form a tree

`Linked h t`: the link fields of `h`, followed from the root, form the tree `t`, each element once
and every parent pointer in place. The statement splits at any subtree (`linked_plug_iff`) into
`RepCtx` for the context and `Rep` for the subtree, and both read only the fields of their own
names (`rep_congr`, `repCtx_congr`); painting, re-parenting, relinking and rotating are then local
changes. Nothing here is about colours or keys: the results hold for any comparison function. -/

namespace Xstack.Tree.Repr

open Xstack.Lib.TreeShape Xstack.Lib.TreeShape.Shape Xstack.Tree.Macros

variable {ι : Type}

/-- The link fields of a node with the children `a` (side `d`) and `b`. -/
def mkEntry (d : Dir) (c : Color) (a b q : Option ι) : RbEntry ι :=
  match d with
  | .left => ⟨a, b, q, c⟩
  | .right => ⟨b, a, q, c⟩

/-- The subtree `t` is linked below `q`. -/
def Rep (h : Rb ι) : Option ι → Shape ι → Prop
  | _, .nil => True
  | q, .node c l x r => h.entry x = ⟨l.ptr, r.ptr, q, c⟩ ∧ Rep h (some x) l ∧ Rep h (some x) r

/-- The context `C` is linked, with the pointer `p` in its hole. -/
def RepCtx (h : Rb ι) : Ctx ι → Option ι → Prop
  | [], p => h.root = p
  | f :: C, p => h.entry f.x = mkEntry f.d f.c p f.sib.ptr (above C) ∧ Rep h (some f.x) f.sib ∧
      RepCtx h C (some f.x)

/-- **The elements reachable from the root form the tree `t`**, each of them linked once. -/
structure Linked (h : Rb ι) (t : Shape ι) : Prop where
  root : h.root = t.ptr
  rep : Rep h none t
  nodup : t.toList.Nodup

/-- Only links between the elements of `t` have changed: `h'` holds the tree `t'` of the same
elements in the same order, and the other link fields are those of `h`. -/
structure Moved (h : Rb ι) (t : Shape ι) (h' : Rb ι) (t' : Shape ι) : Prop where
  linked : Linked h' t'
  toList : t'.toList = t.toList
  same : ∀ z, z ∉ t.toList → h'.entry z = h.entry z

theorem Moved.trans {h h' h'' : Rb ι} {t t' t'' : Shape ι} (h1 : Moved h t h' t')
    (h2 : Moved h' t' h'' t'') : Moved h t h'' t'' where
  linked := h2.linked
  toList := h2.toList.trans h1.toList
  same z hz := (h2.same z (by rw [h1.toList]; exact hz)).trans (h1.same z hz)

theorem rep_mk {h : Rb ι} {q : Option ι} {d : Dir} {c : Color} {a b : Shape ι} {x : ι} :
    Rep h q (mk d c a x b) ↔
      h.entry x = mkEntry d c a.ptr b.ptr q ∧ Rep h (some x) a ∧ Rep h (some x) b := by
  cases d
  · exact Iff.rfl
  · simp only [Shape.mk, Rep, mkEntry]
    exact and_congr_right fun _ => and_comm

theorem rep_plug_iff {h : Rb ι} : ∀ {C : Ctx ι} {t : Shape ι},
    (h.root = (plug C t).ptr ∧ Rep h none (plug C t)) ↔ RepCtx h C t.ptr ∧ Rep h (above C) t
  | [], t => Iff.rfl
  | f :: C, t => by
    rw [plug_cons, rep_plug_iff (C := C), ptr_mk, rep_mk]
    simp only [RepCtx, above]
    tauto

theorem linked_plug_iff {h : Rb ι} {C : Ctx ι} {t : Shape ι} :
    Linked h (plug C t) ↔
      RepCtx h C t.ptr ∧ Rep h (above C) t ∧ (t.toList ++ names C).Nodup := by
  have hn : (plug C t).toList.Nodup ↔ (t.toList ++ names C).Nodup := (names_perm C t).nodup_iff
  constructor
  · rintro ⟨h1, h2, h3⟩
    obtain ⟨h4, h5⟩ := rep_plug_iff.mp ⟨h1, h2⟩
    exact ⟨h4, h5, hn.mp h3⟩
  · rintro ⟨h1, h2, h3⟩
    obtain ⟨h4, h5⟩ := rep_plug_iff.mpr ⟨h1, h2⟩
    exact ⟨h4, h5, hn.mpr h3⟩

theorem rep_congr {h h' : Rb ι} : ∀ {t : Shape ι} {q : Option ι},
    (∀ z ∈ t.toList, h'.entry z = h.entry z) → Rep h q t → Rep h' q t
  | .nil, _, _, _ => trivial
  | .node c l x r, q, he, ⟨h1, h2, h3⟩ => by
    have hx := he x (by simp [toList])
    refine ⟨hx.trans h1, rep_congr (fun z hz => he z ?_) h2, rep_congr (fun z hz => he z ?_) h3⟩
    · simp [toList, hz]
    · simp [toList, hz]

theorem repCtx_congr {h h' : Rb ι} : ∀ {C : Ctx ι} {p : Option ι},
    (∀ z ∈ names C, h'.entry z = h.entry z) → h'.root = h.root → RepCtx h C p → RepCtx h' C p
  | [], p, _, hr, hc => hr.trans hc
  | f :: C, p, he, hr, ⟨h1, h2, h3⟩ => by
    refine ⟨(he f.x (by simp [names])).trans h1, rep_congr (fun z hz => he z ?_) h2,
      repCtx_congr (fun z hz => he z ?_) hr h3⟩
    · simp [names, hz]
    · simp [names, hz]

/-! ### The fields after an assignment -/

section Assign
variable [DecidableEq ι] (h : Rb ι) (x : ι)

@[simp] theorem root_setEntry (e : RbEntry ι) : (h.setEntry x e).root = h.root := rfl

@[simp] theorem root_setChild (d : Dir) (v : Option ι) : (h.setChild d x v).root = h.root := by
  cases d <;> rfl

@[simp] theorem root_setParent (v : Option ι) : (h.setParent x v).root = h.root := rfl

@[simp] theorem root_setColor (c : Color) : (h.setColor x c).root = h.root := rfl

@[simp] theorem root_setParent? (p v : Option ι) : (h.setParent? p v).root = h.root := by
  cases p <;> rfl

theorem entry_setEntry_self (e : RbEntry ι) : (h.setEntry x e).entry x = e := by
  simp [Rb.setEntry]

theorem entry_setEntry_ne {z : ι} (e : RbEntry ι) (hz : z ≠ x) :
    (h.setEntry x e).entry z = h.entry z := by
  simp [Rb.setEntry, hz]

theorem entry_setChild_ne {z : ι} (d : Dir) (v : Option ι) (hz : z ≠ x) :
    (h.setChild d x v).entry z = h.entry z := by
  cases d <;> exact entry_setEntry_ne _ _ _ hz

theorem entry_setParent_ne {z : ι} (v : Option ι) (hz : z ≠ x) :
    (h.setParent x v).entry z = h.entry z := entry_setEntry_ne _ _ _ hz

theorem entry_setColor_ne {z : ι} (c : Color) (hz : z ≠ x) :
    (h.setColor x c).entry z = h.entry z := entry_setEntry_ne _ _ _ hz

theorem entry_setParent?_ne {z : ι} (p v : Option ι) (hz : p ≠ some z) :
    (h.setParent? p v).entry z = h.entry z := by
  cases p with
  | none => rfl
  | some y => exact entry_setParent_ne _ _ _ (fun e => hz (by rw [e]))

theorem entry_relink_ne {z : ι} (p : Option ι) (old : ι) (new : Option ι) (hz : p ≠ some z) :
    (h.relink p old new).entry z = h.entry z := by
  cases p with
  | none => rfl
  | some y =>
    have hy : z ≠ y := fun e => hz (by rw [e])
    simp only [Rb.relink]
    split_ifs <;> exact entry_setChild_ne _ _ _ _ hy

variable {h x} {d : Dir} {c : Color} {a b q : Option ι}

/-- A child pointer is assigned. -/
theorem entry_setChild_mk (v : Option ι) (he : h.entry x = mkEntry d c a b q) :
    (h.setChild d x v).entry x = mkEntry d c v b q := by
  cases d <;> simp [Rb.setChild, entry_setEntry_self, he, mkEntry]

theorem entry_setChild_flip_mk (v : Option ι) (he : h.entry x = mkEntry d c a b q) :
    (h.setChild d.flip x v).entry x = mkEntry d c a v q := by
  cases d <;> simp [Rb.setChild, Dir.flip, entry_setEntry_self, he, mkEntry]

theorem entry_setParent_mk (v : Option ι) (he : h.entry x = mkEntry d c a b q) :
    (h.setParent x v).entry x = mkEntry d c a b v := by
  cases d <;> simp [Rb.setParent, entry_setEntry_self, he, mkEntry]

theorem entry_setColor_mk (c' : Color) (he : h.entry x = mkEntry d c a b q) :
    (h.setColor x c').entry x = mkEntry d c' a b q := by
  cases d <;> simp [Rb.setColor, entry_setEntry_self, he, mkEntry]

omit [DecidableEq ι] in
theorem child_of_entry (he : h.entry x = mkEntry d c a b q) : h.child d x = a := by
  cases d <;> simp [Rb.child, he, mkEntry]

omit [DecidableEq ι] in
theorem child_flip_of_entry (he : h.entry x = mkEntry d c a b q) : h.child d.flip x = b := by
  cases d <;> simp [Rb.child, Dir.flip, he, mkEntry]

omit [DecidableEq ι] in
theorem parent_of_entry (he : h.entry x = mkEntry d c a b q) : h.parent x = q := by
  cases d <;> simp [Rb.parent, he, mkEntry]

omit [DecidableEq ι] in
theorem color_of_entry (he : h.entry x = mkEntry d c a b q) : h.color x = c := by
  cases d <;> simp [Rb.color, he, mkEntry]

end Assign

/-! ### Local changes -/

theorem nodup_mk {d : Dir} {c : Color} {a b : Shape ι} {x : ι} {l : List ι} :
    ((mk d c a x b).toList ++ l).Nodup ↔ (x :: (a.toList ++ (b.toList ++ l))).Nodup := by
  rw [((toList_mk_perm d c a x b).append_right l).nodup_iff]
  simp

theorem ptr_ne {t : Shape ι} {z : ι} (hz : z ∉ t.toList) : t.ptr ≠ some z :=
  fun h => hz (toList_ne_nil h)

theorem above_ne {C : Ctx ι} {z : ι} (hz : z ∉ names C) : above C ≠ some z := by
  cases C with
  | nil => simp [above]
  | cons f C =>
    simp only [names, List.mem_cons, not_or] at hz
    simp only [above, ne_eq, Option.some.injEq]
    exact fun e => hz.1 e.symm

section Local
variable [DecidableEq ι]

/-- Painting a linked element. -/
theorem moved_setColor {h : Rb ι} {C : Ctx ι} {d : Dir} {c : Color} {a b : Shape ι} {x : ι}
    (c' : Color) (hl : Linked h (plug C (mk d c a x b))) :
    Moved h (plug C (mk d c a x b)) (h.setColor x c') (plug C (mk d c' a x b)) := by
  obtain ⟨h1, h2, h3⟩ := linked_plug_iff.mp hl
  obtain ⟨he, ha, hb⟩ := rep_mk.mp h2
  have hn := nodup_mk.mp h3
  simp only [List.nodup_cons, List.mem_append, not_or] at hn
  have hne : ∀ z, z ≠ x → (h.setColor x c').entry z = h.entry z :=
    fun z hz => entry_setColor_ne _ _ _ hz
  refine ⟨linked_plug_iff.mpr ⟨?_, rep_mk.mpr ⟨entry_setColor_mk _ he, ?_, ?_⟩, ?_⟩, ?_, ?_⟩
  · rw [ptr_mk] at h1 ⊢
    exact repCtx_congr (fun z hz => hne z fun e => hn.1.2.2 (e ▸ hz)) rfl h1
  · exact rep_congr (fun z hz => hne z fun e => hn.1.1 (e ▸ hz)) ha
  · exact rep_congr (fun z hz => hne z fun e => hn.1.2.1 (e ▸ hz)) hb
  · exact nodup_mk.mpr (nodup_mk.mp h3)
  · exact toList_plug_congr C (by cases d <;> simp [Shape.mk, Shape.toList])
  · refine fun z hz => hne z fun e => hz ?_
    exact mem_plug.mpr (.inl (mem_mk.mpr (.inl e)))

/-- A subtree gets another parent. -/
theorem rep_reparent {h : Rb ι} {q : Option ι} (q' : Option ι) {t : Shape ι}
    (hn : t.toList.Nodup) (hr : Rep h q t) : Rep (h.setParent? t.ptr q') q' t := by
  cases t with
  | nil => trivial
  | node c l x r =>
    obtain ⟨he, hl, hr⟩ := hr
    simp only [toList] at hn
    rw [(List.perm_middle (a := x)).nodup_iff] at hn
    simp only [List.nodup_cons, List.mem_append, not_or] at hn
    have hne : ∀ z, z ≠ x → (h.setParent? (Shape.node c l x r).ptr q').entry z = h.entry z :=
      fun z hz => entry_setParent_ne _ _ _ hz
    refine ⟨?_, ?_, ?_⟩
    · exact entry_setParent_mk (d := .left) q' he
    · exact rep_congr (fun z hz => hne z fun e => hn.1.1 (e ▸ hz)) hl
    · exact rep_congr (fun z hz => hne z fun e => hn.1.2 (e ▸ hz)) hr

/-- The pointer in the hole is replaced. -/
theorem repCtx_relink {h : Rb ι} {C : Ctx ι} {old : ι} (new : Option ι) (hold : old ∉ names C)
    (hn : (names C).Nodup) (hc : RepCtx h C (some old)) :
    RepCtx (h.relink (above C) old new) C new := by
  cases C with
  | nil => rfl
  | cons f C =>
    obtain ⟨he, hs, hC⟩ := hc
    simp only [names, List.nodup_cons, List.mem_append, not_or] at hn
    simp only [names, List.mem_cons, List.mem_append, not_or] at hold
    have hrel : h.relink (above (f :: C)) old new = h.setChild f.d f.x new := by
      simp only [above, Rb.relink]
      have hc := child_of_entry he
      have hcf := child_flip_of_entry he
      cases hd : f.d with
      | left => rw [hd] at hc; rw [if_pos hc]
      | right =>
        rw [hd] at hcf
        have : h.child .left f.x ≠ some old := by
          intro e
          rw [show Dir.left = Dir.right.flip from rfl, hcf] at e
          exact ptr_ne hold.2.1 e
        rw [if_neg this]
    rw [hrel]
    have hne : ∀ z, z ≠ f.x → (h.setChild f.d f.x new).entry z = h.entry z :=
      fun z hz => entry_setChild_ne _ _ _ _ hz
    refine ⟨entry_setChild_mk _ he, ?_, ?_⟩
    · exact rep_congr (fun z hz => hne z fun e => hn.1.1 (e ▸ hz)) hs
    · exact repCtx_congr (fun z hz => hne z fun e => hn.1.2 (e ▸ hz)) (by simp) hC

/-- **A rotation** in place: `y`, the child of `x` away from `d`, takes the place of `x`. -/
theorem moved_rotate {h : Rb ι} {C : Ctx ι} {d : Dir} {c c' : Color} {a b e : Shape ι} {x y : ι}
    (hl : Linked h (plug C (mk d c a x (mk d c' b y e)))) :
    ∃ h', h.rotate d x = some h' ∧ Moved h (plug C (mk d c a x (mk d c' b y e)))
      h' (plug C (mk d c' (mk d c a x b) y e)) := by
  obtain ⟨h1, h2, h3⟩ := linked_plug_iff.mp hl
  obtain ⟨hx, ha, h2'⟩ := rep_mk.mp h2
  obtain ⟨hy, hb, he⟩ := rep_mk.mp h2'
  rw [ptr_mk] at hx h1
  have hn := nodup_mk.mp h3
  have hperm : (x :: (a.toList ++ ((mk d c' b y e).toList ++ names C))).Perm
      (x :: y :: (a.toList ++ (b.toList ++ (e.toList ++ names C)))) := by
    refine List.Perm.cons _ ?_
    refine ((((toList_mk_perm d c' b y e).append_right _).append_left a.toList)).trans ?_
    simp only [List.cons_append, List.append_assoc]
    exact List.perm_middle
  rw [hperm.nodup_iff] at hn
  simp only [List.nodup_cons, List.mem_cons, List.mem_append, not_or, List.nodup_append] at hn
  obtain ⟨⟨hxy, hxa, hxb, hxe, hxC⟩, ⟨hya, hyb, hye, hyC⟩, hna, ⟨hnb, ⟨hne, hnC, heC⟩, hbeC⟩,
    haR⟩ := hn
  have hb_e : ∀ z ∈ b.toList, z ∉ e.toList := fun z hz hz' => hbeC z hz z (Or.inl hz') rfl
  have hb_C : ∀ z ∈ b.toList, z ∉ names C := fun z hz hz' => hbeC z hz z (Or.inr hz') rfl
  set g1 := h.setChild d.flip x b.ptr with hg1
  set g2 := g1.setParent? b.ptr (some x) with hg2
  set g3 := g2.setParent y (above C) with hg3
  set g4 := g3.relink (above C) x (some y) with hg4
  set g5 := g4.setChild d y (some x) with hg5
  set g6 := g5.setParent x (some y) with hg6
  have hbx : b.ptr ≠ some x := ptr_ne hxb
  have hby : b.ptr ≠ some y := ptr_ne hyb
  have hCx : above C ≠ some x := above_ne hxC
  have hCy : above C ≠ some y := above_ne hyC
  have e1x : g1.entry x = mkEntry d c a.ptr b.ptr (above C) := entry_setChild_flip_mk _ hx
  have e2x : g2.entry x = mkEntry d c a.ptr b.ptr (above C) :=
    (entry_setParent?_ne _ _ _ hbx).trans e1x
  have e2y : g2.entry y = mkEntry d c' b.ptr e.ptr (some x) :=
    ((entry_setParent?_ne _ _ _ hby).trans (entry_setChild_ne _ _ _ _ (Ne.symm hxy))).trans hy
  have e3x : g3.entry x = mkEntry d c a.ptr b.ptr (above C) :=
    (entry_setParent_ne _ _ _ hxy).trans e2x
  have e3y : g3.entry y = mkEntry d c' b.ptr e.ptr (above C) := entry_setParent_mk _ e2y
  have e5y : g5.entry y = mkEntry d c' (some x) e.ptr (above C) :=
    entry_setChild_mk _ ((entry_relink_ne _ _ _ _ hCy).trans e3y)
  have e5x : g5.entry x = mkEntry d c a.ptr b.ptr (above C) :=
    ((entry_setChild_ne _ _ _ _ hxy).trans (entry_relink_ne _ _ _ _ hCx)).trans e3x
  have e6x : g6.entry x = mkEntry d c a.ptr b.ptr (some y) := entry_setParent_mk _ e5x
  have e6y : g6.entry y = mkEntry d c' (some x) e.ptr (above C) :=
    (entry_setParent_ne _ _ _ (Ne.symm hxy)).trans e5y
  have o3 : ∀ z, z ≠ x → z ≠ y → b.ptr ≠ some z → g3.entry z = h.entry z := fun z hzx hzy hzb =>
    (entry_setParent_ne _ _ _ hzy).trans
      ((entry_setParent?_ne _ _ _ hzb).trans (entry_setChild_ne _ _ _ _ hzx))
  have o6 : ∀ z, z ≠ x → z ≠ y → above C ≠ some z → g6.entry z = g3.entry z :=
    fun z hzx hzy hzC => (entry_setParent_ne _ _ _ hzx).trans
      ((entry_setChild_ne _ _ _ _ hzy).trans (entry_relink_ne _ _ _ _ hzC))
  have hrot : h.rotate d x = some g6 := by
    have c1 : h.child d.flip x = some y := child_flip_of_entry hx
    have c2 : h.child d y = b.ptr := child_of_entry hy
    have c3 : g1.child d y = b.ptr := by
      have : g1.entry y = h.entry y := entry_setChild_ne _ _ _ _ (Ne.symm hxy)
      exact child_of_entry (this.trans hy)
    have c4 : g2.parent x = above C := parent_of_entry e2x
    have c5 : g3.parent x = above C := parent_of_entry e3x
    simp only [Rb.rotate, c1, Option.bind_eq_bind, Option.bind_some, c2, ← hg1, c3, ← hg2, c4,
      ← hg3, c5, ← hg4, ← hg5, ← hg6]
    rfl
  have hlist := toList_plug_congr C (toList_rotate d c c' a b e x y c' c)
  refine ⟨g6, hrot,
    linked_plug_iff.mpr ⟨?_, rep_mk.mpr ⟨?_, rep_mk.mpr ⟨?_, ?_, ?_⟩, ?_⟩, ?_⟩, hlist, ?_⟩
  · rw [ptr_mk]
    have r3 : RepCtx g3 C (some x) := by
      refine repCtx_congr (fun z hz => o3 z ?_ ?_ ?_) (by simp [hg3, hg2, hg1]) h1
      · exact fun e => hxC (e ▸ hz)
      · exact fun e => hyC (e ▸ hz)
      · exact fun e => hb_C z (toList_ne_nil e) hz
    have r4 : RepCtx g4 C (some y) := repCtx_relink _ hxC hnC r3
    refine repCtx_congr (fun z hz => ?_) (by simp [hg6, hg5]) r4
    have hzx : z ≠ x := fun e => hxC (e ▸ hz)
    have hzy : z ≠ y := fun e => hyC (e ▸ hz)
    exact (entry_setParent_ne _ _ _ hzx).trans (entry_setChild_ne _ _ _ _ hzy)
  · rw [ptr_mk]; exact e6y
  · exact e6x
  · refine rep_congr (fun z hz => ?_) ha
    have hzx : z ≠ x := fun e => hxa (e ▸ hz)
    have hzy : z ≠ y := fun e => hya (e ▸ hz)
    rw [o6 z hzx hzy (above_ne fun hz' => haR z hz z (Or.inr (Or.inr hz')) rfl),
      o3 z hzx hzy (ptr_ne fun hz' => haR z hz z (Or.inl hz') rfl)]
  · have hb1 : Rep g1 (some y) b :=
      rep_congr (fun z hz => entry_setChild_ne _ _ _ _ fun e => hxb (e ▸ hz)) hb
    refine rep_congr (fun z hz => ?_) (rep_reparent (some x) hnb hb1)
    have hzx : z ≠ x := fun e => hxb (e ▸ hz)
    have hzy : z ≠ y := fun e => hyb (e ▸ hz)
    rw [o6 z hzx hzy (above_ne (hb_C z hz))]
    exact entry_setParent_ne _ _ _ hzy
  · refine rep_congr (fun z hz => ?_) he
    have hzx : z ≠ x := fun e => hxe (e ▸ hz)
    have hzy : z ≠ y := fun e => hye (e ▸ hz)
    rw [o6 z hzx hzy (above_ne fun hz' => heC z hz z hz' rfl),
      o3 z hzx hzy (ptr_ne fun hz' => hb_e z hz' hz)]
  · have := (names_perm C (mk d c a x (mk d c' b y e))).nodup_iff.mp hl.nodup
    rw [← (names_perm C _).nodup_iff] at this ⊢
    rwa [hlist]
  · intro z hz
    rw [mem_plug, mem_mk, mem_mk] at hz
    simp only [not_or] at hz
    obtain ⟨⟨hzx, hza, hzy, hzb, hze⟩, hzC⟩ := hz
    rw [o6 z hzx hzy (above_ne hzC), o3 z hzx hzy (ptr_ne hzb)]

end Local

end Xstack.Tree.Repr
