import Xstack.Tree.Repr

/-! # `RB_INSERT`

`rbInsert_spec`: on a linked, balanced tree, an element that is not linked and equal to none of the
elements on its way down is linked at the place where the descent ends; the tree stays balanced, and
neither the order of the other elements nor the link fields outside the tree change. No property of
the comparison is used, so the result also holds for a comparison that is not an order. -/

namespace Xstack.Tree.Insert

open Xstack.Lib.TreeShape Xstack.Lib.TreeShape.Shape Xstack.Tree.Macros Xstack.Tree.Repr

variable {ι : Type}

theorem entry_of_linked {h : Rb ι} {C : Ctx ι} {d : Dir} {c : Color} {a b : Shape ι} {x : ι}
    (hl : Linked h (plug C (mk d c a x b))) : h.entry x = mkEntry d c a.ptr b.ptr (above C) :=
  (rep_mk.mp (linked_plug_iff.mp hl).2.1).1

/-- The side on which `p` hangs, as `tree.h` tests it. -/
theorem side_eq [DecidableEq ι] {h : Rb ι} {g p : ι} {d : Dir} {c : Color} {u q : Option ι}
    (he : h.entry g = mkEntry d c (some p) u q) (hu : u ≠ some p) :
    (if h.child .left g = some p then Dir.left else Dir.right) = d := by
  cases d with
  | left => rw [if_pos (child_of_entry he)]
  | right =>
    rw [if_neg]
    rw [show Dir.left = Dir.right.flip from rfl, child_flip_of_entry he]
    exact hu

theorem isRed_ptr {h : Rb ι} {q : Option ι} {t : Shape ι} (hr : Rep h q t) :
    h.isRed t.ptr = true ↔ t.color = .red := by
  cases t with
  | nil => simp [Shape.ptr, Rb.isRed, Shape.color]
  | node c l x r =>
    have hc := color_of_entry (d := .left) hr.1
    simp [Shape.ptr, Rb.isRed, Shape.color, hc]

/-- An element below a node is not its other child. -/
theorem sib_ne {h : Rb ι} {f : Frame ι} {C : Ctx ι} {t : Shape ι} {x : ι}
    (hl : Linked h (plug (f :: C) t)) (hx : t.ptr = some x) : f.sib.ptr ≠ some x := by
  have hn := (linked_plug_iff.mp hl).2.2
  rw [List.nodup_append] at hn
  intro e
  refine hn.2.2 x (toList_ne_nil hx) x ?_ rfl
  simp [names, toList_ne_nil e]

theorem plug_ptr_ne_none (C : Ctx ι) {t : Shape ι} (ht : t.ptr ≠ none) :
    (plug C t).ptr ≠ none := by
  obtain ⟨x, hx⟩ := Option.ne_none_iff_exists'.mp ht
  intro e
  have hm : x ∈ (plug C t).toList := mem_plug.mpr (.inl (toList_ne_nil hx))
  rw [ptr_eq_none.mp e] at hm
  simp [toList] at hm

theorem ptr_of_red {t : Shape ι} (h : t.color = .red) : ∃ x, t.ptr = some x := by
  rcases t with _ | ⟨c, l, x, r⟩
  · simp [Shape.color] at h
  · exact ⟨x, rfl⟩

section
variable [DecidableEq ι]

/-- The last line of `RB_INSERT_COLOR`: the root is painted black. -/
theorem moved_paint_root {h : Rb ι} {t : Shape ι} (hl : Linked h t) (ht : t.ptr ≠ none) :
    ∃ h', (h.root.map fun r => h.setColor r .black) = some h' ∧
      Moved h t h' (t.paint .black) := by
  obtain ⟨r, hr⟩ := Option.ne_none_iff_exists'.mp ht
  obtain ⟨a, b, e⟩ := exists_mk .left hr
  have hl' : Linked h (plug [] (mk .left t.color a r b)) := by rw [plug_nil, ← e]; exact hl
  refine ⟨h.setColor r .black, by rw [hl.root, hr]; rfl, ?_⟩
  rw [e, paint_mk]
  exact moved_setColor .black hl'

/-- The last rotation of `RB_INSERT_COLOR`: `p` is painted black, `g` red, and `p` takes the place
of `g`. -/
theorem moved_raise {h : Rb ι} {C : Ctx ι} {d : Dir} {t s u : Shape ι} {p g : ι}
    (hl : Linked h (plug C (mk d .black (mk d .red t p s) g u))) :
    ∃ h', ((h.setColor p .black).setColor g .red).rotate d.flip g = some h' ∧
      Moved h (plug C (mk d .black (mk d .red t p s) g u))
        h' (plug (⟨d, .black, p, mk d.flip .red u g s⟩ :: C) t) := by
  have m1 := moved_setColor (C := ⟨d, .black, g, u⟩ :: C) .black hl
  have m2 := moved_setColor (C := C) .red m1.linked
  have e : plug C (mk d .red (mk d .black t p s) g u) =
      plug C (mk d.flip .red u g (mk d.flip .black s p t)) := by rw [mk_flip, mk_flip]
  rw [e] at m2
  obtain ⟨h', hr, m3⟩ := moved_rotate m2.linked
  have m := (m1.trans m2).trans m3
  rw [mk_flip d .black] at m
  exact ⟨h', hr, m⟩

/-! ### The passes of the loop -/

section Pass
variable {h h1 h' : Rb ι} {fuel : ℕ} {x p g y : ι} {d : Dir}

theorem insertColor_top (hx : h.parent x = none) :
    h.insertColor (fuel + 1) x = h.root.map fun r => h.setColor r .black := by
  simp [Rb.insertColor, hx]

theorem insertColor_black (hx : h.parent x = some p) (hp : h.color p = .black) :
    h.insertColor (fuel + 1) x = h.root.map fun r => h.setColor r .black := by
  simp [Rb.insertColor, hx, hp]

variable (hx : h.parent x = some p) (hp : h.color p = .red) (hg : h.parent p = some g)
  (hd : (if h.child .left g = some p then Dir.left else Dir.right) = d)
include hx hp hg hd

theorem insertColor_uncle (hu : h.child d.flip g = some y) (hy : h.color y = .red) :
    h.insertColor (fuel + 1) x =
      (((h.setColor y .black).setColor p .black).setColor g .red).insertColor fuel g := by
  simp [Rb.insertColor, hx, hp, hg, hd, hu, Rb.isRed, hy, Rb.blacken]

theorem insertColor_outer (hu : ¬ h.isRed (h.child d.flip g) = true)
    (hi : h.child d.flip p ≠ some x)
    (hr : ((h.setColor p .black).setColor g .red).rotate d.flip g = some h') :
    h.insertColor (fuel + 1) x = h'.insertColor fuel x := by
  simp [Rb.insertColor, hx, hp, hg, hd, hu, hi, hr]

theorem insertColor_inner (hu : ¬ h.isRed (h.child d.flip g) = true)
    (hi : h.child d.flip p = some x) (hr1 : h.rotate d p = some h1)
    (hr : ((h1.setColor x .black).setColor g .red).rotate d.flip g = some h') :
    h.insertColor (fuel + 1) x = h'.insertColor fuel p := by
  simp [Rb.insertColor, hx, hp, hg, hd, hu, hi, hr1, hr]

end Pass

/-- The first case of the loop: parent and uncle are painted black, the grandparent red. -/
theorem moved_recolor {h : Rb ι} {C : Ctx ι} {d e : Dir} {t s ua ub : Shape ι} {p g y : ι}
    (hl : Linked h (plug C (mk d .black (mk e .red t p s) g (mk .left .red ua y ub)))) :
    Moved h (plug C (mk d .black (mk e .red t p s) g (mk .left .red ua y ub)))
      (((h.setColor y .black).setColor p .black).setColor g .red)
      (plug C (mk d .red (mk e .black t p s) g (mk .left .black ua y ub))) := by
  rw [← mk_flip] at hl ⊢
  have m1 := moved_setColor (C := ⟨d.flip, .black, g, mk e .red t p s⟩ :: C) .black hl
  have hl2 := m1.linked
  rw [plug_cons, mk_flip] at hl2
  have m2 := moved_setColor (C := ⟨d, .black, g, mk .left .black ua y ub⟩ :: C) .black hl2
  have m3 := moved_setColor (C := C) .red m2.linked
  rw [plug_cons, plug_cons, mk_flip d .black (mk .left .black ua y ub)] at m1
  exact (m1.trans m2).trans m3

/-- **`RB_INSERT_COLOR`** started at a red element whose context is balanced. -/
theorem insertColor_spec : ∀ (fuel : ℕ) {h : Rb ι} {C : Ctx ι} {d : Dir} {a b : Shape ι} {x : ι}
    {n : ℕ}, C.length < fuel → Linked h (plug C (mk d .red a x b)) → Bal (mk d .red a x b) n →
    HoleBal C .black n → ∃ h' t', h.insertColor fuel x = some h' ∧ Good t' ∧
      Moved h (plug C (mk d .red a x b)) h' t'
  | 0, _, _, _, _, _, _, _, hf, _, _, _ => absurd hf (Nat.not_lt_zero _)
  | fuel + 1, h, C, d, a, b, x, n, hf, hl, hb, hC => by
    set T := plug C (mk d .red a x b) with hT
    have hx := parent_of_entry (entry_of_linked hl)
    have hroot : Good (T.paint .black) →
        h.insertColor (fuel + 1) x = (h.root.map fun r => h.setColor r .black) →
        ∃ h' t', h.insertColor (fuel + 1) x = some h' ∧ Good t' ∧ Moved h T h' t' := by
      intro hg he
      obtain ⟨h', h1, h2⟩ := moved_paint_root hl (plug_ptr_ne_none C (by simp))
      exact ⟨h', _, by rw [he, h1], hg, h2⟩
    rcases hC with _ | @⟨d1, p, s, C1, _, hs, hcs, hC'⟩ | @⟨d1, p, s, C1, _, _, hs, hC'⟩
    · refine hroot ?_ (insertColor_top hx)
      exact ⟨by simp [hT], n + 1, by simpa [hT] using hb.paint_black (by simp)⟩
    · rcases hC' with _ | _ | @⟨d2, g, u, C2, _, _, hu, hC2⟩
      have hl1 : Linked h (plug (⟨d2, .black, g, u⟩ :: C2) (mk d1 .red (mk d .red a x b) p s)) := hl
      have hl2 : Linked h (plug C2 (mk d2 .black (mk d1 .red (mk d .red a x b) p s) g u)) := hl
      have hp := entry_of_linked hl1
      have hg := entry_of_linked hl2
      rw [ptr_mk] at hp hg
      have hside := side_eq hg (sib_ne hl1 (by simp))
      have hsx : s.ptr ≠ some x := sib_ne hl (by simp)
      have hcp := color_of_entry hp
      have hgp : h.parent p = some g := parent_of_entry hp
      have huc := child_flip_of_entry hg
      have hur : h.isRed u.ptr = true ↔ u.color = .red :=
        isRed_ptr (rep_mk.mp (linked_plug_iff.mp hl2).2.1).2.2
      have hfuel : C2.length + 1 < fuel := by simp at hf; omega
      by_cases hcu : u.color = .red
      · obtain ⟨y, hy⟩ := ptr_of_red hcu
        obtain ⟨ua, ub, eu⟩ := exists_mk .left hy
        rw [hcu] at eu
        subst eu
        have hyr : h.color y = .red := by
          have := hur.mpr hcu
          rw [hy] at this
          simpa [Rb.isRed] using this
        have m1 := moved_recolor hl2
        obtain ⟨hua, hub, -, -⟩ := hu.of_red
        have hb' : Bal (mk d2 .red (mk d1 .black (mk d .red a x b) p s) g (mk .left .black ua y ub))
            (n + 1) :=
          bal_mk_red (bal_mk_black hb hs) (bal_mk_black hua hub) (by simp) (by simp)
        obtain ⟨h', t', h1, h2, m2⟩ := insertColor_spec fuel (by omega) m1.linked hb' hC2
        refine ⟨h', t', ?_, h2, m1.trans m2⟩
        rw [insertColor_uncle hx hcp hgp hside (huc.trans hy) hyr, h1]
      · have hub : u.color = .black := by
          rcases hc : u.color with _ | _
          · rfl
          · exact absurd hc hcu
        have hnr : ¬ h.isRed (h.child d2.flip g) = true := by rw [huc, hur]; exact hcu
        by_cases hdd : d1 = d2
        · subst hdd
          obtain ⟨h1, hr, m1⟩ := moved_raise hl2
          obtain ⟨h', t', e1, h2, m2⟩ := insertColor_spec fuel (by simpa using hfuel) m1.linked hb
            (.black (bal_mk_red hu hs hub hcs) hC2)
          refine ⟨h', t', ?_, h2, m1.trans m2⟩
          rw [insertColor_outer hx hcp hgp hside hnr ?_ hr, e1]
          rw [child_flip_of_entry hp]; exact hsx
        · have hdf : d1 = d2.flip := (Dir.eq_or_flip d2 d1).resolve_left hdd
          subst hdf
          obtain ⟨ta, tb, et⟩ := exists_mk d2 (ptr_mk d .red a x b)
          rw [color_mk] at et
          have hT' : T = plug (⟨d2, .black, g, u⟩ :: C2) (mk d2 .red s p (mk d2 .red ta x tb)) := by
            rw [hT, et, plug_cons, mk_flip]
          obtain ⟨h1, hr1, m1⟩ := moved_rotate (hT' ▸ hl)
          obtain ⟨h2, hr2, m2⟩ := moved_raise m1.linked
          rw [et] at hb
          obtain ⟨hta, htb, hcta, hctb⟩ := hb.of_red
          obtain ⟨h', t', e1, h3, m3⟩ := insertColor_spec fuel (by simpa using hfuel) m2.linked
            (bal_mk_red hs hta hcs hcta) (.black (bal_mk_red hu htb hub hctb) hC2)
          refine ⟨h', t', ?_, h3, ?_⟩
          · rw [insertColor_inner hx hcp hgp hside hnr (child_of_entry hp) hr1 hr2, e1]
          · rw [hT']; exact (m1.trans m2).trans m3
    · have hp := entry_of_linked (C := C1) (show Linked h (plug C1 (mk d1 .black _ p s)) from hl)
      refine hroot ?_ (insertColor_black hx (color_of_entry hp))
      have hg : Good T := bal_plug (c := .red) (.black hs hC') hb (by simp)
      rw [hg.paint]; exact hg

/-! ### The descent -/

/-- The comparison with the new element changes its sign at one place of the list. -/
def Mono (cmp : ι → ℤ) (l : List ι) : Prop :=
  l.Pairwise fun z w => (0 < cmp w → 0 < cmp z) ∧ (cmp z < 0 → cmp w < 0)

/-- The names before the hole are smaller than the new element, those behind it larger. -/
def Between (cmp : ι → ℤ) (C : Ctx ι) : Prop :=
  (∀ z ∈ pre C, 0 < cmp z) ∧ ∀ z ∈ post C, cmp z < 0

omit [DecidableEq ι] in
theorem between_step {cmp : ι → ℤ} {C : Ctx ι} {d : Dir} {c : Color} {a b : Shape ι} {x : ι}
    (hm : Mono cmp (plug C (mk d c a x b)).toList) (hB : Between cmp C)
    (hx : match d with | .left => cmp x < 0 | .right => 0 < cmp x) :
    Between cmp (⟨d, c, x, b⟩ :: C) := by
  rw [toList_plug, Mono, List.pairwise_append] at hm
  obtain ⟨-, hm, -⟩ := hm
  rw [List.pairwise_append] at hm
  obtain ⟨hm, -, -⟩ := hm
  rcases d with _ | _
  · simp only [Shape.mk, toList, List.pairwise_append, List.pairwise_cons] at hm
    refine ⟨hB.1, fun z hz => ?_⟩
    simp only [post, List.mem_cons, List.mem_append] at hz
    rcases hz with rfl | hz | hz
    · exact hx
    · exact (hm.2.1.1 z hz).2 hx
    · exact hB.2 z hz
  · simp only [Shape.mk, toList, List.pairwise_append, List.pairwise_cons] at hm
    refine ⟨fun z hz => ?_, hB.2⟩
    simp only [pre, List.mem_append, List.mem_singleton] at hz
    rcases hz with hz | hz | rfl
    · exact hB.1 z hz
    · exact (hm.2.2 z hz x (by simp)).1 hx
    · exact hx

omit [DecidableEq ι] in
/-- **The descent of `RB_INSERT`** ends at an equal element or at an empty place. -/
theorem descend_spec (cmp : ι → ℤ) {h : Rb ι} : ∀ (fuel : ℕ) {C : Ctx ι} {t : Shape ι} {d : Dir},
    t.toList.length < fuel → Linked h (plug C t) → (∀ f C', C = f :: C' → d = f.d) →
    (∃ x ∈ t.toList, cmp x = 0 ∧ h.descend cmp fuel t.ptr (above C) d = some (.found x)) ∨
    ∃ C' d', plug C t = plug C' .nil ∧ (∀ f C'', C' = f :: C'' → d' = f.d) ∧
      h.descend cmp fuel t.ptr (above C) d = some (.below (above C') d') ∧
      (Mono cmp (plug C t).toList → Between cmp C → Between cmp C')
  | 0, _, _, _, hf, _, _ => absurd hf (Nat.not_lt_zero _)
  | fuel + 1, C, .nil, d, _, _, hd => Or.inr ⟨C, d, rfl, hd, rfl, fun _ hB => hB⟩
  | fuel + 1, C, .node c l x r, d, hf, hl, _ => by
    simp only [toList, List.length_append, List.length_cons] at hf
    have he := entry_of_linked (d := .left) hl
    have hcl : h.child .left x = l.ptr := child_of_entry he
    have hcr : h.child .right x = r.ptr := child_flip_of_entry he
    rcases lt_trichotomy (cmp x) 0 with hlt | heq | hgt
    · have hstep : h.descend cmp (fuel + 1) (Shape.node c l x r).ptr (above C) d =
          h.descend cmp fuel l.ptr (some x) .left := by
        simp [Rb.descend, Shape.ptr, hlt, hcl]
      rw [hstep]
      rcases descend_spec cmp fuel (C := ⟨.left, c, x, r⟩ :: C) (t := l) (d := .left) (by omega) hl
        (by rintro f C' ⟨⟩; rfl) with ⟨y, hy, h0, hfd⟩ | ⟨C', d', h1, h2, h3, h4⟩
      · exact Or.inl ⟨y, by simp [toList, hy], h0, hfd⟩
      · exact Or.inr ⟨C', d', h1, h2, h3, fun hm hB => h4 hm (between_step (d := .left) hm hB hlt)⟩
    · refine Or.inl ⟨x, by simp [toList], heq, ?_⟩
      simp [Rb.descend, Shape.ptr, heq]
    · have hstep : h.descend cmp (fuel + 1) (Shape.node c l x r).ptr (above C) d =
          h.descend cmp fuel r.ptr (some x) .right := by
        simp [Rb.descend, Shape.ptr, hgt, hgt.le, hcr]
      rw [hstep]
      rcases descend_spec cmp fuel (C := ⟨.right, c, x, l⟩ :: C) (t := r) (d := .right) (by omega) hl
        (by rintro f C' ⟨⟩; rfl) with ⟨y, hy, h0, hfd⟩ | ⟨C', d', h1, h2, h3, h4⟩
      · exact Or.inl ⟨y, by simp [toList, hy], h0, hfd⟩
      · exact Or.inr ⟨C', d', h1, h2, h3, fun hm hB => h4 hm (between_step (d := .right) hm hB hgt)⟩

/-- `RB_SET` and the link from the parent fill an empty place. -/
theorem linked_attach {h : Rb ι} {C : Ctx ι} {d : Dir} {x : ι} (hl : Linked h (plug C .nil))
    (hd : ∀ f C', C = f :: C' → d = f.d) (hx : x ∉ (plug C .nil).toList) :
    Linked (h.attach x (above C) d) (plug C (mk .left .red .nil x .nil)) := by
  obtain ⟨h1, -, h3⟩ := linked_plug_iff.mp hl
  rw [(names_perm C .nil).mem_iff] at hx
  simp only [toList, List.nil_append] at h3 hx
  have hset : RepCtx (h.setEntry x ⟨none, none, above C, .red⟩) C none := by
    refine repCtx_congr (h := h) (fun z hz => ?_) rfl h1
    exact entry_setEntry_ne _ _ _ fun e => hx (e ▸ hz)
  refine linked_plug_iff.mpr ⟨?_, rep_mk.mpr ⟨?_, trivial, trivial⟩, ?_⟩
  · rcases C with _ | ⟨f, C⟩
    · rfl
    · rw [hd f C rfl]
      obtain ⟨he, hs, hC⟩ := hset
      simp only [names, List.nodup_cons, List.mem_append, not_or] at h3
      refine ⟨entry_setChild_mk _ he, ?_, ?_⟩
      · exact rep_congr (fun z hz => entry_setChild_ne _ _ _ _ fun e => h3.1.1 (e ▸ hz)) hs
      · refine repCtx_congr (fun z hz => ?_) (by simp [Rb.attach, above]) hC
        exact entry_setChild_ne _ _ _ _ fun e => h3.1.2 (e ▸ hz)
  · rcases C with _ | ⟨f, C⟩
    · exact entry_setEntry_self _ _ _
    · have hfx : x ≠ f.x := fun e => hx (by simp [names, e])
      exact (entry_setChild_ne _ _ _ _ hfx).trans (entry_setEntry_self _ _ _)
  · simp only [Shape.mk, toList, List.nil_append, List.cons_append, List.nodup_cons]
    exact ⟨hx, h3⟩

/-- **`RB_INSERT`** of an element that is not linked and equal to no linked one. -/
theorem rbInsert_spec {cmp : ι → ℤ} {h : Rb ι} {t : Shape ι} {x : ι} {fuel : ℕ}
    (hf : t.toList.length < fuel) (hl : Linked h t) (hg : Good t) (hx : x ∉ t.toList)
    (hc : ∀ z ∈ t.toList, cmp z ≠ 0) :
    ∃ h' t' p q, h.rbInsert fuel cmp x = some (h', none) ∧ Linked h' t' ∧ Good t' ∧
      t.toList = p ++ q ∧ t'.toList = p ++ x :: q ∧
      (Mono cmp t.toList → (∀ z ∈ p, 0 < cmp z) ∧ ∀ z ∈ q, cmp z < 0) ∧
      ∀ z, z ≠ x → z ∉ t.toList → h'.entry z = h.entry z := by
  rcases descend_spec cmp fuel (C := []) (t := t) (d := .right) hf hl (by simp) with
    ⟨y, hy, h0, -⟩ | ⟨C, d, h1, h2, h3, h4⟩
  · exact absurd h0 (hc y hy)
  · rw [plug_nil] at h1
    subst h1
    have hlist : (plug C (mk .left .red .nil x .nil)).toList = pre C ++ x :: post C := by
      rw [toList_plug]; simp [Shape.mk, toList]
    have hlist0 : (plug C (Shape.nil : Shape ι)).toList = pre C ++ post C := by
      rw [toList_plug]; simp [toList]
    have hla := linked_attach hl h2 hx
    obtain ⟨n, hn, hC⟩ := holeBal_of_plug C hg
    have hn0 : n = 0 := by cases hn; rfl
    subst hn0
    have hlen : C.length < fuel := lt_of_le_of_lt (length_le C _) hf
    obtain ⟨h', t', e1, e3, m⟩ := insertColor_spec fuel hlen hla
      (bal_mk_red .nil .nil rfl rfl) hC
    refine ⟨h', t', pre C, post C, ?_, m.linked, e3, hlist0, m.toList.trans hlist, fun hm => ?_, ?_⟩
    · have hr : h.root = (plug C (Shape.nil : Shape ι)).ptr := hl.root
      have h3' : h.descend cmp fuel h.root none .right = some (.below (above C) d) := by
        rw [hr]; exact h3
      simp [Rb.rbInsert, h3', e1]
    · exact h4 hm ⟨by simp [pre], by simp [post]⟩
    · intro z hzx hz
      have hz' : z ∉ (plug C (mk .left .red .nil x .nil)).toList := by
        rw [hlist]; rw [hlist0] at hz
        simp only [List.mem_append, List.mem_cons, not_or] at hz ⊢
        exact ⟨hz.1, hzx, hz.2⟩
      rw [m.same z hz']
      have hzC : above C ≠ some z := above_ne fun h => hz (mem_plug.mpr (.inr h))
      rcases C with _ | ⟨f, C⟩
      · exact entry_setEntry_ne _ _ _ hzx
      · have hzf : z ≠ f.x := fun e => hzC (by rw [e]; rfl)
        exact (entry_setChild_ne _ _ _ _ hzf).trans (entry_setEntry_ne _ _ _ hzx)

end

end Xstack.Tree.Insert
