import Xstack.Tree.Insert

/-! # `RB_REMOVE`

`rbRemove_spec`: on a linked, balanced tree the removal of a linked element takes exactly this
element out of the list, keeps the balance and follows no null pointer. `removeColor_spec` is the
loop: the subtree at the hole has one black node too few. -/

namespace Xstack.Tree.Remove

open Xstack.Lib.TreeShape Xstack.Lib.TreeShape.Shape Xstack.Tree.Macros Xstack.Tree.Repr
open Xstack.Tree.Insert

variable {ι : Type}

theorem parent_of_linked {h : Rb ι} {C : Ctx ι} {t : Shape ι} {x : ι} (hl : Linked h (plug C t))
    (hx : t.ptr = some x) : h.parent x = above C := by
  obtain ⟨a, b, e⟩ := exists_mk .left hx
  rw [e] at hl
  exact parent_of_entry (entry_of_linked hl)

/-- Below a context the subtree does not hold the root. -/
theorem root_ne {h : Rb ι} {f : Frame ι} {C : Ctx ι} {t : Shape ι}
    (hl : Linked h (plug (f :: C) t)) : t.ptr ≠ h.root := by
  obtain ⟨r, hr⟩ := Option.ne_none_iff_exists'.mp
    (plug_ptr_ne_none C (t := mk f.d f.c t f.x f.sib) (by simp))
  have h1 : h.root = some r := hl.root.trans hr
  intro e
  have h2 := parent_of_linked (C := []) hl hr
  have h3 := parent_of_linked hl (e.trans h1)
  rw [h2] at h3
  simp [above] at h3

theorem ptr_ne_sib {h : Rb ι} {f : Frame ι} {C : Ctx ι} {t : Shape ι} {x : ι}
    (hl : Linked h (plug (f :: C) t)) (hs : f.sib.ptr = some x) : f.sib.ptr ≠ t.ptr := by
  intro e
  exact sib_ne hl (e.symm.trans hs) hs

/-- The side of the hole, as `RB_REMOVE_COLOR` tests it. -/
theorem hole_side [DecidableEq ι] {h : Rb ι} {p : ι} {d : Dir} {c : Color} {e s q : Option ι}
    (he : h.entry p = mkEntry d c e s q) (hs : s ≠ e) :
    (if h.child .left p = e then Dir.left else Dir.right) = d := by
  cases d with
  | left => rw [if_pos (child_of_entry he)]
  | right =>
    rw [if_neg]
    rw [show Dir.left = Dir.right.flip from rfl, child_flip_of_entry he]
    exact hs

theorem isRed_false {h : Rb ι} {q : Option ι} {t : Shape ι} (hr : Rep h q t) :
    h.isRed t.ptr = false ↔ t.color = .black := by
  rw [← Bool.not_eq_true, isRed_ptr hr]
  rcases t.color with _ | _ <;> simp

section
variable [DecidableEq ι]

/-- `if (p) RB_COLOR(p) = RB_BLACK` on a subtree. -/
theorem moved_blacken {h : Rb ι} {C : Ctx ι} {t : Shape ι} (hl : Linked h (plug C t)) :
    Moved h (plug C t) (h.blacken t.ptr) (plug C (t.paint .black)) := by
  rcases hp : t.ptr with _ | x
  · rw [ptr_eq_none.mp hp] at hl ⊢
    exact ⟨hl, rfl, fun _ _ => rfl⟩
  · obtain ⟨a, b, e⟩ := exists_mk .left hp
    rw [e] at hl ⊢
    rw [paint_mk]
    exact moved_setColor .black hl

omit [DecidableEq ι] in
/-- The sibling of the hole, seen as the subtree at the hole. -/
theorem plug_sib (C : Ctx ι) (d : Dir) (c : Color) (t : Shape ι) (p : ι) (s : Shape ι) :
    plug C (mk d c t p s) = plug (⟨d.flip, c, p, t⟩ :: C) s := by
  rw [plug_cons, mk_flip]

/-! ### The passes of the loop -/

section Moves
variable {h : Rb ι} {C : Ctx ι} {d : Dir} {c : Color} {t sl sr a b : Shape ι} {p s y : ι}

/-- The sibling is red: it takes the place of the parent, and a black sibling comes up. -/
theorem moved_redSib (hl : Linked h (plug C (mk d .black t p (mk d .red sl s sr)))) :
    ∃ h', ((h.setColor s .black).setColor p .red).rotate d p = some h' ∧
      Moved h (plug C (mk d .black t p (mk d .red sl s sr)))
        h' (plug (⟨d, .red, p, sl⟩ :: ⟨d, .black, s, sr⟩ :: C) t) := by
  have m1 := moved_setColor .black (plug_sib C d .black t p _ ▸ hl)
  rw [← plug_sib, ← plug_sib] at m1
  have m2 := moved_setColor .red m1.linked
  obtain ⟨h', hr, m3⟩ := moved_rotate m2.linked
  exact ⟨h', hr, (m1.trans m2).trans m3⟩

/-- The sibling is black with black children: it is painted red. -/
theorem moved_paintSib (hl : Linked h (plug C (mk d c t p (mk d .black sl s sr)))) :
    Moved h (plug C (mk d c t p (mk d .black sl s sr)))
      (h.setColor s .red) (plug C (mk d c t p (mk d .red sl s sr))) := by
  have m1 := moved_setColor .red (plug_sib C d c t p _ ▸ hl)
  rw [← plug_sib, ← plug_sib] at m1
  exact m1

/-- The far child of the sibling is black: the near one, which is red, takes the sibling's place. -/
theorem moved_nearRed (hl : Linked h (plug C (mk d c t p (mk d .black (mk d .red a y b) s sr)))) :
    ∃ h', ((h.setColor y .black).setColor s .red).rotate d.flip s = some h' ∧
      Moved h (plug C (mk d c t p (mk d .black (mk d .red a y b) s sr)))
        h' (plug C (mk d c t p (mk d .black a y (mk d .red b s sr)))) := by
  have m1 := moved_setColor (C := ⟨d, .black, s, sr⟩ :: ⟨d.flip, c, p, t⟩ :: C) .black
    (plug_sib C d c t p _ ▸ hl)
  have m2 := moved_setColor (C := ⟨d.flip, c, p, t⟩ :: C) .red m1.linked
  have e : mk d .red (mk d .black a y b) s sr = mk d.flip .red sr s (mk d.flip .black b y a) := by
    rw [mk_flip, mk_flip]
  rw [e] at m2
  obtain ⟨h', hr, m3⟩ := moved_rotate m2.linked
  have m := (m1.trans m2).trans m3
  rw [show mk d.flip .black (mk d.flip .red sr s b) y a = mk d .black a y (mk d .red b s sr) by
    rw [mk_flip, mk_flip]] at m
  refine ⟨h', hr, ?_⟩
  rw [plug_sib C d c t p (mk d .black (mk d .red a y b) s sr),
    plug_sib C d c t p (mk d .black a y (mk d .red b s sr))]
  exact m

/-- The far child of the sibling is red: the sibling takes the place of the parent. -/
theorem moved_farRed (hl : Linked h (plug C (mk d c t p (mk d .black sl s sr)))) :
    ∃ h', h.lastTurn d p s = some (h'.blacken h'.root) ∧
      Moved h (plug C (mk d c t p (mk d .black sl s sr)))
        h' (plug C (mk d c (mk d .black t p sl) s (sr.paint .black))) := by
  have hp := color_of_entry (entry_of_linked hl)
  have m1 := moved_setColor c (plug_sib C d c t p _ ▸ hl)
  rw [← plug_sib, ← plug_sib] at m1
  have m2 := moved_setColor .black m1.linked
  have hs := child_flip_of_entry (entry_of_linked (plug_sib C d .black t p _ ▸ m2.linked))
  have e : ∀ u, plug C (mk d .black t p (mk d c sl s u)) =
      plug (⟨d.flip, c, s, sl⟩ :: ⟨d.flip, .black, p, t⟩ :: C) u := by
    intro u; rw [plug_sib, plug_sib]
  have m3 := moved_blacken (e sr ▸ m2.linked)
  rw [← e, ← e] at m3
  obtain ⟨h', hr, m4⟩ := moved_rotate m3.linked
  refine ⟨h', ?_, ((m1.trans m2).trans m3).trans m4⟩
  simp [Rb.lastTurn, hp, hs, hr]

end Moves

omit [DecidableEq ι] in
theorem color_eq_black {t : Shape ι} (h : ¬ t.color = .red) : t.color = .black := by
  rcases hc : t.color with _ | _
  · rfl
  · exact absurd hc h

/-- **Blackening the root** of a tree whose root is black. -/
theorem moved_blacken_root {h : Rb ι} {t : Shape ι} (hl : Linked h t) (hg : Good t) :
    Moved h t (h.blacken h.root) t := by
  have m := moved_blacken (C := []) hl
  rw [plug_nil, plug_nil, hg.paint, ← hl.root] at m
  exact m

omit [DecidableEq ι] in
/-- A node of the colour of the parent fits in the place of the parent. -/
theorem good_of_frame {C : Ctx ι} {d e : Dir} {c k : Color} {s a b : Shape ι} {p x : ι} {n : ℕ}
    (hC : HoleBal (⟨d, c, p, s⟩ :: C) k n) (ha : Bal a n) (hb : Bal b n) (hca : a.color = .black)
    (hcb : b.color = .black) : Good (plug C (mk e c a x b)) := by
  rcases hC with _ | ⟨-, -, hC⟩ | ⟨-, hC⟩
  · exact bal_plug hC (bal_mk_red ha hb hca hcb) (by simp)
  · exact bal_plug hC (bal_mk_black ha hb) (by simp)

section Pass
variable {h : Rb ι} {C : Ctx ι} {d : Dir} {c : Color} {t sl sr u : Shape ι} {p s : ι} {n : ℕ}

/-- The last rotation, when the far child of the black sibling is red. -/
theorem lastTurn_spec (hl : Linked h (plug C (mk d c t p (mk d .black sl s sr)))) (ht : Bal t n)
    (hsl : Bal sl n) (hsr : Bal sr n) (hC : HoleBal (⟨d, c, p, u⟩ :: C) .black (n + 1))
    (hred : sr.color = .red) :
    ∃ h' t', h.lastTurn d p s = some h' ∧ Good t' ∧
      Moved h (plug C (mk d c t p (mk d .black sl s sr))) h' t' := by
  obtain ⟨h1, hr, m1⟩ := moved_farRed hl
  have hg : Good (plug C (mk d c (mk d .black t p sl) s (sr.paint .black))) := by
    refine good_of_frame hC (bal_mk_black ht hsl) (hsr.paint_black hred) (by simp) ?_
    obtain ⟨y, hy⟩ := ptr_of_red hred
    obtain ⟨a, b, e⟩ := exists_mk .left hy
    rw [e]; simp
  exact ⟨_, _, hr, hg, m1.trans (moved_blacken_root m1.linked hg)⟩

/-- The last part of a pass, when a child of the black sibling is red. -/
theorem farSib_spec (hl : Linked h (plug C (mk d c t p (mk d .black sl s sr)))) (ht : Bal t n)
    (hsl : Bal sl n) (hsr : Bal sr n) (hC : HoleBal (⟨d, c, p, u⟩ :: C) .black (n + 1))
    (hred : ¬ (sl.color = .black ∧ sr.color = .black)) :
    ∃ g y h' t', h.farSib d p s = some (g, y) ∧ g.lastTurn d p y = some h' ∧ Good t' ∧
      Moved h (plug C (mk d c t p (mk d .black sl s sr))) h' t' := by
  have hls := plug_sib C d c t p (mk d .black sl s sr) ▸ hl
  have hs := entry_of_linked hls
  obtain ⟨-, hrl, hrr⟩ := rep_mk.mp (linked_plug_iff.mp hls).2.1
  by_cases hcr : sr.color = .red
  · obtain ⟨h', t', h1, h2, h3⟩ := lastTurn_spec hl ht hsl hsr hC hcr
    refine ⟨h, s, h', t', ?_, h1, h2, h3⟩
    have : h.isRed (h.child d.flip s) = true := by
      rw [child_flip_of_entry hs, isRed_ptr hrr]; exact hcr
    simp [Rb.farSib, this]
  · have hcl : sl.color = .red := by
      by_contra hcl
      exact hred ⟨color_eq_black hcl, color_eq_black hcr⟩
    obtain ⟨y, hy⟩ := ptr_of_red hcl
    obtain ⟨a, b, e⟩ := exists_mk d hy
    rw [hcl] at e
    subst e
    obtain ⟨hba, hbb, hca, hcb⟩ := hsl.of_red
    obtain ⟨h1, hr, m1⟩ := moved_nearRed hl
    have hy1 := entry_of_linked m1.linked
    obtain ⟨h', t', h2, h3, m2⟩ := lastTurn_spec m1.linked ht hba
      (bal_mk_red hbb hsr hcb (color_eq_black hcr)) hC (by simp)
    refine ⟨h1, y, h', t', ?_, h2, h3, m1.trans m2⟩
    have hf : h.isRed (h.child d.flip s) = false := by
      rw [child_flip_of_entry hs, isRed_false hrr]; exact color_eq_black hcr
    have hn : h.child d s = some y := by rw [child_of_entry hs, ptr_mk]
    have hp : h1.child d.flip p = some y := by rw [child_flip_of_entry hy1, ptr_mk]
    simp [Rb.farSib, hf, hn, Rb.blacken, hr, hp]

end Pass

/-- A pass with a black sibling. The parent is painted red before it if the sibling was red. -/
theorem blackSib_spec (fuel : ℕ) {h : Rb ι} {C : Ctx ι} {d : Dir} {c : Color} {t s : Shape ι}
    {p : ι} {n : ℕ} (ih : c = .black → ∀ {h : Rb ι} {t' : Shape ι}, Linked h (plug C t') →
        Bal t' (n + 1) → ∃ h' t'', h.removeColor fuel (above C) t'.ptr = some h' ∧ Good t'' ∧
          Moved h (plug C t') h' t'')
    (hfuel : 0 < fuel) (hl : Linked h (plug (⟨d, c, p, s⟩ :: C) t)) (ht : Bal t n)
    (hC : HoleBal (⟨d, c, p, s⟩ :: C) .black (n + 1)) (hs : Bal s (n + 1)) (hsc : s.color = .black) :
    ∃ tmp h' t', s.ptr = some tmp ∧
      (if h.isRed (h.child d tmp) = false ∧ h.isRed (h.child d.flip tmp) = false then
        (h.setColor tmp .red).removeColor fuel ((h.setColor tmp .red).parent p) (some p)
      else do
        let (h, tmp) ← h.farSib d p tmp
        h.lastTurn d p tmp) = some h' ∧ Good t' ∧ Moved h (plug (⟨d, c, p, s⟩ :: C) t) h' t' := by
  obtain ⟨k, sl, tmp, sr, rfl⟩ := hs.exists_mk d
  rw [color_mk] at hsc
  subst hsc
  obtain ⟨m, hm, hsl, hsr⟩ := hs.of_black
  obtain rfl : n = m := by omega
  have hls := plug_sib C d c t p (mk d .black sl tmp sr) ▸ hl
  have htmp := entry_of_linked hls
  obtain ⟨-, hrl, hrr⟩ := rep_mk.mp (linked_plug_iff.mp hls).2.1
  refine ⟨tmp, ?_⟩
  by_cases hred : sl.color = .black ∧ sr.color = .black
  · have hif : h.isRed (h.child d tmp) = false ∧ h.isRed (h.child d.flip tmp) = false := by
      rw [child_of_entry htmp, child_flip_of_entry htmp, isRed_false hrl, isRed_false hrr]
      exact hred
    have m1 := moved_paintSib hl
    have hp1 := entry_of_linked m1.linked
    rw [if_pos hif, parent_of_entry hp1]
    rcases c with _ | _
    · have hb' : Bal (mk d .black t p (mk d .red sl tmp sr)) (n + 1) :=
        bal_mk_black ht (bal_mk_red hsl hsr hred.1 hred.2)
      obtain ⟨h', t', h1, h2, m2⟩ := ih rfl m1.linked hb'
      rw [ptr_mk] at h1
      exact ⟨h', t', by simp, h1, h2, m1.trans m2⟩
    · obtain ⟨fuel, rfl⟩ := Nat.exists_eq_add_of_lt hfuel
      have hcp := color_of_entry hp1
      have m2 := moved_setColor .black m1.linked
      refine ⟨_, _, by simp, ?_, ?_, m1.trans m2⟩
      · simp [Rb.removeColor, Rb.isRed, hcp, Rb.blacken]
      · rcases hC with _ | ⟨-, -, hC⟩ | _
        exact bal_plug hC.mono (bal_mk_black ht (bal_mk_red hsl hsr hred.1 hred.2)) (by simp)
  · have hif : ¬ (h.isRed (h.child d tmp) = false ∧ h.isRed (h.child d.flip tmp) = false) := by
      rw [child_of_entry htmp, child_flip_of_entry htmp, isRed_false hrl, isRed_false hrr]
      exact hred
    obtain ⟨g, y, h', t', h1, h2, h3, m1⟩ := farSib_spec hl ht hsl hsr hC hred
    rw [if_neg hif]
    exact ⟨h', t', by simp, by simp [h1, h2], h3, m1⟩

/-- **`RB_REMOVE_COLOR`** started at a subtree with one black node too few. -/
theorem removeColor_spec : ∀ (fuel : ℕ) {h : Rb ι} {C : Ctx ι} {t : Shape ι} {n : ℕ},
    C.length < fuel → Linked h (plug C t) → Bal t n → HoleBal C .black (n + 1) →
    ∃ h' t', h.removeColor fuel (above C) t.ptr = some h' ∧ Good t' ∧ Moved h (plug C t) h' t'
  | 0, _, _, _, _, hf, _, _, _ => absurd hf (Nat.not_lt_zero _)
  | fuel + 1, h, C, t, n, hf, hl, hb, hC => by
    have hrt := isRed_ptr (linked_plug_iff.mp hl).2.1
    have hrf := isRed_false (linked_plug_iff.mp hl).2.1
    by_cases hct : t.color = .red
    · refine ⟨_, _, ?_, ?_, moved_blacken hl⟩
      · simp [Rb.removeColor, hrt.mpr hct]
      · refine bal_plug hC (hb.paint_black hct) ?_
        obtain ⟨y, hy⟩ := ptr_of_red hct
        obtain ⟨a, b, e⟩ := exists_mk .left hy
        rw [e]; simp
    · have hbl := color_eq_black hct
      rcases C with _ | ⟨⟨d, c, p, s⟩, C⟩
      · have hg : Good t := ⟨hbl, n, hb⟩
        refine ⟨_, t, ?_, hg, moved_blacken_root hl hg⟩
        have hr : h.root = t.ptr := hl.root
        simp [Rb.removeColor, hr]
      · have hcond : h.isRed t.ptr = false ∧ t.ptr ≠ h.root := ⟨hrf.mpr hbl, root_ne hl⟩
        have hp := entry_of_linked (C := C) hl
        have hs : Bal s (n + 1) := by
          rcases hC with _ | ⟨hs, -, -⟩ | ⟨hs, -⟩ <;> exact hs
        obtain ⟨k, sl, x, sr, es⟩ := hs.exists_mk d
        have hsp : s.ptr = some x := by rw [es, ptr_mk]
        have hside : (if h.child .left p = t.ptr then Dir.left else Dir.right) = d :=
          hole_side hp (ptr_ne_sib hl hsp)
        have hx := child_flip_of_entry hp
        have hcx : h.color x = s.color := by
          have hls := plug_sib C d c t p s ▸ hl
          rw [es] at hls ⊢
          rw [color_of_entry (entry_of_linked hls), color_mk]
        have hlen : C.length < fuel := by simpa using hf
        by_cases hcs : s.color = .red
        · obtain rfl : c = .black := by
            rcases hC with _ | ⟨-, h2, -⟩ | _
            · rw [hcs] at h2; cases h2
            · rfl
          rw [es, color_mk] at hcs
          subst hcs
          subst es
          obtain ⟨h1, hr1, m1⟩ := moved_redSib hl
          obtain ⟨hsl, hsr, hcl, hcr⟩ := hs.of_red
          have hC' : HoleBal (⟨d, .red, p, sl⟩ :: ⟨d, .black, x, sr⟩ :: C) .black (n + 1) := by
            rcases hC with _ | _ | ⟨-, hC⟩
            exact .red hsl hcl (.black hsr hC)
          obtain ⟨tmp, h', t', e1, e2, hg, m2⟩ := blackSib_spec fuel (by simp)
            (by omega) m1.linked hb hC' hsl hcl
          refine ⟨h', t', ?_, hg, m1.trans m2⟩
          have hp1 := child_flip_of_entry (entry_of_linked (C := ⟨d, .black, x, sr⟩ :: C) m1.linked)
          rw [Rb.removeColor, if_pos hcond]
          simp only [above, Option.bind_eq_bind, Option.bind_some, hside, Rb.redSib, hx, hsp, hcx,
            color_mk, if_true, hr1, hp1, e1, Option.pure_def]
          exact e2
        · obtain ⟨tmp, h', t', e1, e2, hg, m2⟩ := blackSib_spec fuel
            (fun hc h t' hl' hb' => removeColor_spec fuel hlen hl' hb' (by
              subst hc
              rcases hC with _ | _ | ⟨-, hC⟩
              exact hC))
            (by omega) hl hb hC hs (color_eq_black hcs)
          obtain rfl : x = tmp := by rw [hsp] at e1; exact Option.some.inj e1
          refine ⟨h', t', ?_, hg, m2⟩
          rw [Rb.removeColor, if_pos hcond]
          simp only [above, Option.bind_eq_bind, Option.bind_some, hside, Rb.redSib, hx, hsp, hcx,
            hcs, if_false, Option.pure_def]
          exact e2

/-! ### Taking an element out -/

/-- An element with at most one child is spliced out; its own fields stay as they are. -/
theorem linked_splice {h : Rb ι} {C : Ctx ι} {d : Dir} {c : Color} {t : Shape ι} {x : ι}
    (hl : Linked h (plug C (mk d c t x .nil))) :
    Linked (h.splice x t.ptr) (plug C t) ∧
      ∀ z, z ∉ (plug C t).toList → (h.splice x t.ptr).entry z = h.entry z := by
  obtain ⟨h1, h2, h3⟩ := linked_plug_iff.mp hl
  obtain ⟨hx, ht, -⟩ := rep_mk.mp h2
  have hn := nodup_mk.mp h3
  simp only [toList, List.nil_append, List.nodup_cons, List.mem_append, not_or,
    List.nodup_append] at hn
  obtain ⟨⟨hxt, hxC⟩, hnt, hnC, htC⟩ := hn
  rw [ptr_mk] at h1
  have hsp : h.splice x t.ptr = (h.setParent? t.ptr (above C)).relink (above C) x t.ptr := by
    simp only [Rb.splice, parent_of_entry hx]
  rw [hsp]
  have hC1 : RepCtx (h.setParent? t.ptr (above C)) C (some x) := by
    refine repCtx_congr (fun z hz => entry_setParent?_ne _ _ _ ?_) (by simp) h1
    exact ptr_ne fun hz' => htC z hz' z hz rfl
  refine ⟨linked_plug_iff.mpr ⟨repCtx_relink _ hxC hnC hC1, ?_, ?_⟩, fun z hz => ?_⟩
  · refine rep_congr (fun z hz => entry_relink_ne _ _ _ _ ?_) (rep_reparent (above C) hnt ht)
    exact above_ne fun hz' => htC z hz z hz' rfl
  · exact List.nodup_append.mpr ⟨hnt, hnC, htC⟩
  · rw [mem_plug, not_or] at hz
    rw [entry_relink_ne _ _ _ _ (above_ne hz.2), entry_setParent?_ne _ _ _ (ptr_ne hz.1)]

/-- `(elm)->field = (old)->field` and the links to it: `y` takes the place of `x`. -/
theorem linked_rename {h : Rb ι} {C : Ctx ι} {c : Color} {l r : Shape ι} {x y v : ι}
    (hl : Linked h (plug C (mk .left c l x r))) (hv : l.ptr = some v)
    (hy : y ∉ (plug C (mk .left c l x r)).toList) :
    let g := (h.setEntry y (h.entry x)).relink (above C) x (some y)
    g.parent x = above C ∧ g.child .left x = some v ∧
      (g.setParent v (some y)).child .right x = r.ptr ∧
      Linked ((g.setParent v (some y)).setParent? r.ptr (some y)) (plug C (mk .left c l y r)) ∧
      ∀ z, z ≠ y → z ∉ (plug C (mk .left c l x r)).toList →
        ((g.setParent v (some y)).setParent? r.ptr (some y)).entry z = h.entry z := by
  intro g
  obtain ⟨h1, h2, h3⟩ := linked_plug_iff.mp hl
  obtain ⟨hx, hrl, hrr⟩ := rep_mk.mp h2
  have hn := nodup_mk.mp h3
  simp only [List.nodup_cons, List.mem_append, not_or, List.nodup_append] at hn
  obtain ⟨⟨hxl, hxr, hxC⟩, hnl, ⟨hnr, hnC, hrC⟩, hlR⟩ := hn
  rw [mem_plug, mem_mk] at hy
  simp only [not_or] at hy
  obtain ⟨⟨hyx, hyl, hyr⟩, hyC⟩ := hy
  have hvl : v ∈ l.toList := toList_ne_nil hv
  have hvx : x ≠ v := fun e => hxl (e ▸ hvl)
  have hg : ∀ z, z ≠ y → above C ≠ some z → g.entry z = h.entry z := fun z hzy hzC =>
    (entry_relink_ne _ _ _ _ hzC).trans (entry_setEntry_ne _ _ _ hzy)
  have hgx : g.entry x = mkEntry .left c l.ptr r.ptr (above C) :=
    (hg x (Ne.symm hyx) (above_ne hxC)).trans hx
  have hgy : g.entry y = mkEntry .left c l.ptr r.ptr (above C) :=
    ((entry_relink_ne _ _ _ _ (above_ne hyC)).trans (entry_setEntry_self _ _ _)).trans hx
  have hgC : RepCtx g C (some y) := by
    rw [ptr_mk] at h1
    refine repCtx_relink _ hxC hnC (repCtx_congr (h := h) (fun z hz => ?_) rfl h1)
    exact entry_setEntry_ne _ _ _ fun e => hyC (e ▸ hz)
  have hgl : Rep g (some x) l := rep_congr (fun z hz => hg z (fun e => hyl (e ▸ hz))
    (above_ne fun hz' => hlR z hz z (Or.inr hz') rfl)) hrl
  have hgr : Rep g (some x) r := rep_congr (fun z hz => hg z (fun e => hyr (e ▸ hz))
    (above_ne fun hz' => hrC z hz z hz' rfl)) hrr
  set k := g.setParent v (some y) with hk
  have hkl : Rep k (some y) l := by
    have := rep_reparent (some y) hnl hgl
    rwa [hv] at this
  have hk' : ∀ z, z ∉ l.toList → k.entry z = g.entry z := fun z hz =>
    entry_setParent_ne _ _ _ fun e => hz (e ▸ hvl)
  have hkr : Rep k (some x) r :=
    rep_congr (fun z hz => hk' z fun hz' => hlR z hz' z (Or.inl hz) rfl) hgr
  have hm : ∀ z, z ∉ r.toList → (k.setParent? r.ptr (some y)).entry z = k.entry z := fun z hz =>
    entry_setParent?_ne _ _ _ (ptr_ne hz)
  refine ⟨parent_of_entry hgx, (child_of_entry hgx).trans hv, ?_, ?_, ?_⟩
  · exact child_flip_of_entry (d := .left) ((hk' x hxl).trans hgx)
  · refine linked_plug_iff.mpr ⟨?_, rep_mk.mpr ⟨?_, ?_, ?_⟩, ?_⟩
    · rw [ptr_mk]
      refine repCtx_congr (fun z hz => ?_) (by simp [hk]) hgC
      rw [hm z fun hz' => hrC z hz' z hz rfl, hk' z fun hz' => hlR z hz' z (Or.inr hz) rfl]
    · rw [hm y hyr, hk' y hyl]; exact hgy
    · exact rep_congr (fun z hz => hm z fun hz' => hlR z hz z (Or.inl hz') rfl) hkl
    · exact rep_reparent (some y) hnr hkr
    · refine nodup_mk.mpr ?_
      simp only [List.nodup_cons, List.mem_append, not_or, List.nodup_append]
      exact ⟨⟨hyl, hyr, hyC⟩, hnl, ⟨hnr, hnC, hrC⟩, hlR⟩
  · intro z hzy hz
    rw [mem_plug, mem_mk] at hz
    simp only [not_or] at hz
    rw [hm z hz.1.2.2, hk' z hz.1.2.1, hg z hzy (above_ne hz.2)]

omit [DecidableEq ι] in
/-- The next element: the leftmost one of a non-empty subtree. -/
theorem leftmost_spec [DecidableEq ι] {h : Rb ι} : ∀ (fuel : ℕ) {C : Ctx ι} {t : Shape ι} {x : ι},
    t.toList.length ≤ fuel → Linked h (plug C t) → t.ptr = some x →
    ∃ D c y u, t = plug D (mk .right c u y .nil) ∧ pre D = [] ∧ h.leftmost fuel x = some y
  | fuel, C, .nil, x, _, _, hx => by simp [Shape.ptr] at hx
  | 0, C, .node c l z r, x, hf, _, _ => by simp [toList] at hf
  | fuel + 1, C, .node c l z r, x, hf, hl, hx => by
    obtain rfl : z = x := Option.some.inj hx
    have he := entry_of_linked (d := .left) hl
    have hcl : h.child .left z = l.ptr := child_of_entry he
    simp only [toList, List.length_append, List.length_cons] at hf
    rcases hlp : l.ptr with _ | w
    · refine ⟨[], c, z, r, ?_, rfl, by simp [Rb.leftmost, hcl, hlp]⟩
      rw [ptr_eq_none.mp hlp]; rfl
    · obtain ⟨D, c', y, u, e1, e2, e3⟩ := leftmost_spec fuel (C := ⟨.left, c, z, r⟩ :: C) (t := l)
        (by omega) hl hlp
      refine ⟨D ++ [⟨.left, c, z, r⟩], c', y, u, ?_, ?_, ?_⟩
      · rw [plug_append, ← e1]; rfl
      · rw [pre_append, e2]; rfl
      · simp [Rb.leftmost, hcl, hlp, e3]

/-- `RB_REMOVE` of an element with at most one child. -/
theorem unlink_spec {h : Rb ι} {C : Ctx ι} {d : Dir} {c : Color} {t : Shape ι} {x : ι} {fuel : ℕ}
    (hf : C.length < fuel) (hl : Linked h (plug C (mk d c t x .nil)))
    (hg : Good (plug C (mk d c t x .nil))) :
    ∃ h' t', h.unlink fuel x t.ptr = some h' ∧ Linked h' t' ∧ Good t' ∧
      t'.toList = (plug C t).toList ∧ ∀ z, z ∉ (plug C t).toList → h'.entry z = h.entry z := by
  have hx := entry_of_linked hl
  obtain ⟨hs, ho⟩ := linked_splice hl
  obtain ⟨n, hb, hC⟩ := holeBal_of_plug C hg
  rw [color_mk] at hC
  rcases c with _ | _
  · obtain ⟨m, rfl, ht, -⟩ := hb.of_black
    obtain ⟨h', t', h1, h2, m1⟩ := removeColor_spec fuel hf hs ht hC
    refine ⟨h', t', ?_, m1.linked, h2, m1.toList, fun z hz => (m1.same z hz).trans (ho z hz)⟩
    simp [Rb.unlink, color_of_entry hx, parent_of_entry hx, h1]
  · obtain ⟨ht, -, hct, -⟩ := hb.of_red
    refine ⟨_, _, ?_, hs, bal_plug hC.mono ht hct, rfl, ho⟩
    simp [Rb.unlink, color_of_entry hx]

omit [DecidableEq ι] in
/-- An element that is spliced out is not among the others. -/
theorem not_mem_spliced {h : Rb ι} {C : Ctx ι} {d : Dir} {c : Color} {t : Shape ι} {x : ι}
    (hl : Linked h (plug C (mk d c t x .nil))) : x ∉ (plug C t).toList := by
  have hn := (linked_plug_iff.mp hl).2.2
  rw [nodup_mk, List.nodup_cons] at hn
  rw [mem_plug]
  simpa [toList] using hn.1

/-- The parent of the hole, after `y` has taken the place of `x` at the foot of `D`. -/
theorem above_renamed {D C : Ctx ι} {c : Color} {x y : ι} {l : Shape ι} (hx : x ∉ names D) :
    (if above (D ++ ⟨.right, c, x, l⟩ :: C) = some x then some y
      else above (D ++ ⟨.right, c, x, l⟩ :: C)) = above (D ++ ⟨.right, c, y, l⟩ :: C) := by
  rcases D with _ | ⟨f, D⟩
  · simp [above]
  · have hfx : f.x ≠ x := by
      rintro rfl
      exact hx List.mem_cons_self
    simp [above, hfx]

/-- `RB_REMOVE` of an element with two children. -/
theorem unlinkNext_spec {h : Rb ι} {C : Ctx ι} {c : Color} {l r : Shape ι} {x v w : ι} {fuel : ℕ}
    (hf : (plug C (mk .left c l x r)).toList.length ≤ fuel)
    (hl : Linked h (plug C (mk .left c l x r))) (hg : Good (plug C (mk .left c l x r)))
    (hv : l.ptr = some v) (hw : r.ptr = some w) :
    ∃ h' t', h.unlinkNext fuel x = some h' ∧ Linked h' t' ∧ Good t' ∧
      t'.toList = pre C ++ (l.toList ++ (r.toList ++ post C)) ∧
      ∀ z, z ≠ x → z ∉ t'.toList → h'.entry z = h.entry z := by
  have hlr : Linked h (plug (⟨.right, c, x, l⟩ :: C) r) := hl
  have hlen : r.toList.length ≤ fuel := by
    rw [toList_plug] at hf
    simp [Shape.mk, toList] at hf
    omega
  obtain ⟨D, c', y, u, er, hD, hlm⟩ := leftmost_spec fuel hlen hlr hw
  subst er
  have hly : Linked h (plug (D ++ ⟨.right, c, x, l⟩ :: C) (mk .right c' u y .nil)) := by
    rw [plug_append]; exact hlr
  have hx := entry_of_linked hl
  have hy := entry_of_linked hly
  obtain ⟨hs, ho⟩ := linked_splice hly
  set h1 := h.splice y u.ptr with hh1
  have hyn := not_mem_spliced hly
  have hxy : x ≠ y := by
    rintro rfl
    refine hyn ?_
    rw [plug_append, mem_plug]
    simp [names]
  rw [plug_append] at hs hyn ho
  have hl1 : Linked h1 (plug C (mk .left c l x (plug D u))) := hs
  have hy1 := ho y hyn
  obtain ⟨r1, r2, r3, r4, r5⟩ := linked_rename hl1 hv hyn
  have hpar : h1.parent x = above C := parent_of_entry (entry_of_linked hl1)
  have hpar2 : (h1.setEntry y (h1.entry x)).parent x = above C := by
    rw [Rb.parent, entry_setEntry_ne _ _ _ hxy]; exact hpar
  set h2 := ((((h1.setEntry y (h1.entry x)).relink (above C) x (some y)).setParent v
    (some y)).setParent? (plug D u).ptr (some y)) with hh2
  have hl2 : Linked h2 (plug (D ++ ⟨.right, c, y, l⟩ :: C) u) := by rw [plug_append]; exact r4
  have habove : (if h1.parent y = some x then some y else h.parent y) =
      above (D ++ ⟨.right, c, y, l⟩ :: C) := by
    rw [Rb.parent, hy1, ← Rb.parent, parent_of_entry hy]
    refine above_renamed fun hxD => ?_
    have hn := (linked_plug_iff.mp hlr).2.2
    rw [List.nodup_append] at hn
    exact hn.2.2 x (mem_plug.mpr (.inr hxD)) x (by simp [names]) rfl
  have hprog : ∀ k, (if c' = .black then
      h2.removeColor fuel (above (D ++ ⟨.right, c, y, l⟩ :: C)) u.ptr else some h2) = some k →
      h.unlinkNext fuel x = some k := by
    intro k hk
    have c1 : h.child .right x = some w := (child_flip_of_entry (d := .left) hx).trans hw
    have c2 : h.child .right y = u.ptr := child_of_entry hy
    simp only [Rb.unlinkNext, c1, Option.bind_eq_bind, Option.bind_some, hlm, c2, ← hh1, habove,
      hpar2, r2, r3, ← hh2, color_of_entry hy]
    exact hk
  have hlist : (plug (D ++ ⟨.right, c, y, l⟩ :: C) u).toList =
      pre C ++ (l.toList ++ ((plug D (mk .right c' u y .nil)).toList ++ post C)) := by
    rw [plug_append, plug_cons, toList_plug, toList_plug D]
    simp [Shape.mk, toList, toList_plug D, hD]
  have hsame : ∀ z, z ≠ x → z ∉ (plug (D ++ ⟨.right, c, y, l⟩ :: C) u).toList →
      h2.entry z = h.entry z := by
    intro z hzx hz
    have hzy : z ≠ y := by
      rintro rfl
      refine hz ?_
      rw [plug_append, mem_plug]
      simp [names]
    have hz' : z ∉ (plug C (mk .left c l x (plug D u))).toList := by
      rw [plug_append, plug_cons, mem_plug, mem_mk] at hz
      rw [mem_plug, mem_mk]
      simp only [not_or] at hz ⊢
      exact ⟨⟨hzx, hz.1.2.2, hz.1.2.1⟩, hz.2⟩
    rw [r5 z hzy hz']
    exact ho z hz'
  have hg2 : Good (plug (D ++ ⟨.right, c, y, l⟩ :: C) (mk .right c' u y .nil)) := by
    rw [plug_append, plug_cons]
    exact Good.rename (d := .right) y hg
  obtain ⟨n, hb, hC⟩ := holeBal_of_plug _ hg2
  rw [color_mk] at hC
  rcases c' with _ | _
  · obtain ⟨m, rfl, hu, -⟩ := hb.of_black
    have hfuel : (D ++ ⟨.right, c, y, l⟩ :: C : Ctx ι).length < fuel := by
      have h1 := length_le (D ++ ⟨.right, c, y, l⟩ :: C) u
      rw [hlist] at h1
      rw [toList_plug] at hf
      simp [Shape.mk, toList] at hf h1 ⊢
      omega
    obtain ⟨h', t', e1, e2, m1⟩ := removeColor_spec fuel hfuel hl2 hu hC
    refine ⟨h', t', hprog _ (by simpa using e1), m1.linked, e2, m1.toList.trans hlist, ?_⟩
    intro z hzx hz
    rw [m1.toList] at hz
    exact (m1.same z hz).trans (hsame z hzx hz)
  · obtain ⟨hu, -, hcu, -⟩ := hb.of_red
    exact ⟨h2, _, hprog _ (by simp), hl2, bal_plug hC.mono hu hcu, hlist, hsame⟩

/-- **`RB_REMOVE`** of a linked element. -/
theorem rbRemove_spec {h : Rb ι} {t : Shape ι} {x : ι} {fuel : ℕ} (hf : t.toList.length ≤ fuel)
    (hl : Linked h t) (hg : Good t) (hx : x ∈ t.toList) :
    ∃ h' t', h.rbRemove fuel x = some h' ∧ Linked h' t' ∧ Good t' ∧
      t'.toList = t.toList.erase x ∧ ∀ z, z ∉ t.toList → h'.entry z = h.entry z := by
  obtain ⟨C, c, l, r, rfl⟩ := exists_plug hx
  have hxe := entry_of_linked (d := .left) hl
  have hcl : h.child .left x = l.ptr := child_of_entry hxe
  have hcr : h.child .right x = r.ptr := child_flip_of_entry hxe
  have hlist : (plug C (.node c l x r)).toList = pre C ++ (l.toList ++ x :: (r.toList ++ post C)) := by
    rw [toList_plug]; simp [toList]
  have hn := hl.nodup
  rw [hlist] at hn
  have hnx : x ∉ pre C ∧ x ∉ l.toList := by
    rw [List.nodup_append] at hn
    obtain ⟨-, hn2, hn3⟩ := hn
    rw [List.nodup_append] at hn2
    exact ⟨fun hx => hn3 x hx x (by simp) rfl, fun hx => hn2.2.2 x hx x (by simp) rfl⟩
  have herase : (plug C (.node c l x r)).toList.erase x =
      pre C ++ (l.toList ++ (r.toList ++ post C)) := by
    rw [hlist, List.erase_append_right _ hnx.1, List.erase_append_right _ hnx.2,
      List.erase_cons_head]
  have hout : ∀ {L : List ι} {h' : Rb ι}, L = pre C ++ (l.toList ++ (r.toList ++ post C)) →
      (∀ z, z ≠ x → z ∉ L → h'.entry z = h.entry z) →
      ∀ z, z ∉ (plug C (.node c l x r)).toList → h'.entry z = h.entry z := by
    rintro L h' rfl hh z hz
    rw [hlist] at hz
    simp only [List.mem_append, List.mem_cons, not_or] at hz
    refine hh z hz.2.2.1 ?_
    simp only [List.mem_append, not_or]
    exact ⟨hz.1, hz.2.1, hz.2.2.2⟩
  have hlen : C.length < fuel := by
    have h1 := length_le C (Shape.nil : Shape ι)
    rw [toList_plug] at h1
    rw [hlist] at hf
    simp [toList] at hf h1
    omega
  rw [herase]
  rcases hlp : l.ptr with _ | v
  · obtain rfl := ptr_eq_none.mp hlp
    obtain ⟨h', t', e1, e2, e3, e4, e5⟩ := unlink_spec (d := .right) (t := r) hlen hl hg
    have e4' : (plug C r).toList = pre C ++ (([] : List ι) ++ (r.toList ++ post C)) := by
      rw [toList_plug]; simp
    refine ⟨h', t', ?_, e2, e3, e4.trans e4', hout e4' fun z _ hz => e5 z hz⟩
    simp [Rb.rbRemove, hcl, hlp, hcr, e1]
  · rcases hrp : r.ptr with _ | w
    · obtain rfl := ptr_eq_none.mp hrp
      obtain ⟨h', t', e1, e2, e3, e4, e5⟩ := unlink_spec (d := .left) (t := l) hlen hl hg
      have e4' : (plug C l).toList = pre C ++ (l.toList ++ (([] : List ι) ++ post C)) := by
        rw [toList_plug]; simp
      refine ⟨h', t', ?_, e2, e3, e4.trans e4', hout e4' fun z _ hz => e5 z hz⟩
      rw [hlp] at e1
      simp [Rb.rbRemove, hcl, hlp, hcr, hrp, e1]
    · obtain ⟨h', t', e1, e2, e3, e4, e5⟩ := unlinkNext_spec hf hl hg hlp hrp
      refine ⟨h', t', ?_, e2, e3, e4, hout e4 e5⟩
      simp [Rb.rbRemove, hcl, hlp, hcr, hrp, e1]

end

end Xstack.Tree.Remove
