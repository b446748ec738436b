import Xstack.Tree.Find

/-! # `RB_FOREACH`

`RB_MIN` is the first element of a linked tree and `RB_NEXT` the one behind an element, by way of the
right subtree or of the parent pointers (`rbMin_spec`, `rbNext_spec`). So `RB_FOREACH` goes through the
elements in their order, and a loop that is left at the first element with `p` ends at the first one
in the list (`valid_foreach`). -/

namespace Xstack.Tree.Walk

open Xstack.Lib.TreeShape Xstack.Lib.TreeShape.Shape Xstack.Tree.Macros Xstack.Tree.Repr
open Xstack.Tree.Insert Xstack.Tree.Remove Xstack.Tree.Find

variable {ι : Type} [DecidableEq ι] {h : Rb ι}

omit [DecidableEq ι] in
/-- The children of the node above the hole. -/
theorem child_hole {f : Frame ι} {C : Ctx ι} {t : Shape ι} (hl : Linked h (plug (f :: C) t)) :
    h.child f.d f.x = t.ptr ∧ h.child f.d.flip f.x = f.sib.ptr := by
  have he := entry_of_linked hl
  exact ⟨child_of_entry he, child_flip_of_entry he⟩

/-- The way up from a subtree ends at the first element behind it. -/
theorem climb_spec : ∀ (fuel : ℕ) {C : Ctx ι} {t : Shape ι} {x : ι}, C.length < fuel →
    Linked h (plug C t) → t.ptr = some x → h.climb fuel x = some (post C).head?
  | 0, _, _, _, hf, _, _ => absurd hf (Nat.not_lt_zero _)
  | fuel + 1, [], t, x, _, hl, hx => by
    have hp : h.parent x = none := parent_of_linked hl hx
    simp [Rb.climb, hp, post]
  | fuel + 1, ⟨d, c, y, s⟩ :: C, t, x, hf, hl, hx => by
    have hp : h.parent x = some y := parent_of_linked hl hx
    obtain ⟨hd, hflip⟩ := child_hole hl
    cases d with
    | left =>
      have hne : h.child .right y ≠ some x := by
        intro hr
        have hs : s.ptr = some x := hflip.symm.trans hr
        exact ptr_ne_sib hl hs (hs.trans hx.symm)
      simp [Rb.climb, hp, hne, post]
    | right =>
      have hr : h.child .right y = some x := hd.trans hx
      have ih := climb_spec fuel (C := C) (t := mk .right c t y s) (x := y)
        (by simp only [List.length_cons] at hf; omega) hl (by simp)
      simp only [Rb.climb, hp, hr, if_true, post]
      exact ih

/-- The first element of a subtree. -/
theorem leftmost_head {fuel : ℕ} {C : Ctx ι} {t : Shape ι} {x : ι} (hf : t.toList.length ≤ fuel)
    (hl : Linked h (plug C t)) (hx : t.ptr = some x) :
    (h.leftmost fuel x).map some = some t.toList.head? := by
  obtain ⟨D, c, y, u, rfl, hpre, hy⟩ := leftmost_spec fuel hf hl hx
  rw [hy, toList_plug, hpre]
  rfl

/-- **`RB_MIN` is the first element.** -/
theorem rbMin_spec {fuel : ℕ} {t : Shape ι} (hf : t.toList.length ≤ fuel) (hl : Linked h t) :
    h.rbMin fuel = some t.toList.head? := by
  unfold Rb.rbMin
  rw [hl.root]
  cases hx : t.ptr with
  | none =>
    rw [ptr_eq_none.mp hx]
    rfl
  | some x => exact leftmost_head (C := []) hf hl hx

/-- **`RB_NEXT` is the element behind.** -/
theorem rbNext_spec {fuel : ℕ} {C : Ctx ι} {c : Color} {a b : Shape ι} {x : ι}
    (hf : (plug C (.node c a x b)).toList.length < fuel) (hl : Linked h (plug C (.node c a x b))) :
    h.rbNext fuel x = some (b.toList ++ post C).head? := by
  have hright : h.child .right x = b.ptr := child_flip_of_entry (entry_of_linked (d := .left) hl)
  have hparent : h.parent x = above C := parent_of_linked hl rfl
  unfold Rb.rbNext
  rw [hright]
  cases hb : b.ptr with
  | some y =>
    have hfb : b.toList.length ≤ fuel := by
      rw [toList_plug] at hf
      simp only [toList, List.length_append, List.length_cons] at hf
      omega
    have hlb : Linked h (plug (⟨.right, c, x, a⟩ :: C) b) := hl
    obtain ⟨z, hz⟩ := List.exists_mem_of_ne_nil _ (List.ne_nil_of_mem (toList_ne_nil hb))
    dsimp only
    rw [leftmost_head hfb hlb hb, List.head?_append_of_ne_nil _ (List.ne_nil_of_mem hz)]
  | none =>
    rw [ptr_eq_none.mp hb, hparent]
    dsimp only [toList, List.nil_append]
    cases C with
    | nil => rfl
    | cons f C =>
      obtain ⟨d, c', y, s⟩ := f
      obtain ⟨hd, hflip⟩ := child_hole hl
      have hclimb := climb_spec fuel (lt_of_le_of_lt (length_le _ _) hf) hl rfl
      cases d with
      | left =>
        have hleft : h.child .left y = some x := hd
        simp [above, hleft, post]
      | right =>
        have hleft : h.child .left y ≠ some x := by
          intro hr
          have hs : s.ptr = some x := hflip.symm.trans hr
          exact ptr_ne_sib hl hs hs
        simp only [above, if_neg hleft]
        exact hclimb

/-! ### The loop -/

theorem foreachFrom_spec (p : ι → Bool) {t : Shape ι} (hl : Linked h t) : ∀ (q : List ι)
    (fuel : ℕ) {l : List ι}, t.toList = l ++ q → t.toList.length + q.length < fuel →
    h.foreachFrom p fuel q.head? = some (q.find? p)
  | [], fuel + 1, _, _, _ => rfl
  | x :: q, fuel + 1, l, hq, hf => by
    have hx : x ∈ t.toList := by simp [hq]
    obtain ⟨C, c, a, b, rfl⟩ := exists_plug hx
    have hlist : (plug C (.node c a x b)).toList =
        (pre C ++ a.toList) ++ x :: (b.toList ++ post C) := by
      simp [toList_plug, toList]
    have hsplit : q = b.toList ++ post C := by
      have hn := hl.nodup
      rw [hlist, List.perm_middle.nodup_iff, List.nodup_cons, List.mem_append, not_or] at hn
      have heq := hlist.symm.trans hq
      exact (((List.append_cons_inj_of_notMem hn.1.1 hn.1.2).mp heq).2.2).symm
    simp only [List.length_cons] at hf
    have ih := foreachFrom_spec p hl q fuel (l := l ++ [x]) (by simp [hq]) (by omega)
    unfold Rb.foreachFrom
    simp only [List.head?_cons, List.find?_cons]
    cases hp : p x with
    | true => simp
    | false =>
      have hnext : h.rbNext fuel x = some (b.toList ++ post C).head? := rbNext_spec (by omega) hl
      simp only [Bool.false_eq_true, if_false, hnext, Option.bind_some, ← hsplit]
      exact ih

/-- **`RB_FOREACH` on a tree with the elements `l`** ends at the first of them with `p`. -/
theorem valid_foreach (p : ι → Bool) {l : List ι} {fuel : ℕ} (hv : Valid h l)
    (hf : 2 * l.length < fuel) : h.rbForeach fuel p = some (l.find? p) := by
  obtain ⟨t, hl, -, rfl⟩ := hv
  unfold Rb.rbForeach
  rw [rbMin_spec (by omega) hl, Option.bind_some]
  exact foreachFrom_spec p hl t.toList fuel (l := []) rfl (by omega)

end Xstack.Tree.Walk
