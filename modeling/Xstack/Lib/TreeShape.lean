import Mathlib.Data.List.Perm.Basic
import Mathlib.Tactic

/-! # Coloured binary trees with a hole

The mathematics behind an imperative red-black tree: the shape of a tree over names `ι`, the
context around a subtree (the path back to the root), and the two balance conditions.

* `Shape.mk d c a x b` is the node whose child on side `d` is `a`, so that the two mirrored
  branches of an algorithm are one statement about `d`.
* `plug C t` puts `t` into the hole of the context `C`; `toList_plug`: the in-order listing of the
  whole is that of `t` between two lists which depend on `C` only.
* `Bal t n`: every path of `t` has `n` black nodes and no red node has a red child. `HoleBal C c n`:
  a balanced tree of height `n` and colour `c` fits into the hole of `C`, and the root of the
  result is black (`bal_plug`). -/

namespace Xstack.Lib.TreeShape

/-- The colour of a node. -/
inductive Color
  | black
  | red
  deriving DecidableEq, Repr

/-- A side of a node. -/
inductive Dir
  | left
  | right
  deriving DecidableEq, Repr

/-- The other side. -/
def Dir.flip : Dir → Dir
  | .left => .right
  | .right => .left

@[simp] theorem Dir.flip_flip (d : Dir) : d.flip.flip = d := by cases d <;> rfl

@[simp] theorem Dir.flip_ne (d : Dir) : d.flip ≠ d := by cases d <;> decide

@[simp] theorem Dir.ne_flip (d : Dir) : d ≠ d.flip := by cases d <;> decide

theorem Dir.eq_or_flip (d e : Dir) : e = d ∨ e = d.flip := by cases d <;> cases e <;> decide

/-- The shape of a coloured tree with names `ι` at its nodes. -/
inductive Shape (ι : Type)
  | nil
  | node (c : Color) (l : Shape ι) (x : ι) (r : Shape ι)

variable {ι : Type}

namespace Shape

/-- The node with the child `a` on side `d` and `b` on the other. -/
def mk (d : Dir) (c : Color) (a : Shape ι) (x : ι) (b : Shape ι) : Shape ι :=
  match d with
  | .left => node c a x b
  | .right => node c b x a

/-- The name at the root. -/
def ptr : Shape ι → Option ι
  | nil => none
  | node _ _ x _ => some x

/-- The colour of the root, black for the empty tree. -/
def color : Shape ι → Color
  | nil => .black
  | node c _ _ _ => c

/-- The names in order. -/
def toList : Shape ι → List ι
  | nil => []
  | node _ l x r => l.toList ++ x :: r.toList

/-- The same tree with the root painted. -/
def paint (c : Color) : Shape ι → Shape ι
  | nil => nil
  | node _ l x r => node c l x r

@[simp] theorem ptr_mk (d : Dir) (c : Color) (a : Shape ι) (x : ι) (b : Shape ι) :
    (mk d c a x b).ptr = some x := by cases d <;> rfl

@[simp] theorem color_mk (d : Dir) (c : Color) (a : Shape ι) (x : ι) (b : Shape ι) :
    (mk d c a x b).color = c := by cases d <;> rfl

@[simp] theorem paint_mk (c' : Color) (d : Dir) (c : Color) (a : Shape ι) (x : ι) (b : Shape ι) :
    (mk d c a x b).paint c' = mk d c' a x b := by cases d <;> rfl

@[simp] theorem toList_paint (c : Color) (t : Shape ι) : (t.paint c).toList = t.toList := by
  cases t <;> rfl

@[simp] theorem ptr_paint (c : Color) (t : Shape ι) : (t.paint c).ptr = t.ptr := by
  cases t <;> rfl

theorem paint_color (t : Shape ι) : t.paint t.color = t := by cases t <;> rfl

theorem mk_flip (d : Dir) (c : Color) (a : Shape ι) (x : ι) (b : Shape ι) :
    mk d.flip c a x b = mk d c b x a := by cases d <;> rfl

/-- A tree with a root name is a node, seen from either side. -/
theorem exists_mk (d : Dir) {t : Shape ι} {x : ι} (h : t.ptr = some x) :
    ∃ a b, t = mk d t.color a x b := by
  cases t with
  | nil => simp [ptr] at h
  | node c l y r =>
    simp only [ptr, Option.some.injEq] at h
    subst h
    cases d
    · exact ⟨l, r, rfl⟩
    · exact ⟨r, l, rfl⟩

theorem ptr_eq_none {t : Shape ι} : t.ptr = none ↔ t = nil := by cases t <;> simp [ptr]

theorem toList_ne_nil {t : Shape ι} {x : ι} (h : t.ptr = some x) : x ∈ t.toList := by
  obtain ⟨a, b, e⟩ := exists_mk .left h
  rw [e]; simp [mk, toList]

/-- The names on the two sides of a node, as a permutation. -/
theorem toList_mk_perm (d : Dir) (c : Color) (a : Shape ι) (x : ι) (b : Shape ι) :
    (mk d c a x b).toList.Perm (x :: (a.toList ++ b.toList)) := by
  cases d
  · simp only [mk, toList]
    exact List.perm_middle
  · simp only [mk, toList]
    exact List.perm_middle.trans (List.Perm.cons _ List.perm_append_comm)

/-- **A rotation keeps the order of the names.** -/
theorem toList_rotate (d : Dir) (c c' : Color) (a b e : Shape ι) (x y : ι) (k k' : Color) :
    (mk d k (mk d k' a x b) y e).toList = (mk d c a x (mk d c' b y e)).toList := by
  cases d <;> simp [mk, toList]

end Shape

open Shape

/-- One step of the path to the root: the hole is the child on side `d` of the node `x`. -/
structure Frame (ι : Type) where
  d : Dir
  c : Color
  x : ι
  sib : Shape ι

/-- A tree with a hole, the innermost frame first. -/
abbrev Ctx (ι : Type) := List (Frame ι)

/-- The tree with `t` in the hole. -/
def plug : Ctx ι → Shape ι → Shape ι
  | [], t => t
  | f :: C, t => plug C (mk f.d f.c t f.x f.sib)

/-- The name above the hole. -/
def above : Ctx ι → Option ι
  | [] => none
  | f :: _ => some f.x

/-- The names of a context. -/
def names : Ctx ι → List ι
  | [] => []
  | f :: C => f.x :: (f.sib.toList ++ names C)

@[simp] theorem plug_nil (t : Shape ι) : plug [] t = t := rfl

@[simp] theorem plug_cons (f : Frame ι) (C : Ctx ι) (t : Shape ι) :
    plug (f :: C) t = plug C (mk f.d f.c t f.x f.sib) := rfl

/-- The names before the hole. -/
def pre : Ctx ι → List ι
  | [] => []
  | ⟨.left, _, _, _⟩ :: C => pre C
  | ⟨.right, _, x, s⟩ :: C => pre C ++ (s.toList ++ [x])

/-- The names behind the hole. -/
def post : Ctx ι → List ι
  | [] => []
  | ⟨.left, _, x, s⟩ :: C => x :: (s.toList ++ post C)
  | ⟨.right, _, _, _⟩ :: C => post C

theorem pre_append : ∀ D C : Ctx ι, pre (D ++ C) = pre C ++ pre D
  | [], C => by simp [pre]
  | ⟨.left, _, _, _⟩ :: D, C => by simp [pre, pre_append D C]
  | ⟨.right, _, _, _⟩ :: D, C => by simp [pre, pre_append D C]

/-- **The listing around the hole** depends on the context only. -/
theorem toList_plug : ∀ (C : Ctx ι) (t : Shape ι),
    (plug C t).toList = pre C ++ (t.toList ++ post C)
  | [], t => by simp [pre, post]
  | ⟨.left, c, x, s⟩ :: C, t => by simp [toList_plug C, mk, toList, pre, post]
  | ⟨.right, c, x, s⟩ :: C, t => by simp [toList_plug C, mk, toList, pre, post]

/-- Trees with the same listing are interchangeable below a context. -/
theorem toList_plug_congr (C : Ctx ι) {t t' : Shape ι} (h : t.toList = t'.toList) :
    (plug C t).toList = (plug C t').toList := by
  rw [toList_plug, toList_plug, h]

/-- The path to the hole passes through different names. -/
theorem length_le (C : Ctx ι) (t : Shape ι) : C.length ≤ (plug C t).toList.length := by
  have h : C.length ≤ (pre C).length + (post C).length := by
    induction C with
    | nil => simp
    | cons f C ih =>
      obtain ⟨d, c, x, s⟩ := f
      cases d <;> simp [pre, post] <;> omega
  rw [toList_plug]
  simp
  omega

theorem names_perm : ∀ (C : Ctx ι) (t : Shape ι),
    (plug C t).toList.Perm (t.toList ++ names C)
  | [], t => by simp [names]
  | f :: C, t => by
    refine (names_perm C _).trans ?_
    refine ((toList_mk_perm f.d f.c t f.x f.sib).append_right _).trans ?_
    simp only [names, List.cons_append, List.append_assoc]
    exact List.perm_middle.symm

theorem mem_mk {d : Dir} {c : Color} {a b : Shape ι} {x z : ι} :
    z ∈ (mk d c a x b).toList ↔ z = x ∨ z ∈ a.toList ∨ z ∈ b.toList := by
  rw [(toList_mk_perm d c a x b).mem_iff, List.mem_cons, List.mem_append]

theorem mem_plug {C : Ctx ι} {t : Shape ι} {z : ι} :
    z ∈ (plug C t).toList ↔ z ∈ t.toList ∨ z ∈ names C := by
  rw [(names_perm C t).mem_iff, List.mem_append]

theorem plug_append (D C : Ctx ι) (t : Shape ι) : plug (D ++ C) t = plug C (plug D t) := by
  induction D generalizing t with
  | nil => rfl
  | cons f D ih => simp [ih]

/-- Every name of a tree is the root of some subtree. -/
theorem exists_plug {x : ι} : ∀ {t : Shape ι}, x ∈ t.toList →
    ∃ (C : Ctx ι) (c : Color) (a b : Shape ι), t = plug C (.node c a x b)
  | .nil, h => by simp [toList] at h
  | .node c l y r, h => by
    simp only [toList, List.mem_append, List.mem_cons] at h
    have hin : ∀ (d : Dir) (u s : Shape ι), Shape.node c l y r = mk d c u y s → x ∈ u.toList →
        (∃ C c' a b, u = plug C (.node c' a x b)) →
        ∃ C c' a b, Shape.node c l y r = plug C (.node c' a x b) := by
      rintro d u s hu - ⟨C, c', a, b, rfl⟩
      exact ⟨C ++ [⟨d, c, y, s⟩], c', a, b, by rw [plug_append, hu]; rfl⟩
    rcases h with h | rfl | h
    · exact hin .left l r rfl h (exists_plug h)
    · exact ⟨[], c, l, r, rfl⟩
    · exact hin .right r l rfl h (exists_plug h)

/-! ### Balance -/

/-- `n` black nodes on every path, no red node with a red child. -/
inductive Bal : Shape ι → ℕ → Prop
  | nil : Bal .nil 0
  | black {l r : Shape ι} {x : ι} {n : ℕ} : Bal l n → Bal r n → Bal (.node .black l x r) (n + 1)
  | red {l r : Shape ι} {x : ι} {n : ℕ} : Bal l n → Bal r n → l.color = .black →
      r.color = .black → Bal (.node .red l x r) n

theorem bal_mk_black {d : Dir} {a b : Shape ι} {x : ι} {n : ℕ} (ha : Bal a n) (hb : Bal b n) :
    Bal (mk d .black a x b) (n + 1) := by
  cases d
  · exact .black ha hb
  · exact .black hb ha

theorem bal_mk_red {d : Dir} {a b : Shape ι} {x : ι} {n : ℕ} (ha : Bal a n) (hb : Bal b n)
    (hca : a.color = .black) (hcb : b.color = .black) : Bal (mk d .red a x b) n := by
  cases d
  · exact .red ha hb hca hcb
  · exact .red hb ha hcb hca

theorem Bal.of_black {d : Dir} {a b : Shape ι} {x : ι} {n : ℕ} (h : Bal (mk d .black a x b) n) :
    ∃ m, n = m + 1 ∧ Bal a m ∧ Bal b m := by
  cases d <;> (cases h with | black h1 h2 => exact ⟨_, rfl, by assumption, by assumption⟩)

theorem Bal.of_red {d : Dir} {a b : Shape ι} {x : ι} {n : ℕ} (h : Bal (mk d .red a x b) n) :
    Bal a n ∧ Bal b n ∧ a.color = .black ∧ b.color = .black := by
  cases d
  · cases h with | red h1 h2 h3 h4 => exact ⟨h1, h2, h3, h4⟩
  · cases h with | red h1 h2 h3 h4 => exact ⟨h2, h1, h4, h3⟩

/-- A balanced tree of positive height is not empty. -/
theorem Bal.exists_mk (d : Dir) {t : Shape ι} {n : ℕ} (h : Bal t (n + 1)) :
    ∃ c a x b, t = mk d c a x b := by
  cases t with
  | nil => cases h
  | node c l x r =>
    obtain ⟨a, b, e⟩ := Shape.exists_mk d (t := .node c l x r) (x := x) rfl
    exact ⟨_, a, x, b, e⟩

theorem Bal.paint_black {t : Shape ι} {n : ℕ} (h : Bal t n) (hc : t.color = .red) :
    Bal (t.paint .black) (n + 1) := by
  cases h with
  | nil => simp [color] at hc
  | black => simp [color] at hc
  | red h1 h2 => exact .black h1 h2

/-- **The hole of `C`** takes a balanced tree of height `n` and colour `c`, and then the root of the
whole is black. -/
inductive HoleBal : Ctx ι → Color → ℕ → Prop
  | root {n : ℕ} : HoleBal [] .black n
  | red {d : Dir} {x : ι} {s : Shape ι} {C : Ctx ι} {n : ℕ} : Bal s n → s.color = .black →
      HoleBal C .red n → HoleBal (⟨d, .red, x, s⟩ :: C) .black n
  | black {d : Dir} {x : ι} {s : Shape ι} {C : Ctx ι} {n : ℕ} {c : Color} : Bal s n →
      HoleBal C .black (n + 1) → HoleBal (⟨d, .black, x, s⟩ :: C) c n

/-- A hole for a red tree also takes a black one. -/
theorem HoleBal.mono {C : Ctx ι} {n : ℕ} (h : HoleBal C .red n) : HoleBal C .black n := by
  cases h with
  | black h1 h2 => exact .black h1 h2

/-- The whole tree: black root and balanced. -/
def Good (t : Shape ι) : Prop := t.color = .black ∧ ∃ n, Bal t n

theorem Good.paint {t : Shape ι} (h : Good t) : t.paint .black = t := by
  rw [← h.1, paint_color]

theorem bal_plug {C : Ctx ι} {c : Color} {n : ℕ} (h : HoleBal C c n) :
    ∀ {t : Shape ι}, Bal t n → t.color = c → Good (plug C t) := by
  induction h with
  | root => intro t ht hc; exact ⟨hc, _, ht⟩
  | red hs hcs _ ih => intro t ht hc; exact ih (bal_mk_red ht hs hc hcs) (by simp)
  | black hs _ ih => intro t ht _; exact ih (bal_mk_black ht hs) (by simp)

/-- Going down from the root to the hole. -/
theorem holeBal_of_plug : ∀ (C : Ctx ι) {t : Shape ι}, Good (plug C t) →
    ∃ n, Bal t n ∧ HoleBal C t.color n
  | [], t, ⟨hc, n, h⟩ => by
    simp only [plug_nil] at hc h
    exact ⟨n, h, by rw [hc]; exact .root⟩
  | ⟨d, .black, x, s⟩ :: C, t, h => by
    obtain ⟨n, hb, hC⟩ := holeBal_of_plug C h
    obtain ⟨m, rfl, ht, hs⟩ := hb.of_black
    rw [color_mk] at hC
    exact ⟨m, ht, .black hs hC⟩
  | ⟨d, .red, x, s⟩ :: C, t, h => by
    obtain ⟨n, hb, hC⟩ := holeBal_of_plug C h
    obtain ⟨ht, hs, hct, hcs⟩ := hb.of_red
    rw [color_mk] at hC
    exact ⟨n, ht, by rw [hct]; exact .red hs hcs hC⟩

/-- The names do not matter for the balance. -/
theorem Good.rename {C : Ctx ι} {d : Dir} {c : Color} {a b : Shape ι} {x : ι} (y : ι)
    (h : Good (plug C (mk d c a x b))) : Good (plug C (mk d c a y b)) := by
  obtain ⟨n, hb, hC⟩ := holeBal_of_plug C h
  rw [color_mk] at hC
  refine bal_plug hC ?_ (by simp)
  rcases c with _ | _
  · obtain ⟨m, rfl, ha, hb⟩ := hb.of_black
    exact bal_mk_black ha hb
  · obtain ⟨ha, hb, hca, hcb⟩ := hb.of_red
    exact bal_mk_red ha hb hca hcb

end Xstack.Lib.TreeShape
