import Xstack.Lib.TreeShape

/-! # The red-black tree macros of `tree.h`

`RB_GENERATE` works on link fields that live inside the elements. Here the elements are names `ι`;
`Rb ι` holds the link fields of *all* elements, linked or not, and the root pointer. A function
that follows a null pointer has no result (`none`), and so has a loop that runs out of `fuel`; the
callers pass the number of elements, so a loop that runs out goes round a cycle.

The macros are written twice in `tree.h`, once for each side. Here the side is an argument: `d` is
`left` in the text of `RB_ROTATE_LEFT` and in the first branch of `RB_INSERT_COLOR` and
`RB_REMOVE_COLOR`. -/

namespace Xstack.Tree.Macros

open Xstack.Lib.TreeShape

/-- `RB_ENTRY`. -/
structure RbEntry (ι : Type) where
  left : Option ι
  right : Option ι
  parent : Option ι
  color : Color
  deriving DecidableEq

/-- The link fields of static memory: null pointers and `RB_BLACK = 0`. -/
def RbEntry.zero {ι : Type} : RbEntry ι := ⟨none, none, none, .black⟩

/-- `RB_HEAD` together with the link fields of all elements. -/
structure Rb (ι : Type) where
  entry : ι → RbEntry ι
  root : Option ι

namespace Rb

variable {ι : Type}

/-- `RB_INITIALIZER` over zeroed elements. -/
def init : Rb ι := ⟨fun _ => .zero, none⟩

/-- `RB_LEFT`, `RB_RIGHT`. -/
def child (h : Rb ι) (d : Dir) (x : ι) : Option ι :=
  match d with
  | .left => (h.entry x).left
  | .right => (h.entry x).right

/-- `RB_PARENT`. -/
def parent (h : Rb ι) (x : ι) : Option ι := (h.entry x).parent

/-- `RB_COLOR`. -/
def color (h : Rb ι) (x : ι) : Color := (h.entry x).color

/-- `p && RB_COLOR(p) == RB_RED`. -/
def isRed (h : Rb ι) : Option ι → Bool
  | none => false
  | some x => h.color x == .red

/-- The elements that the pointers lead to from the head. -/
inductive Reach (h : Rb ι) : ι → Prop
  | root {x : ι} : h.root = some x → Reach h x
  | child {x y : ι} (d : Dir) : Reach h x → h.child d x = some y → Reach h y

variable [DecidableEq ι]

def setEntry (h : Rb ι) (x : ι) (e : RbEntry ι) : Rb ι :=
  { h with entry := Function.update h.entry x e }

def setChild (h : Rb ι) (d : Dir) (x : ι) (v : Option ι) : Rb ι :=
  match d with
  | .left => h.setEntry x { h.entry x with left := v }
  | .right => h.setEntry x { h.entry x with right := v }

def setParent (h : Rb ι) (x : ι) (v : Option ι) : Rb ι :=
  h.setEntry x { h.entry x with parent := v }

def setColor (h : Rb ι) (x : ι) (c : Color) : Rb ι :=
  h.setEntry x { h.entry x with color := c }

/-- `if (p) RB_PARENT(p) = v`. -/
def setParent? (h : Rb ι) (p : Option ι) (v : Option ι) : Rb ι :=
  match p with
  | some x => h.setParent x v
  | none => h

/-- `if (p) RB_COLOR(p) = RB_BLACK`. -/
def blacken (h : Rb ι) (p : Option ι) : Rb ι :=
  match p with
  | some x => h.setColor x .black
  | none => h

/-- The parent `p` of `old` (the head, if `p` is null) gets the child `new` instead of `old`. -/
def relink (h : Rb ι) (p : Option ι) (old : ι) (new : Option ι) : Rb ι :=
  match p with
  | some p =>
    if h.child .left p = some old then h.setChild .left p new else h.setChild .right p new
  | none => { h with root := new }

/-- `RB_ROTATE_LEFT` (`d = left`), `RB_ROTATE_RIGHT` (`d = right`). -/
def rotate (d : Dir) (h : Rb ι) (elm : ι) : Option (Rb ι) := do
  let tmp ← h.child d.flip elm
  let h := h.setChild d.flip elm (h.child d tmp)
  let h := h.setParent? (h.child d tmp) (some elm)
  let h := h.setParent tmp (h.parent elm)
  let h := h.relink (h.parent elm) elm (some tmp)
  let h := h.setChild d tmp (some elm)
  return h.setParent elm (some tmp)

/-- `RB_INSERT_COLOR`. -/
def insertColor : ℕ → Rb ι → ι → Option (Rb ι)
  | 0, _, _ => none
  | fuel + 1, h, elm =>
    match h.parent elm with
    | none => h.root.map fun r => h.setColor r .black
    | some parent =>
      if h.color parent = .red then do
        let gparent ← h.parent parent
        let d := if h.child .left gparent = some parent then Dir.left else Dir.right
        let tmp := h.child d.flip gparent
        if h.isRed tmp then
          let h := h.blacken tmp
          let h := (h.setColor parent .black).setColor gparent .red
          insertColor fuel h gparent
        else
          let (h, parent, elm) ←
            if h.child d.flip parent = some elm then do
              let h ← h.rotate d parent
              pure (h, elm, parent)
            else pure (h, parent, elm)
          let h := (h.setColor parent .black).setColor gparent .red
          let h ← h.rotate d.flip gparent
          insertColor fuel h elm
      else h.root.map fun r => h.setColor r .black

/-- First part of a pass of `RB_REMOVE_COLOR`: a red sibling `tmp` is rotated away. -/
def redSib (d : Dir) (h : Rb ι) (parent : ι) : Option (Rb ι × ι) := do
  let tmp ← h.child d.flip parent
  if h.color tmp = .red then do
    let h := (h.setColor tmp .black).setColor parent .red
    let h ← h.rotate d parent
    let tmp ← h.child d.flip parent
    return (h, tmp)
  else return (h, tmp)

/-- Last part of a pass of `RB_REMOVE_COLOR`: the far child of `tmp` is made red. -/
def farSib (d : Dir) (h : Rb ι) (parent tmp : ι) : Option (Rb ι × ι) :=
  if h.isRed (h.child d.flip tmp) = false then do
    let h := h.blacken (h.child d tmp)
    let h := h.setColor tmp .red
    let h ← h.rotate d.flip tmp
    let tmp ← h.child d.flip parent
    return (h, tmp)
  else return (h, tmp)

/-- Last part of a pass of `RB_REMOVE_COLOR`: the final rotation, then `elm = RB_ROOT(head)`. -/
def lastTurn (d : Dir) (h : Rb ι) (parent tmp : ι) : Option (Rb ι) := do
  let h := h.setColor tmp (h.color parent)
  let h := h.setColor parent .black
  let h := h.blacken (h.child d.flip tmp)
  let h ← h.rotate d parent
  return h.blacken h.root

/-- `RB_REMOVE_COLOR`. -/
def removeColor : ℕ → Rb ι → Option ι → Option ι → Option (Rb ι)
  | 0, _, _, _ => none
  | fuel + 1, h, parent, elm =>
    if h.isRed elm = false ∧ elm ≠ h.root then do
      let parent ← parent
      let d := if h.child .left parent = elm then Dir.left else Dir.right
      let (h, tmp) ← h.redSib d parent
      if h.isRed (h.child d tmp) = false ∧ h.isRed (h.child d.flip tmp) = false then
        let h := h.setColor tmp .red
        removeColor fuel h (h.parent parent) (some parent)
      else do
        let (h, tmp) ← h.farSib d parent tmp
        h.lastTurn d parent tmp
    else some (h.blacken elm)

/-- `while ((left = RB_LEFT(elm)) != NULL) elm = left`. -/
def leftmost : ℕ → Rb ι → ι → Option ι
  | 0, _, _ => none
  | fuel + 1, h, x =>
    match h.child .left x with
    | none => some x
    | some l => leftmost fuel h l

/-- Takes `elm` out of its place, `child` moves up. -/
def splice (h : Rb ι) (elm : ι) (child : Option ι) : Rb ι :=
  let parent := h.parent elm
  let h := h.setParent? child parent
  h.relink parent elm child

/-- `RB_REMOVE` of an element with at most one child. -/
def unlink (fuel : ℕ) (h : Rb ι) (elm : ι) (child : Option ι) : Option (Rb ι) :=
  let parent := h.parent elm
  let color := h.color elm
  let h := h.splice elm child
  if color = .black then h.removeColor fuel parent child else some h

/-- `RB_REMOVE` of an element with two children: the next element `elm` takes its place. -/
def unlinkNext (fuel : ℕ) (h : Rb ι) (old : ι) : Option (Rb ι) := do
  let right ← h.child .right old
  let elm ← h.leftmost fuel right
  let child := h.child .right elm
  let parent := h.parent elm
  let color := h.color elm
  let h := h.splice elm child
  let parent := if h.parent elm = some old then some elm else parent
  let h := h.setEntry elm (h.entry old)
  let h := h.relink (h.parent old) old (some elm)
  let left ← h.child .left old
  let h := h.setParent left (some elm)
  let h := h.setParent? (h.child .right old) (some elm)
  if color = .black then h.removeColor fuel parent child else some h

/-- `RB_REMOVE`. -/
def rbRemove (fuel : ℕ) (h : Rb ι) (elm : ι) : Option (Rb ι) :=
  if h.child .left elm = none then h.unlink fuel elm (h.child .right elm)
  else if h.child .right elm = none then h.unlink fuel elm (h.child .left elm)
  else h.unlinkNext fuel elm

/-- Where the descent of `RB_INSERT` ends: at an equal element, or below `parent` on the side
given by the last comparison. -/
inductive Place (ι : Type)
  | found (x : ι)
  | below (parent : Option ι) (d : Dir)

/-- The descent of `RB_INSERT` from `tmp`; `cmp` compares the new element with a linked one. -/
def descend (cmp : ι → ℤ) : ℕ → Rb ι → Option ι → Option ι → Dir → Option (Place ι)
  | 0, _, _, _, _ => none
  | _ + 1, _, none, parent, d => some (.below parent d)
  | fuel + 1, h, some tmp, _, _ =>
    if cmp tmp < 0 then descend cmp fuel h (h.child .left tmp) (some tmp) .left
    else if 0 < cmp tmp then descend cmp fuel h (h.child .right tmp) (some tmp) .right
    else some (.found tmp)

/-- `RB_SET`, and the link from `parent` (from the head, if it is null). -/
def attach (h : Rb ι) (elm : ι) (parent : Option ι) (d : Dir) : Rb ι :=
  let h := h.setEntry elm ⟨none, none, parent, .red⟩
  match parent with
  | some p => h.setChild d p (some elm)
  | none => { h with root := some elm }

/-- `RB_INSERT`: the new tree and the result, null or the equal element that is in the way. -/
def rbInsert (fuel : ℕ) (cmp : ι → ℤ) (h : Rb ι) (elm : ι) : Option (Rb ι × Option ι) := do
  match ← h.descend cmp fuel h.root none .right with
  | .found x => return (h, some x)
  | .below parent d =>
    let h ← (h.attach elm parent d).insertColor fuel elm
    return (h, none)

/-- The descent of `RB_FIND` from `tmp`. -/
def findFrom (cmp : ι → ℤ) : ℕ → Rb ι → Option ι → Option (Option ι)
  | 0, _, _ => none
  | _ + 1, _, none => some none
  | fuel + 1, h, some tmp =>
    if cmp tmp < 0 then findFrom cmp fuel h (h.child .left tmp)
    else if 0 < cmp tmp then findFrom cmp fuel h (h.child .right tmp)
    else some (some tmp)

/-- `RB_FIND`; `cmp` compares the key with a linked element. -/
def rbFind (fuel : ℕ) (cmp : ι → ℤ) (h : Rb ι) : Option (Option ι) :=
  h.findFrom cmp fuel h.root

/-! ### Walking through the tree -/

/-- `RB_MIN`. -/
def rbMin (fuel : ℕ) (h : Rb ι) : Option (Option ι) :=
  match h.root with
  | none => some none
  | some x => (h.leftmost fuel x).map some

/-- `while (RB_PARENT(elm) && elm == RB_RIGHT(RB_PARENT(elm))) elm = RB_PARENT(elm)`, and then
`elm = RB_PARENT(elm)`. -/
def climb : ℕ → Rb ι → ι → Option (Option ι)
  | 0, _, _ => none
  | fuel + 1, h, elm =>
    match h.parent elm with
    | none => some none
    | some p => if h.child .right p = some elm then climb fuel h p else some (some p)

/-- `RB_NEXT`. -/
def rbNext (fuel : ℕ) (h : Rb ι) (elm : ι) : Option (Option ι) :=
  match h.child .right elm with
  | some r => (h.leftmost fuel r).map some
  | none =>
    match h.parent elm with
    | none => some none
    | some p => if h.child .left p = some elm then some (some p) else h.climb fuel elm

/-- `RB_FOREACH` from `x` on, left at the first element with `p`. -/
def foreachFrom (p : ι → Bool) (h : Rb ι) : ℕ → Option ι → Option (Option ι)
  | 0, _ => none
  | _ + 1, none => some none
  | fuel + 1, some x =>
    if p x then some (some x) else (h.rbNext fuel x).bind fun y => foreachFrom p h fuel y

/-- `RB_FOREACH`, left at the first element with `p`. -/
def rbForeach (fuel : ℕ) (p : ι → Bool) (h : Rb ι) : Option (Option ι) :=
  (h.rbMin fuel).bind fun x => h.foreachFrom p fuel x

end Rb

end Xstack.Tree.Macros
