import LykOS.Lib.RedBlack

/-!
# The intrusive red-black tree

`lib/rbtree.c`. Nodes are named by numbers, and `nodes` is the memory they are in; a pointer is an
`Option`, and a computation that follows a null pointer has no result. Loops are bounded by a number
of rounds, with no result when it is used up. The mirrored pairs of the source, `left_rotate` with
`right_rotate` and the two halves of each fix-up loop, are one definition with a `Side`.
-/

namespace LykOS

open RedBlack

/-- `rbtree_node_t`. -/
structure RbtreeNode where
  key : ℕ
  value : ℕ
  parent : Option ℕ
  left : Option ℕ
  right : Option ℕ
  red : Bool

def RbtreeNode.child (n : RbtreeNode) : Side → Option ℕ
  | .left => n.left
  | .right => n.right

/-- `rbtree_t` and the memory of its nodes. -/
structure Rbtree where
  nodes : ℕ → RbtreeNode
  root : Option ℕ

namespace Rbtree

def modify (r : Rbtree) (a : ℕ) (f : RbtreeNode → RbtreeNode) : Rbtree :=
  { r with nodes := Function.update r.nodes a (f (r.nodes a)) }

def setParent (r : Rbtree) (a : ℕ) (p : Option ℕ) : Rbtree :=
  r.modify a fun n => { n with parent := p }

def setChild (r : Rbtree) (a : ℕ) (d : Side) (p : Option ℕ) : Rbtree :=
  r.modify a fun n => match d with
    | .left => { n with left := p }
    | .right => { n with right := p }

def setRed (r : Rbtree) (a : ℕ) (red : Bool) : Rbtree := r.modify a fun n => { n with red }

/-- `if (p) p->parent = v`. -/
def reparent (r : Rbtree) (p v : Option ℕ) : Rbtree :=
  match p with
  | none => r
  | some a => r.setParent a v

/-- `if (p) p->red = red`. -/
def recolor (r : Rbtree) (p : Option ℕ) (red : Bool) : Rbtree :=
  match p with
  | none => r
  | some a => r.setRed a red

/-- `p && p->red`. -/
def isRed (r : Rbtree) (p : Option ℕ) : Bool :=
  match p with
  | none => false
  | some a => (r.nodes a).red

/-- `v` takes the place of `u` below the parent of `u`, or as the root. -/
def replaceChild (d : Side) (r : Rbtree) (u : ℕ) (v : Option ℕ) : Rbtree :=
  match (r.nodes u).parent with
  | none => { r with root := v }
  | some p => if (r.nodes p).child d = some u then r.setChild p d v else r.setChild p d.other v

/-- `left_rotate` for the left side, `right_rotate` for the right one. -/
def rotate (d : Side) (r : Rbtree) (x : ℕ) : Option Rbtree := do
  let y ← (r.nodes x).child d.other
  let b := (r.nodes y).child d
  let r := r.setChild x d.other b
  let r := r.reparent b (some x)
  let r := r.setParent y (r.nodes x).parent
  let r := r.replaceChild d x (some y)
  let r := r.setChild y d (some x)
  return r.setParent x (some y)

def leftRotate : Rbtree → ℕ → Option Rbtree := rotate .left

def rightRotate : Rbtree → ℕ → Option Rbtree := rotate .right

/-! ## Insertion -/

/-- One round of `fix_insert` where the parent `p` of `z` is the child on side `d` of `gp`. -/
def fixInsertRound (d : Side) (r : Rbtree) (z p gp : ℕ) : Option (Rbtree × ℕ) :=
  let y := (r.nodes gp).child d.other
  if r.isRed y then some (((r.setRed p false).recolor y false).setRed gp true, gp)
  else do
    let (r, z) ← if (r.nodes p).child d.other = some z then (rotate d r p).map (·, p)
      else some (r, z)
    let p ← (r.nodes z).parent
    let r ← rotate d.other ((r.setRed p false).setRed gp true) gp
    return (r, z)

/-- The loop of `fix_insert`. -/
def fixInsertLoop : ℕ → Rbtree → ℕ → Option Rbtree
  | 0, _, _ => none
  | n + 1, r, z =>
    match (r.nodes z).parent with
    | none => some r
    | some p =>
      if (r.nodes p).red then
        match (r.nodes p).parent with
        | none => some r
        | some gp => do
          let d := if (r.nodes gp).left = some p then .left else .right
          let (r, z) ← fixInsertRound d r z p gp
          fixInsertLoop n r z
      else some r

def fixInsert (n : ℕ) (r : Rbtree) (z : ℕ) : Option Rbtree :=
  (fixInsertLoop n r z).map fun r => r.recolor r.root false

/-- The loop of `rb_insert`: the node below which the key goes, or the key is found. -/
def insertPlace (r : Rbtree) (key : ℕ) : ℕ → Option ℕ → Option ℕ → Option (Option ℕ × Bool)
  | 0, _, _ => none
  | _ + 1, y, none => some (y, false)
  | n + 1, _, some x =>
    if key = (r.nodes x).key then some (some x, true)
    else if key < (r.nodes x).key then insertPlace r key n (some x) (r.nodes x).left
    else insertPlace r key n (some x) (r.nodes x).right

def rbInsert (n : ℕ) (r : Rbtree) (z : ℕ) : Option (Bool × Rbtree) := do
  let (y, found) ← insertPlace r (r.nodes z).key n none r.root
  if found then return (false, r)
  else do
    let r := r.modify z fun n => { n with parent := y, left := none, right := none, red := true }
    let r := match y with
      | none => { r with root := some z }
      | some y => r.setChild y (if (r.nodes z).key < (r.nodes y).key then .left else .right) (some z)
    let r ← fixInsert n r z
    return (true, r)

/-! ## Search -/

/-- The loop of `rb_find`. -/
def findLoop (r : Rbtree) (key : ℕ) : ℕ → Option ℕ → Option (Option ℕ)
  | 0, _ => none
  | _ + 1, none => some none
  | n + 1, some a =>
    if key = (r.nodes a).key then some (some a)
    else if key < (r.nodes a).key then findLoop r key n (r.nodes a).left
    else findLoop r key n (r.nodes a).right

def rbFind (n : ℕ) (r : Rbtree) (key : ℕ) : Option (Option ℕ) := findLoop r key n r.root

def treeMin (r : Rbtree) : ℕ → Option ℕ → Option (Option ℕ)
  | 0, _ => none
  | _ + 1, none => some none
  | n + 1, some x =>
    if (r.nodes x).left = none then some (some x) else treeMin r n (r.nodes x).left

/-! ## Order -/

def rbFirst (n : ℕ) (r : Rbtree) : Option (Option ℕ) := treeMin r n r.root

/-- The loop of `rb_next`: up from `a` with the parent `p`, until `a` is not the right child. -/
def nextLoop (r : Rbtree) : ℕ → ℕ → Option ℕ → Option (Option ℕ)
  | 0, _, _ => none
  | _ + 1, _, none => some none
  | n + 1, a, some p =>
    if (r.nodes p).right = some a then nextLoop r n p (r.nodes p).parent else some (some p)

def rbNext (n : ℕ) (r : Rbtree) (a : ℕ) : Option (Option ℕ) :=
  if (r.nodes a).right ≠ none then treeMin r n (r.nodes a).right else nextLoop r n a (r.nodes a).parent

/-! ## Removal -/

def transplant (r : Rbtree) (u : ℕ) (v : Option ℕ) : Rbtree :=
  (r.replaceChild .left u v).reparent v (r.nodes u).parent

/-- The first part of `rb_remove`: `z` leaves the tree. Returned are `x`, `x_parent` and
`y_original_red`. -/
def unlink (n : ℕ) (r : Rbtree) (z : ℕ) : Option (Rbtree × Option ℕ × Option ℕ × Bool) :=
  let zn := r.nodes z
  if zn.left = none then some (transplant r z zn.right, zn.right, zn.parent, zn.red)
  else if zn.right = none then some (transplant r z zn.left, zn.left, zn.parent, zn.red)
  else do
    let y ← (← treeMin r n zn.right)
    let yRed := (r.nodes y).red
    let x := (r.nodes y).right
    let (r, xParent) :=
      if (r.nodes y).parent = some z then (r.reparent x (some y), some y)
      else
        let r := transplant r y x
        let r := r.setChild y .right (r.nodes z).right
        let r := r.reparent (r.nodes y).right (some y)
        (r, (r.nodes y).parent)
    let r := transplant r z (some y)
    let r := r.setChild y .left (r.nodes z).left
    let r := r.reparent (r.nodes y).left (some y)
    return (r.setRed y (r.nodes z).red, x, xParent, yRed)

/-- The end of a round of the fix-up of `rb_remove`, where the far child of the sibling `w` is red. -/
def fixRemoveEnd (d : Side) (r : Rbtree) (p : ℕ) (w : Option ℕ) : Option Rbtree :=
  let r := r.recolor w (r.nodes p).red
  let r := r.setRed p false
  let r := match w with
    | none => r
    | some w => r.recolor ((r.nodes w).child d.other) false
  rotate d r p

/-- A round of the fix-up of `rb_remove` once the sibling `w` is black; returned is whether `x` moves
up to `p`. -/
def fixRemoveBlack (d : Side) (r : Rbtree) (p w : ℕ) : Option (Rbtree × Bool) :=
  if ¬ r.isRed (r.nodes w).left ∧ ¬ r.isRed (r.nodes w).right then some (r.setRed w true, true)
  else do
    let (r, w) ← if ¬ r.isRed ((r.nodes w).child d.other) then do
        let r ← rotate d.other ((r.recolor ((r.nodes w).child d) false).setRed w true) w
        some (r, (r.nodes p).child d.other)
      else some (r, some w)
    let r ← fixRemoveEnd d r p w
    return (r, false)

/-- One round of the fix-up of `rb_remove` where `x` is the child on side `d` of `p`. -/
def fixRemoveRound (d : Side) (r : Rbtree) (p : ℕ) : Option (Rbtree × Bool) := do
  let w ← (r.nodes p).child d.other
  if (r.nodes w).red then do
    let r ← rotate d ((r.setRed w false).setRed p true) p
    let w ← (r.nodes p).child d.other
    fixRemoveBlack d r p w
  else fixRemoveBlack d r p w

/-- The loop of the fix-up of `rb_remove`; returned is `x` at its end. -/
def fixRemoveLoop : ℕ → Rbtree → Option ℕ → Option ℕ → Option (Rbtree × Option ℕ)
  | 0, _, _, _ => none
  | n + 1, r, x, xParent =>
    if x = r.root ∨ r.isRed x then some (r, x)
    else
      match xParent with
      | none => some (r, x)
      | some p => do
        let d := if (r.nodes p).left = x then .left else .right
        let (r, up) ← fixRemoveRound d r p
        if up then fixRemoveLoop n r (some p) (r.nodes p).parent else return (r, r.root)

def rbRemove (n : ℕ) (r : Rbtree) (key : ℕ) : Option (Option ℕ × Rbtree) := do
  match ← rbFind n r key with
  | none => return (none, r)
  | some z => do
    let (r, x, xParent, yRed) ← unlink n r z
    let r ← if yRed then some r
      else (fixRemoveLoop n r x xParent).map fun (r, x) => r.recolor x false
    return (some z, r.modify z fun n =>
      { n with parent := none, left := none, right := none, red := false })

end Rbtree

end LykOS
