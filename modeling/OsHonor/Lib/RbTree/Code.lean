import OsHonor.Base.RedBlack
import Mathlib.Algebra.Order.Ring.Int

/-! # The red-black tree (`lib/rbtree.c`)

A node is its address, a word that is a multiple of eight; `NULL` is the word `0`. The word
`__rb_parent_color` holds the address of the parent and the colour in its last bit.

The fix-up loops have two mirrored branches. Here they are one, for the side `d`: `Side.left` for the
branch as it is written first, `Side.right` for the other. A loop takes fuel and returns `none` when it
runs out. -/

namespace OsHonor.Lib.RbTree

open Function Base.RedBlack

/-- A machine word, and so the address of a node (`rb_node`). -/
abbrev Word := BitVec 64

/-- The fields of all nodes and `root->rb_node`. -/
structure Heap where
  parentColor : Word → Word
  child : Side → Word → Word
  root : Word

namespace Heap

def setParentColor (h : Heap) (n w : Word) : Heap :=
  { h with parentColor := update h.parentColor n w }

def setChild (h : Heap) (d : Side) (n w : Word) : Heap :=
  { h with child := update h.child d (update (h.child d) n w) }

def setRoot (h : Heap) (w : Word) : Heap := { h with root := w }

end Heap

/-- `RB_RED` and `RB_BLACK`. -/
def word : Color → Word
  | .red => 0#64
  | .black => 1#64

/-- `__rb_parent`. -/
def parentOf (pc : Word) : Word := pc &&& ~~~3#64

/-- `__rb_color`. -/
def colorOf (pc : Word) : Word := pc &&& 1#64

/-- `__rb_is_black`. -/
def isBlack (pc : Word) : Bool := colorOf pc ≠ 0#64

def rbParent (h : Heap) (n : Word) : Word := parentOf (h.parentColor n)

def rbIsBlack (h : Heap) (n : Word) : Bool := isBlack (h.parentColor n)

def rbIsRed (h : Heap) (n : Word) : Bool := !rbIsBlack h n

def rbSetBlack (h : Heap) (n : Word) : Heap := h.setParentColor n (h.parentColor n ||| word .black)

/-- `rb_red_parent`: the colour bit of a red node is zero. -/
def rbRedParent (h : Heap) (n : Word) : Word := h.parentColor n

def rbSetParent (h : Heap) (n p : Word) : Heap :=
  h.setParentColor n (colorOf (h.parentColor n) ||| p)

def rbSetParentColor (h : Heap) (n p : Word) (c : Color) : Heap := h.setParentColor n (p ||| word c)

/-- `if (n) rb_set_parent_color(n, p, RB_BLACK)`. -/
def adopt (h : Heap) (n p : Word) : Heap := if n ≠ 0#64 then rbSetParentColor h n p .black else h

/-- `if (n) rb_set_parent(n, p)`. -/
def reparent (h : Heap) (n p : Word) : Heap := if n ≠ 0#64 then rbSetParent h n p else h

def rbChangeChild (h : Heap) (old new parent : Word) : Heap :=
  if parent ≠ 0#64 then
    if h.child .left parent = old then h.setChild .left parent new
    else h.setChild .right parent new
  else h.setRoot new

def rbRotateSetParents (h : Heap) (old new : Word) (color : Color) : Heap :=
  let parent := rbParent h old
  let h := h.setParentColor new (h.parentColor old)
  let h := rbSetParentColor h old new color
  rbChangeChild h old new parent

/-! ### Insertion -/

/-- Case 1 of `__rb_insert_fix`: the uncle is red. -/
def insertRecolor (h : Heap) (uncle parent gparent : Word) : Heap × Word × Word :=
  let h := rbSetParentColor h uncle gparent .black
  let h := rbSetParentColor h parent gparent .black
  let node := gparent
  let parent := rbParent h node
  (rbSetParentColor h node parent .red, node, parent)

/-- Case 2 of `__rb_insert_fix`: `node` is the inner child and changes places with `parent`. -/
def insertRaise (h : Heap) (d : Side) (node parent : Word) : Heap :=
  let tmp := h.child d node
  let h := h.setChild d.other parent tmp
  let h := adopt h tmp parent
  let h := h.setChild d node parent
  rbSetParentColor h parent node .red

/-- Case 3 of `__rb_insert_fix`: `parent` takes the place of `gparent`. -/
def insertRotate (h : Heap) (d : Side) (parent gparent tmp : Word) : Heap :=
  let h := h.setChild d gparent tmp
  let h := adopt h tmp gparent
  let h := h.setChild d.other parent gparent
  rbRotateSetParents h gparent parent .red

/-- The loop of `__rb_insert_fix`. -/
def rbInsertFixLoop : ℕ → Heap → Word → Word → Option Heap
  | 0, _, _, _ => none
  | fuel + 1, h, node, parent =>
    if parent = 0#64 then some ((rbSetParentColor h node 0#64 .black).setRoot node)
    else if rbIsBlack h parent then some h
    else
      let gparent := rbRedParent h parent
      let d := if parent ≠ h.child .right gparent then Side.left else .right
      let tmp := h.child d.other gparent
      if tmp ≠ 0#64 ∧ rbIsRed h tmp then
        let (h, node, parent) := insertRecolor h tmp parent gparent
        rbInsertFixLoop fuel h node parent
      else
        let tmp := h.child d.other parent
        if node = tmp then
          let h := insertRaise h d node parent
          some (insertRotate h d node gparent (h.child d.other node))
        else some (insertRotate h d parent gparent tmp)

def rbInsertFix (fuel : ℕ) (h : Heap) (node : Word) : Option Heap :=
  rbInsertFixLoop fuel h node (rbRedParent h node)

/-- The descent of `_rb_insert`; the flag is `false` where the source returns `-1`. -/
def rbInsertLoop (cmp : Word → Word → Bool) (node : Word) : ℕ → Heap → Word → Option (Heap × Bool)
  | 0, _, _ => none
  | fuel + 1, h, nw =>
    if nw = 0#64 then some (h, true)
    else
      let parent := nw
      let descend (d : Side) :=
        let nw := h.child d nw
        let h := if nw = 0#64 then (h.setChild d parent node).setParentColor node parent else h
        rbInsertLoop cmp node fuel h nw
      if cmp node nw then descend .left
      else if cmp nw node then descend .right
      else some (h, false)

def rbInsert (cmp : Word → Word → Bool) (fuel : ℕ) (h : Heap) (node : Word) : Option (Heap × ℤ) :=
  let nw := h.root
  let h := (h.setChild .left node 0#64).setChild .right node 0#64
  let h := h.setParentColor node 0#64
  (rbInsertLoop cmp node fuel h nw).bind fun (h, inserted) =>
    if inserted then (rbInsertFix fuel h node).map fun h => (h, 0) else some (h, -1)

/-! ### Removal -/

/-- The search for the successor in `__rb_erase`: the loop that goes down on the left. -/
def successorLoop (h : Heap) : ℕ → Word → Word → Option (Word × Word)
  | 0, _, _ => none
  | fuel + 1, successor, tmp =>
    let parent := successor
    let successor := tmp
    let tmp := h.child .left tmp
    if tmp ≠ 0#64 then successorLoop h fuel successor tmp else some (parent, successor)

/-- The last part of `__rb_erase` for a node with two children: the successor takes its place. -/
def eraseReplace (h : Heap) (node parent successor child2 : Word) : Heap × Word :=
  let tmp := h.child .left node
  let h := h.setChild .left successor tmp
  let h := rbSetParent h tmp successor
  let pc := h.parentColor node
  let tmp := parentOf pc
  let h := rbChangeChild h node successor tmp
  if child2 ≠ 0#64 then
    let h := h.setParentColor successor pc
    (rbSetParentColor h child2 parent .black, 0#64)
  else
    let pc2 := h.parentColor successor
    (h.setParentColor successor pc, if isBlack pc2 then parent else 0#64)

/-- `__rb_erase`: the heap and the node from which to rebalance, `0` for `NULL`. -/
def rbEraseNode (fuel : ℕ) (h : Heap) (node : Word) : Option (Heap × Word) :=
  let child := h.child .right node
  let tmp := h.child .left node
  if tmp = 0#64 then
    let pc := h.parentColor node
    let parent := parentOf pc
    let h := rbChangeChild h node child parent
    if child ≠ 0#64 then some (h.setParentColor child pc, 0#64)
    else some (h, if isBlack pc then parent else 0#64)
  else if child = 0#64 then
    let pc := h.parentColor node
    let h := h.setParentColor tmp pc
    let parent := parentOf pc
    some (rbChangeChild h node tmp parent, 0#64)
  else
    let tmp := h.child .left child
    if tmp = 0#64 then
      let successor := child
      some (eraseReplace h node successor successor (h.child .right successor))
    else
      (successorLoop h fuel child tmp).map fun (parent, successor) =>
        let child2 := h.child .right successor
        let h := h.setChild .left parent child2
        let h := h.setChild .right successor child
        let h := rbSetParent h child successor
        eraseReplace h node parent successor child2

/-- Case 1 of `__rb_erase_fix`: the sibling is red and takes the place of `parent`. -/
def eraseRaise (h : Heap) (d : Side) (parent sibling : Word) : Heap × Word :=
  let tmp1 := h.child d sibling
  let h := h.setChild d.other parent tmp1
  let h := rbSetParentColor h tmp1 parent .black
  let h := h.setChild d sibling parent
  (rbRotateSetParents h parent sibling .red, tmp1)

/-- Case 3 of `__rb_erase_fix`: the inner nephew `tmp2` changes places with the sibling. -/
def eraseInner (h : Heap) (d : Side) (parent sibling tmp2 : Word) : Heap :=
  let tmp1 := h.child d.other tmp2
  let h := h.setChild d sibling tmp1
  let h := adopt h tmp1 sibling
  let h := h.setChild d.other tmp2 sibling
  h.setChild d.other parent tmp2

/-- Case 4 of `__rb_erase_fix`: the sibling takes the place of `parent`, the outer nephew `tmp1`
becomes black. -/
def eraseRotate (h : Heap) (d : Side) (parent sibling tmp1 : Word) : Heap :=
  let tmp2 := h.child d sibling
  let h := h.setChild d.other parent tmp2
  let h := reparent h tmp2 parent
  let h := h.setChild d sibling parent
  let h := rbSetParentColor h tmp1 sibling .black
  rbRotateSetParents h parent sibling .black

/-- The cases 2 to 4 of `__rb_erase_fix`, with a black sibling: the heap and, where the loop continues,
the next `node` and `parent`. -/
def eraseFixStep (h : Heap) (d : Side) (parent sibling : Word) : Heap × Option (Word × Word) :=
  let tmp1 := h.child d.other sibling
  if tmp1 = 0#64 ∨ rbIsBlack h tmp1 then
    let tmp2 := h.child d sibling
    if tmp2 = 0#64 ∨ rbIsBlack h tmp2 then
      let h := rbSetParentColor h sibling parent .red
      if rbIsRed h parent then (rbSetBlack h parent, none)
      else
        let node := parent
        let parent := rbParent h node
        (h, if parent ≠ 0#64 then some (node, parent) else none)
    else
      let h := eraseInner h d parent sibling tmp2
      (eraseRotate h d parent tmp2 sibling, none)
  else (eraseRotate h d parent sibling tmp1, none)

/-- The loop of `__rb_erase_fix`. -/
def rbEraseFixLoop : ℕ → Heap → Word → Word → Option Heap
  | 0, _, _, _ => none
  | fuel + 1, h, node, parent =>
    let d := if node ≠ h.child .right parent then Side.left else .right
    let sibling := h.child d.other parent
    let (h, sibling) := if rbIsRed h sibling then eraseRaise h d parent sibling else (h, sibling)
    match eraseFixStep h d parent sibling with
    | (h, none) => some h
    | (h, some (node, parent)) => rbEraseFixLoop fuel h node parent

def rbEraseFix (fuel : ℕ) (h : Heap) (parent : Word) : Option Heap := rbEraseFixLoop fuel h 0#64 parent

def rbErase (fuel : ℕ) (h : Heap) (node : Word) : Option Heap :=
  (rbEraseNode fuel h node).bind fun (h, rebalance) =>
    if rebalance ≠ 0#64 then rbEraseFix fuel h rebalance else some h

/-! ### Reading -/

/-- The loop of `_rb_lookup`. -/
def rbLookupLoop (cmp : Word → Word → Bool) (h : Heap) (node : Word) : ℕ → Word → Option Word
  | 0, _ => none
  | fuel + 1, nw =>
    if nw = 0#64 then some 0#64
    else if cmp node nw then rbLookupLoop cmp h node fuel (h.child .left nw)
    else if cmp nw node then rbLookupLoop cmp h node fuel (h.child .right nw)
    else some nw

def rbLookup (cmp : Word → Word → Bool) (fuel : ℕ) (h : Heap) (node : Word) : Option Word :=
  rbLookupLoop cmp h node fuel h.root

/-- The loop of `_rb_first`. -/
def rbFirstLoop (h : Heap) : ℕ → Word → Option Word
  | 0, _ => none
  | fuel + 1, n => if h.child .left n ≠ 0#64 then rbFirstLoop h fuel (h.child .left n) else some n

def rbFirst (fuel : ℕ) (h : Heap) : Option Word :=
  let n := h.root
  if n = 0#64 then some 0#64 else rbFirstLoop h fuel n

end OsHonor.Lib.RbTree
