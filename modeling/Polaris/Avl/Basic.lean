import Mathlib.Logic.Function.Basic
import Mathlib.Data.Nat.Init

/-!
# The AVL routines of `common/avl/avl.c`

The routines run on a memory of `avl_node_t` cells reached through addresses, as
the C code does: every read and every write of a node goes through its address,
and one that hits an address with no cell faults.  A fault, a panic and a loop
that runs out of fuel are all `none`; the correctness theorems show that none of
them happens.

The embedding object and its `avl_node_t` differ by the constant `avl_offset`, so
one address stands for both.  Fields of the node other than the links live in the
map `data`, which no routine here writes.  The links are kept unpacked, as they
are on machines that are not `_LP64`.

`AvlTree.cell d x y q c b` is the node whose child on side `d` is `x`.  The C code
is written for one side and run for both, and this constructor is what lets the
proofs do the same.

## Main definitions

* `AvlNode`, `AvlTree` — the cells, and a tree with the memory that holds it.
* `avlWalk`, `avlFirst`, `avlNearest`, `avlFind` — the queries.
* `avlRotation`, `avlInsert`, `avlInsertHere`, `avlAdd`, `avlRemove` — the updates.
* `avlDestroyNodes` — one call of the destroying walk.
-/

namespace Polaris

/-- A machine address.  Zero is `NULL`. -/
abbrev Addr := ℕ

/-- An `avl_node_t`.  The child index is a boolean, `false` for `avl_child[0]`. -/
structure AvlNode where
  avlChild0 : Addr
  avlChild1 : Addr
  avlParent : Addr
  avlChildIndex : Bool
  avlBalance : ℤ
  deriving DecidableEq, Repr, Inhabited

/-- `avl_child[d]`. -/
def AvlNode.avlChild (n : AvlNode) (d : Bool) : Addr := if d then n.avlChild1 else n.avlChild0

/-- Assignment to `avl_child[d]`. -/
def AvlNode.setAvlChild (n : AvlNode) (d : Bool) (p : Addr) : AvlNode :=
  if d then { n with avlChild1 := p } else { n with avlChild0 := p }

/-- An `avl_tree_t` together with the memory its nodes live in: `cells` holds the
`avl_node_t` of the object at an address and `data` the rest of the object. -/
structure AvlTree (α : Type) where
  avlRoot : Addr
  avlCompar : α → α → ℤ
  avlNumnodes : ℕ
  cells : Addr → Option AvlNode
  data : Addr → α

/-- `AVL_BEFORE`. -/
def avlBefore : Bool := false
/-- `AVL_AFTER`. -/
def avlAfter : Bool := true

/-- `avl_child2balance`. -/
def avlChild2balance (child : Bool) : ℤ := if child then 1 else -1

/-- `avl_balance2child`, which the code indexes by the balance plus one. -/
def avlBalance2child (balance : ℤ) : Bool := decide (balance = 1)

/-- `AVL_MKINDEX`: the child index goes into the low bit of the address. -/
def avlMkindex (n : Addr) (c : Bool) : ℕ := n ||| c.toNat
/-- `AVL_INDEX2NODE`. -/
def avlIndex2node (x : ℕ) : Addr := x - x % 2
/-- `AVL_INDEX2CHILD`. -/
def avlIndex2child (x : ℕ) : Bool := x % 2 == 1

namespace AvlTree

variable {α : Type}

/-- Store a cell. -/
def put (t : AvlTree α) (p : Addr) (c : AvlNode) : AvlTree α :=
  { t with cells := Function.update t.cells p (some c) }

/-- Release a cell. -/
def release (t : AvlTree α) (p : Addr) : AvlTree α :=
  { t with cells := Function.update t.cells p none }

/-- Change the cell at an address, which faults where there is none. -/
def modify (t : AvlTree α) (p : Addr) (f : AvlNode → AvlNode) : Option (AvlTree α) :=
  (t.cells p).map fun c => t.put p (f c)

/-- Read the object that contains a node. -/
def object (t : AvlTree α) (p : Addr) : Option α := (t.cells p).map fun _ => t.data p

/-- Store an object. -/
def setData (t : AvlTree α) (p : Addr) (x : α) : AvlTree α :=
  { t with data := Function.update t.data p x }

/-- Change the object that contains a node. -/
def modifyObject (t : AvlTree α) (p : Addr) (f : α → α) : Option (AvlTree α) :=
  (t.cells p).map fun _ => t.setData p (f (t.data p))

/-- Read `n->avl_child[d]`. -/
def avlChild (t : AvlTree α) (n : Addr) (d : Bool) : Option Addr :=
  (t.cells n).map fun c => c.avlChild d
/-- Write `n->avl_child[d]`. -/
def setAvlChild (t : AvlTree α) (n : Addr) (d : Bool) (p : Addr) : Option (AvlTree α) :=
  t.modify n fun c => c.setAvlChild d p
/-- `AVL_XPARENT`. -/
def avlXparent (t : AvlTree α) (n : Addr) : Option Addr := (t.cells n).map AvlNode.avlParent
/-- `AVL_SETPARENT`. -/
def avlSetparent (t : AvlTree α) (n p : Addr) : Option (AvlTree α) :=
  t.modify n fun c => { c with avlParent := p }
/-- `AVL_XCHILD`. -/
def avlXchild (t : AvlTree α) (n : Addr) : Option Bool := (t.cells n).map AvlNode.avlChildIndex
/-- `AVL_SETCHILD`. -/
def avlSetchild (t : AvlTree α) (n : Addr) (d : Bool) : Option (AvlTree α) :=
  t.modify n fun c => { c with avlChildIndex := d }
/-- `AVL_XBALANCE`. -/
def avlXbalance (t : AvlTree α) (n : Addr) : Option ℤ := (t.cells n).map AvlNode.avlBalance
/-- `AVL_SETBALANCE`. -/
def avlSetbalance (t : AvlTree α) (n : Addr) (b : ℤ) : Option (AvlTree α) :=
  t.modify n fun c => { c with avlBalance := b }

/-- `if (child != NULL) { AVL_SETPARENT(child, p); AVL_SETCHILD(child, d); }` -/
def relink (t : AvlTree α) (child p : Addr) (d : Bool) : Option (AvlTree α) :=
  if child ≠ 0 then do
    let t ← t.avlSetparent child p
    t.avlSetchild child d
  else pure t

/-- `if (parent != NULL) parent->avl_child[d] = n; else tree->avl_root = n;` -/
def setSlot (t : AvlTree α) (parent : Addr) (d : Bool) (n : Addr) : Option (AvlTree α) :=
  if parent ≠ 0 then t.setAvlChild parent d n else pure { t with avlRoot := n }

end AvlTree

open AvlTree

variable {α : Type}

/-- `while (node->avl_child[d] != NULL) node = node->avl_child[d];` -/
def avlDescend : ℕ → AvlTree α → Addr → Bool → Option Addr
  | 0, _, _, _ => none
  | fuel + 1, t, node, d => do
      let c ← t.avlChild node d
      if c ≠ 0 then avlDescend fuel t c d else pure node

/-- The climbing loop of `avl_walk`: up until the step came from side `right`. -/
def avlClimb : ℕ → AvlTree α → Addr → Bool → Option Addr
  | 0, _, _, _ => none
  | fuel + 1, t, node, right => do
      let wasChild ← t.avlXchild node
      let node ← t.avlXparent node
      if node = 0 then pure 0
      else if wasChild = right then pure node
      else avlClimb fuel t node right

/-- `avl_walk`: the neighbour of `oldnode` on side `left`, or `NULL`. -/
def avlWalk (fuel : ℕ) (t : AvlTree α) (oldnode : Addr) (left : Bool) : Option Addr := do
  let right := !left
  if oldnode = 0 then pure 0
  else do
    let c ← t.avlChild oldnode left
    if c ≠ 0 then avlDescend fuel t c right else avlClimb fuel t oldnode right

/-- The loop of `avl_first` and `avl_last`: `prev` trails `node` to the end of the
branch on side `d`. -/
def avlEnd : ℕ → AvlTree α → Bool → Addr → Addr → Option Addr
  | 0, _, _, _, _ => none
  | fuel + 1, t, d, node, prev =>
    if node ≠ 0 then do
      let next ← t.avlChild node d
      avlEnd fuel t d next node
    else pure prev

/-- `avl_first`. -/
def avlFirst (fuel : ℕ) (t : AvlTree α) : Option Addr := avlEnd fuel t false t.avlRoot 0

/-- `for (p = avl_first(t); p != NULL; p = AVL_NEXT(t, p)) body;`, from the node `p` on. -/
def avlForeach {β : Type} (body : β → α → Option β) :
    ℕ → ℕ → AvlTree α → Addr → β → Option β
  | 0, _, _, _, _ => none
  | n + 1, fuel, t, p, s =>
    if p = 0 then pure s
    else do
      let s ← body s (← t.object p)
      let next ← avlWalk fuel t p avlAfter
      avlForeach body n fuel t next s

/-- `avl_nearest`. -/
def avlNearest (fuel : ℕ) (t : AvlTree α) (index : ℕ) (direction : Bool) : Option Addr :=
  let child := avlIndex2child index
  let node := avlIndex2node index
  if node = 0 then pure 0
  else if child ≠ direction then pure node
  else avlWalk fuel t node direction

/-- The loop of `avl_find`. -/
def avlFindLoop : ℕ → AvlTree α → α → Addr → Addr → Bool → Option (Addr × ℕ)
  | 0, _, _, _, _, _ => none
  | fuel + 1, t, value, node, prev, child =>
    if node ≠ 0 then
      let diff := t.avlCompar value (t.data node)
      if diff = 0 then pure (node, 0)
      else do
        let child := avlBalance2child diff
        let next ← t.avlChild node child
        avlFindLoop fuel t value next node child
    else pure (0, avlMkindex prev child)

/-- `avl_find`: the node that compares equal to `value`, or `NULL` and the index at
which it would be inserted. -/
def avlFind (fuel : ℕ) (t : AvlTree α) (value : α) : Option (Addr × ℕ) :=
  avlFindLoop fuel t value t.avlRoot 0 false

/-- `avl_rotation`.  The flag says whether the subtree was reduced in height. -/
def avlRotation (t : AvlTree α) (node : Addr) (balance : ℤ) : Option (Bool × AvlTree α) := do
  let left := !decide (balance < 0)
  let right := !left
  let leftHeavy := balance >>> (1 : ℕ)
  let rightHeavy := -leftHeavy
  let parent ← t.avlXparent node
  let child ← t.avlChild node left
  let whichChild ← t.avlXchild node
  let childBal ← t.avlXbalance child
  if childBal ≠ rightHeavy then
    let childBal := childBal + rightHeavy
    -- move "cright" to be node's left child
    let cright ← t.avlChild child right
    let t ← t.setAvlChild node left cright
    let t ← t.relink cright node left
    -- move node to be child's right child
    let t ← t.setAvlChild child right node
    let t ← t.avlSetbalance node (-childBal)
    let t ← t.avlSetchild node right
    let t ← t.avlSetparent node child
    -- update the pointer into this subtree
    let t ← t.avlSetbalance child childBal
    let t ← t.avlSetchild child whichChild
    let t ← t.avlSetparent child parent
    let t ← t.setSlot parent whichChild child
    pure (decide (childBal = 0), t)
  else
    let gchild ← t.avlChild child right
    let gleft ← t.avlChild gchild left
    let gright ← t.avlChild gchild right
    let t ← t.setAvlChild node left gright
    let t ← t.relink gright node left
    let t ← t.setAvlChild child right gleft
    let t ← t.relink gleft child right
    let balance ← t.avlXbalance gchild
    -- child becomes the left child of gchild
    let t ← t.setAvlChild gchild left child
    let t ← t.avlSetbalance child (if balance = rightHeavy then leftHeavy else 0)
    let t ← t.avlSetparent child gchild
    let t ← t.avlSetchild child left
    -- node becomes the right child of gchild
    let t ← t.setAvlChild gchild right node
    let t ← t.avlSetbalance node (if balance = leftHeavy then rightHeavy else 0)
    let t ← t.avlSetparent node gchild
    let t ← t.avlSetchild node right
    let t ← t.avlSetbalance gchild 0
    let t ← t.avlSetparent gchild parent
    let t ← t.avlSetchild gchild whichChild
    let t ← t.setSlot parent whichChild gchild
    pure (true, t)

/-- The loop of `avl_insert`, which backs up the tree from the node above the
insertion point. -/
def avlInsertUp : ℕ → AvlTree α → Addr → Bool → Option (AvlTree α)
  | 0, _, _, _ => none
  | fuel + 1, t, node, whichChild =>
    if node = 0 then pure t
    else do
      let oldBalance ← t.avlXbalance node
      let newBalance := oldBalance + avlChild2balance whichChild
      if newBalance = 0 then t.avlSetbalance node 0
      else if oldBalance ≠ 0 then do
        let (_, t) ← avlRotation t node newBalance
        pure t
      else do
        let t ← t.avlSetbalance node newBalance
        let parent ← t.avlXparent node
        let whichChild ← t.avlXchild node
        avlInsertUp fuel t parent whichChild

/-- `avl_insert`. -/
def avlInsert (fuel : ℕ) (t : AvlTree α) (newData : Addr) (index : ℕ) : Option (AvlTree α) := do
  let parent := avlIndex2node index
  let whichChild := avlIndex2child index
  let t := { t with avlNumnodes := t.avlNumnodes + 1 }
  let t ← t.setAvlChild newData false 0
  let t ← t.setAvlChild newData true 0
  let t ← t.avlSetchild newData whichChild
  let t ← t.avlSetbalance newData 0
  let t ← t.avlSetparent newData parent
  let t ← t.setSlot parent whichChild newData
  avlInsertUp fuel t parent whichChild

/-- `avl_insert_here`. -/
def avlInsertHere (fuel : ℕ) (t : AvlTree α) (newData here : Addr) (direction : Bool) :
    Option (AvlTree α) := do
  let c ← t.avlChild here direction
  if c ≠ 0 then do
    let node ← avlDescend fuel t c (!direction)
    avlInsert fuel t newData (avlMkindex node (!direction))
  else avlInsert fuel t newData (avlMkindex here direction)

/-- `avl_add`, which panics when an equal node is present. -/
def avlAdd (fuel : ℕ) (t : AvlTree α) (newNode : Addr) : Option (AvlTree α) := do
  let (found, index) ← avlFind fuel t (t.data newNode)
  if found ≠ 0 then none else avlInsert fuel t newNode index

/-- `tmp = *node; *node = *delete;` and the links of `node` in its new place. -/
def avlSwapUp (tmp : Addr) (t : AvlTree α) (delete node : Addr) (left : Bool) :
    Option (AvlTree α) := do
  let t := t.put tmp (← t.cells node)
  let t := t.put node (← t.cells delete)
  let c ← t.avlChild node left
  let t ← (if c = node then t.setAvlChild node left tmp else pure t)
  let parent ← t.avlXparent node
  let t ← t.setSlot parent (← t.avlXchild node) node
  let t ← t.avlSetparent (← t.avlChild node left) node
  t.avlSetparent (← t.avlChild node (!left)) node

/-- Put `tmp` where the node it was copied from used to be. -/
def avlSwapDown (tmp : Addr) (t : AvlTree α) : Option (AvlTree α) := do
  let parent ← t.avlXparent tmp
  let t ← t.setAvlChild parent (← t.avlXchild tmp) tmp
  let c1 ← t.avlChild tmp true
  let c ← t.avlChild tmp (decide (c1 ≠ 0))
  if c ≠ 0 then t.avlSetparent c tmp else pure t

/-- The first part of `avl_remove`: a node with two children changes places with a
neighbour, through the stack variable at address `tmp`.  Returns the node that is
left to unlink. -/
def avlSwap (fuel : ℕ) (tmp : Addr) (t : AvlTree α) (delete : Addr) :
    Option (Addr × AvlTree α) := do
  let c0 ← t.avlChild delete false
  let c1 ← t.avlChild delete true
  if c0 ≠ 0 ∧ c1 ≠ 0 then
    -- choose node to swap from whichever side is taller
    let oldBalance ← t.avlXbalance delete
    let left := avlBalance2child oldBalance
    let c ← t.avlChild delete left
    let node ← avlDescend fuel t c (!left)
    let t ← avlSwapUp tmp t delete node left
    let t ← avlSwapDown tmp t
    pure (tmp, t)
  else pure (delete, t)

/-- The loop of `avl_remove`: the subtree on side `whichChild` of `node` became
shorter. -/
def avlRemoveUp : ℕ → AvlTree α → Addr → Bool → Option (AvlTree α)
  | 0, _, _, _ => none
  | fuel + 1, t, node, whichChild => do
      let oldBalance ← t.avlXbalance node
      let newBalance := oldBalance - avlChild2balance whichChild
      -- captured before any rotation occurs
      let parent ← t.avlXparent node
      let whichChild ← t.avlXchild node
      if oldBalance = 0 then t.avlSetbalance node newBalance
      else if newBalance = 0 then do
        let t ← t.avlSetbalance node newBalance
        if parent ≠ 0 then avlRemoveUp fuel t parent whichChild else pure t
      else do
        let (reduced, t) ← avlRotation t node newBalance
        if reduced = false then pure t
        else if parent ≠ 0 then avlRemoveUp fuel t parent whichChild
        else pure t

/-- The second part of `avl_remove`: take out a node with at most one child. -/
def avlUnlink (fuel : ℕ) (t : AvlTree α) (delete : Addr) : Option (AvlTree α) := do
  let t := { t with avlNumnodes := t.avlNumnodes - 1 }
  let parent ← t.avlXparent delete
  let whichChild ← t.avlXchild delete
  let c0 ← t.avlChild delete false
  let node ← (if c0 ≠ 0 then pure c0 else t.avlChild delete true)
  -- connect parent directly to node
  let t ← t.relink node parent whichChild
  let t ← t.setSlot parent whichChild node
  if parent = 0 then pure t else avlRemoveUp fuel t parent whichChild

/-- `avl_remove`.  `tmp` is the address of its stack variable, which is gone when
the call returns. -/
def avlRemove (fuel : ℕ) (tmp : Addr) (t : AvlTree α) (data : Addr) : Option (AvlTree α) := do
  let (delete, t) ← avlSwap fuel tmp t data
  let t ← avlUnlink fuel t delete
  pure (t.release tmp)

/-- `avl_create`, in a memory that is already there. -/
def avlCreate (compar : α → α → ℤ) (cells : Addr → Option AvlNode) (data : Addr → α) : AvlTree α :=
  { avlRoot := 0, avlCompar := compar, avlNumnodes := 0, cells := cells, data := data }

/-- `CHILDBIT`. -/
def childbit : ℕ := 1

/-- The end of `avl_destroy_nodes`: pack the cookie for the next call. -/
def avlDestroyDone (t : AvlTree α) (node parent : Addr) : Option (Addr × ℕ × AvlTree α) :=
  if parent = 0 then pure (node, childbit, t)
  else do
    let c ← t.avlXchild node
    pure (node, parent ||| c.toNat, t)

/-- The part of `avl_destroy_nodes` at `check_right_side`. -/
def avlCheckRight (t : AvlTree α) (node parent : Addr) : Option (Addr × ℕ × AvlTree α) := do
  let c ← t.avlChild node true
  if c ≠ 0 then avlDestroyDone t c node else avlDestroyDone t node parent

/-- `while (node->avl_child[0] != NULL) { parent = node; node = node->avl_child[0]; }` -/
def avlDescendWith : ℕ → AvlTree α → Addr → Addr → Option (Addr × Addr)
  | 0, _, _, _ => none
  | fuel + 1, t, node, parent => do
      let c ← t.avlChild node false
      if c ≠ 0 then avlDescendWith fuel t c node else pure (node, parent)

/-- `avl_destroy_nodes`: the next node of the post-order walk (or `NULL`), and the
new cookie. -/
def avlDestroyNodes (fuel : ℕ) (t : AvlTree α) (cookie : ℕ) : Option (Addr × ℕ × AvlTree α) :=
  -- initial calls go to the first node or its right descendant
  if cookie = 0 then do
    let first ← avlFirst fuel t
    if first = 0 then pure (0, childbit, t)
    else do
      let parent ← t.avlXparent first
      avlCheckRight t first parent
  else
    let parent := cookie - cookie % 2
    -- if there is no parent to return to we are done
    if parent = 0 then
      if t.avlRoot ≠ 0 then pure (0, cookie, { t with avlRoot := 0, avlNumnodes := 0 })
      else pure (0, cookie, t)
    else do
      -- remove the child pointer we just visited from the parent and tree
      let child := cookie % 2 == 1
      let t ← t.setAvlChild parent child 0
      let t := { t with avlNumnodes := t.avlNumnodes - 1 }
      let c ← t.avlChild parent true
      if child = true ∨ c = 0 then do
        let up ← t.avlXparent parent
        avlDestroyDone t parent up
      else do
        -- do parent's right child, then leftmost descendent
        let (node, parent) ← avlDescendWith fuel t c parent
        avlCheckRight t node parent

/-- `while ((node = avl_destroy_nodes(tree, &cookie)) != NULL) { body; free(node); }`,
where `body` sees the object before it is freed.  Returns what `body` computed and
the tree. -/
def avlDestroyLoop {β : Type} (body : β → Addr → α → Option β) :
    ℕ → ℕ → AvlTree α → ℕ → β → Option (β × AvlTree α)
  | 0, _, _, _, _ => none
  | n + 1, fuel, t, cookie, s => do
      let (node, cookie, t) ← avlDestroyNodes fuel t cookie
      if node = 0 then pure (s, t)
      else do
        let s ← body s node (t.data node)
        avlDestroyLoop body n fuel (t.release node) cookie s

end Polaris
