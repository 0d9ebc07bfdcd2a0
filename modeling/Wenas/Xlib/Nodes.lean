import Wenas.Lib.Loop
import Wenas.Lib.Trees

/-!
# The nodes of `avlmini.c`

The functions of `avlmini.c` on the memory of the nodes, with the three pointers of each. A pointer to a node stands for
the pointer to its data too. A function that goes through a null pointer has no result.
-/
namespace Wenas.Xlib

open Wenas.Trees Wenas.Loop

/-- `struct avl_node`; the data is `height`. -/
abbrev AvlNode (α : Type) := Cell α Nat

/-- `struct avl_root`, with the memory of all nodes. -/
structure AvlRoot (α : Type) where
  nodes : α → AvlNode α
  node : Option α

variable {α : Type} [DecidableEq α]

namespace AvlRoot

def set (r : AvlRoot α) (x : α) (n : AvlNode α) : AvlRoot α := { r with nodes := Function.update r.nodes x n }

def setChild (r : AvlRoot α) (x : α) (s : Side) (p : Option α) : AvlRoot α := r.set x ((r.nodes x).setChild s p)

def setParent (r : AvlRoot α) (x : α) (p : Option α) : AvlRoot α := r.set x { r.nodes x with parent := p }

def setHeight (r : AvlRoot α) (x : α) (h : Nat) : AvlRoot α := r.set x { r.nodes x with data := h }

/-- `if (node) node->parent = p`. -/
def setParentOf (r : AvlRoot α) (x p : Option α) : AvlRoot α :=
  match x with
  | some x => r.setParent x p
  | none => r

/-- `AVL_LEFT_HEIGHT` and `AVL_RIGHT_HEIGHT`. -/
def childHeight (r : AvlRoot α) (x : α) (s : Side) : Nat :=
  match (r.nodes x).child s with
  | some y => (r.nodes y).data
  | none => 0

end AvlRoot

/-- `_avl_child_replace`. -/
def avlChildReplace (oldnode newnode parent : Option α) (r : AvlRoot α) : AvlRoot α :=
  match parent with
  | some p => r.setChild p (if (r.nodes p).left = oldnode then .left else .right) newnode
  | none => { r with node := newnode }

/-- `_avl_node_rotate_left` and `_avl_node_rotate_right`: `node` goes down to the side `s`. -/
def avlNodeRotate (s : Side) (node : α) (r : AvlRoot α) : Option (α × AvlRoot α) :=
  match (r.nodes node).child s.other with
  | none => none
  | some right =>
    let parent := (r.nodes node).parent
    let r := r.setChild node s.other ((r.nodes right).child s)
    let r := r.setParentOf ((r.nodes right).child s) (some node)
    let r := r.setChild right s (some node)
    let r := r.setParent right parent
    let r := avlChildReplace (some node) (some right) parent r
    some (right, r.setParent node (some right))

def avlNodeRotateLeft (node : α) (r : AvlRoot α) : Option (α × AvlRoot α) := avlNodeRotate .left node r

def avlNodeRotateRight (node : α) (r : AvlRoot α) : Option (α × AvlRoot α) := avlNodeRotate .right node r

def avlNodeReplace (victim newnode : α) (r : AvlRoot α) : AvlRoot α :=
  let r := avlChildReplace (some victim) (some newnode) (r.nodes victim).parent r
  let r := r.setParentOf (r.nodes victim).left (some newnode)
  let r := r.setParentOf (r.nodes victim).right (some newnode)
  r.set newnode (r.nodes victim)

/-- `_avl_node_height_update`. -/
def avlNodeHeightUpdate (node : α) (r : AvlRoot α) : AvlRoot α :=
  r.setHeight node (max (r.childHeight node .left) (r.childHeight node .right) + 1)

/-- `_avl_node_fix_l` and `_avl_node_fix_r`, where the tree away from `s` is too high. -/
def avlNodeFix (s : Side) (node : α) (r : AvlRoot α) : Option (α × AvlRoot α) := do
  let right ← (r.nodes node).child s.other
  let r ← if r.childHeight right s.other < r.childHeight right s then do
      let (right, r) ← avlNodeRotate s.other right r
      let lower ← (r.nodes right).child s.other
      pure (avlNodeHeightUpdate right (avlNodeHeightUpdate lower r))
    else pure r
  let (node, r) ← avlNodeRotate s node r
  let lower ← (r.nodes node).child s
  pure (node, avlNodeHeightUpdate node (avlNodeHeightUpdate lower r))

def avlNodeFixL (node : α) (r : AvlRoot α) : Option (α × AvlRoot α) := avlNodeFix .left node r

def avlNodeFixR (node : α) (r : AvlRoot α) : Option (α × AvlRoot α) := avlNodeFix .right node r

/-- The end of a turn of the loops over the ancestors. -/
def avlNodeFixed (diff : Int) (node : α) (r : AvlRoot α) : Turn (Option α × AvlRoot α) :=
  match if diff ≤ -2 then avlNodeFixL node r else if 2 ≤ diff then avlNodeFixR node r else some (node, r) with
  | some (node, r) => .go ((r.nodes node).parent, r)
  | none => .fail

/-- The loop of `_avl_node_rebalance`. -/
def avlNodeRebalanceTurn : Option α × AvlRoot α → Turn (Option α × AvlRoot α)
  | (none, _) => .stop
  | (some node, r) =>
    let diff : Int := r.childHeight node .left - r.childHeight node .right
    let height := max (r.childHeight node .left) (r.childHeight node .right) + 1
    if (r.nodes node).data ≠ height then avlNodeFixed diff node (r.setHeight node height)
    else if -1 ≤ diff ∧ diff ≤ 1 then .stop
    else avlNodeFixed diff node r

/-- The loop of `avl_node_post_insert`. -/
def avlNodePostInsertTurn : Option α × AvlRoot α → Turn (Option α × AvlRoot α)
  | (none, _) => .stop
  | (some node, r) =>
    let height := max (r.childHeight node .left) (r.childHeight node .right) + 1
    let diff : Int := r.childHeight node .left - r.childHeight node .right
    if (r.nodes node).data = height then .stop
    else avlNodeFixed diff node (r.setHeight node height)

/-- `_avl_node_rebalance`; each loop here and below makes at most `n` turns. -/
def avlNodeRebalance (n : Nat) (node : Option α) (r : AvlRoot α) : Option (AvlRoot α) :=
  (loop avlNodeRebalanceTurn n (node, r)).map Prod.snd

def avlNodePostInsert (n : Nat) (node : α) (r : AvlRoot α) : Option (AvlRoot α) :=
  let r := r.setHeight node 1
  (loop avlNodePostInsertTurn n ((r.nodes node).parent, r)).map Prod.snd

/-- `while (node->left) node = node->left`, or to the right. -/
def avlNodeSinkTurn (s : Side) (r : AvlRoot α) (node : α) : Turn α :=
  match (r.nodes node).child s with
  | some x => .go x
  | none => .stop

/-- In `avl_node_erase`, the first node of the right tree takes the place of `old`. -/
def avlNodeSucceed (old node : α) (r : AvlRoot α) : Option (Option α × AvlRoot α) := do
  let child := (r.nodes node).right
  let parent := (r.nodes node).parent
  let r := r.setParentOf child parent
  let r := avlChildReplace (some node) child parent r
  let parent := if (r.nodes node).parent = some old then some node else parent
  let r := r.set node (r.nodes old)
  let r := avlChildReplace (some old) (some node) (r.nodes old).parent r
  let left ← (r.nodes old).left
  let r := r.setParent left (some node)
  pure (parent, r.setParentOf (r.nodes old).right (some node))

/-- The part of `avl_node_erase` before the loop: the node where the loop begins, and the tree without `node`. -/
def avlNodeTakeOut (n : Nat) (node : α) (r : AvlRoot α) : Option (Option α × AvlRoot α) :=
  match (r.nodes node).left, (r.nodes node).right with
  | some _, some right => do
    let left ← loop (avlNodeSinkTurn .left r) n right
    avlNodeSucceed node left r
  | left, right =>
    let child := if left = none then right else left
    let parent := (r.nodes node).parent
    let r := avlChildReplace (some node) child parent r
    some (parent, r.setParentOf child parent)

def avlNodeErase (n : Nat) (node : α) (r : AvlRoot α) : Option (AvlRoot α) := do
  let (parent, r) ← avlNodeTakeOut n node r
  if parent = none then pure r else avlNodeRebalance n parent r

/-! ### From one node to another -/

/-- `avl_node_first` and `avl_node_last`. -/
def avlNodeEnd (s : Side) (n : Nat) (r : AvlRoot α) : Option (Option α) :=
  match r.node with
  | none => some none
  | some node => (loop (avlNodeSinkTurn s r) n node).map some

def avlNodeFirst (n : Nat) (r : AvlRoot α) : Option (Option α) := avlNodeEnd .left n r

def avlNodeLast (n : Nat) (r : AvlRoot α) : Option (Option α) := avlNodeEnd .right n r

/-- `last = node; node = node->parent`, until `node` is null or has `last` on the side `s`. -/
def avlNodeRiseTurn (s : Side) (r : AvlRoot α) : α × Option α → Turn (α × Option α)
  | (_, none) => .stop
  | (last, some node) =>
    if (r.nodes node).child s = some last then .stop else .go (node, (r.nodes node).parent)

/-- `avl_node_next` and `avl_node_prev`, towards the side `s`. -/
def avlNodeStep (s : Side) (n : Nat) (node : Option α) (r : AvlRoot α) : Option (Option α) :=
  match node with
  | none => some none
  | some node =>
    match (r.nodes node).child s with
    | some x => (loop (avlNodeSinkTurn s.other r) n x).map some
    | none => (loop (avlNodeRiseTurn s.other r) n (node, (r.nodes node).parent)).map Prod.snd

def avlNodeNext (n : Nat) (node : Option α) (r : AvlRoot α) : Option (Option α) := avlNodeStep .right n node r

def avlNodePrev (n : Nat) (node : Option α) (r : AvlRoot α) : Option (Option α) := avlNodeStep .left n node r

/-- `sink down to the leaf`. -/
def avlNodeLeafTurn (r : AvlRoot α) (node : α) : Turn α :=
  match (r.nodes node).left, (r.nodes node).right with
  | some x, _ => .go x
  | none, some x => .go x
  | none, none => .stop

/-- `avl_node_tear`: the node and `*next`. -/
def avlNodeTear (n : Nat) (next : Option α) (r : AvlRoot α) : Option (Option α × Option α × AvlRoot α) :=
  match next.or r.node with
  | none => some (none, next, r)
  | some node => do
    let node ← loop (avlNodeLeafTurn r) n node
    match (r.nodes node).parent with
    | none => pure (some node, none, { r with node := none })
    | some parent =>
      let r := r.setChild parent (if (r.nodes parent).left = some node then .left else .right) none
      pure (some node, some parent, r.setHeight node 0)

/-! ### The interface -/

/-- `struct avl_tree`; `offset` is zero. -/
structure AvlTree (α : Type) where
  root : AvlRoot α
  count : Nat
  compare : α → α → Int
  findCompare : α → α → Int

def avlTreeInit (compare findCompare : α → α → Int) (nodes : α → AvlNode α) : AvlTree α :=
  ⟨⟨nodes, none⟩, 0, compare, findCompare⟩

/-- `n = n->left` or `n = n->right`. -/
def AvlRoot.towards (r : AvlRoot α) (n : α) (hr : Int) : Option α :=
  (r.nodes n).child (if hr < 0 then .left else .right)

def avlTreeFindTurn (data : α) (tree : AvlTree α) : Option α → Turn (Option α)
  | none => .stop
  | some nd =>
    let hr := tree.findCompare data nd
    if hr = 0 then .stop else .go (tree.root.towards nd hr)

def avlTreeFind (n : Nat) (data : α) (tree : AvlTree α) : Option (Option α) :=
  loop (avlTreeFindTurn data tree) n tree.root.node

/-- The loop of `avl_tree_nearest`, over `n` and `p`. -/
def avlTreeNearestTurn (data : α) (tree : AvlTree α) : Option α × Option α → Turn (Option α × Option α)
  | (none, _) => .stop
  | (some nd, _) =>
    let hr := tree.compare data nd
    if hr = 0 then .stop else .go (tree.root.towards nd hr, some nd)

def avlTreeNearest (n : Nat) (data : α) (tree : AvlTree α) : Option (Option α) :=
  (loop (avlTreeNearestTurn data tree) n (tree.root.node, none)).map fun (n, p) => n.or p

/-- What `link` of `avl_tree_add` points to: the pointer of the root, or one of a node. -/
abbrev Link (α : Type) := Option (α × Side)

def AvlRoot.link (r : AvlRoot α) : Link α → Option α
  | none => r.node
  | some (x, s) => (r.nodes x).child s

def AvlRoot.setLink (r : AvlRoot α) (link : Link α) (p : Option α) : AvlRoot α :=
  match link with
  | none => { r with node := p }
  | some (x, s) => r.setChild x s p

/-- The loop of `avl_tree_add`, over `link` and `parent`. -/
def avlTreeAddTurn (data : α) (tree : AvlTree α) : Link α × Option α → Turn (Link α × Option α)
  | (link, _) =>
    match tree.root.link link with
    | none => .stop
    | some parent =>
      let hr := tree.compare data parent
      if hr = 0 then .stop else .go (some (parent, if hr < 0 then .left else .right), some parent)

/-- `avl_tree_add`: the node with the same key, and the tree. -/
def avlTreeAdd (n : Nat) (data : α) (tree : AvlTree α) : Option (Option α × AvlTree α) := do
  let (link, parent) ← loop (avlTreeAddTurn data tree) n (none, none)
  match tree.root.link link with
  | some pd => pure (some pd, tree)
  | none =>
    let r := tree.root.set data ⟨none, none, parent, 0⟩
    let r ← avlNodePostInsert n data (r.setLink link (some data))
    pure (none, { tree with root := r, count := tree.count + 1 })

def avlTreeRemove (n : Nat) (data : α) (tree : AvlTree α) : Option (AvlTree α) :=
  if (tree.root.nodes data).parent = some data then some tree
  else do
    let r ← avlNodeErase n data tree.root
    pure { tree with root := r.setParent data (some data), count := tree.count - 1 }

def avlTreeReplace (victim newdata : α) (tree : AvlTree α) : AvlTree α :=
  let r := avlNodeReplace victim newdata tree.root
  { tree with root := r.setParent victim (some victim) }

/-- The loop of `avl_tree_clear`, with the nodes that `destroy` has got. -/
def avlTreeClearTurn (n : Nat) :
    Option α × List α × AvlTree α → Turn (Option α × List α × AvlTree α)
  | (next, destroyed, tree) =>
    match avlNodeTear n next tree.root with
    | none => .fail
    | some (none, _) => .stop
    | some (some node, next, r) =>
      .go (next, destroyed ++ [node], { tree with root := r.setParent node (some node), count := tree.count - 1 })

def avlTreeClear (n : Nat) (tree : AvlTree α) : Option (List α × AvlTree α) :=
  (loop (avlTreeClearTurn n) n (none, [], tree)).map Prod.snd

end Wenas.Xlib
