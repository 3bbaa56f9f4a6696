import Alib.Allocation
import Alib.KeyedMap

/-!
# The binary tree

`bintree.c`: an unbalanced search tree whose greater keys are on the left.
Nodes live in a memory and a released node is gone from it.  What the
destructors are called with, and which nodes were obtained and released, is
written down in a ledger.  The recursive functions carry fuel for the depth of
their calls; running out of it is a recursion that never ends.
-/

namespace Alib
namespace Bintree

open KeyedMap

/-- The functions a tree is initialised with; of the destructors only their
presence matters. -/
structure Callbacks where
  keyCmp : Ptr → Ptr → ℤ
  keyFree : Bool
  valFree : Bool

structure ABintreeNode where
  left : Option Addr
  right : Option Addr
  key : Ptr
  val : Ptr

structure ABintree extends Callbacks where
  root : Option Addr

/-- What `key_free` and `val_free` were called with, in order, and the nodes
obtained from the allocator and given back to it. -/
structure Ledger where
  keyFreed : List Ptr
  valFreed : List Ptr
  allocated : List Addr
  released : List Addr

structure BintreeState where
  tree : ABintree
  nodes : Addr → Option ABintreeNode
  ledger : Ledger
  world : World

def aBintreeInit (calls : Callbacks) : ABintree where
  toCallbacks := calls
  root := none

def nodeInit (key val : Ptr) : ABintreeNode where
  key := key
  val := val
  left := none
  right := none

def sizeofNode : ℕ := 32

def nodeAlloc (E : Env) (key val : Ptr) (st : BintreeState) :
    Except Fault (Option Addr × BintreeState) := do
  let (node, world) ← aMalloc E sizeofNode st.world
  match node with
  | none => return (none, { st with world := world })
  | some a =>
      return (some a, { st with
        nodes := store st.nodes a (nodeInit key val)
        ledger := { st.ledger with allocated := st.ledger.allocated ++ [a] }
        world := world })

/-- The calls of `key_free` and `val_free`, if there are any, and the release
of the node. -/
def Ledger.nodeFree (calls : Callbacks) (a : Addr) (key val : Ptr)
    (ledger : Ledger) : Ledger where
  keyFreed := ledger.keyFreed ++ if calls.keyFree then [key] else []
  valFreed := ledger.valFreed ++ if calls.valFree then [val] else []
  allocated := ledger.allocated
  released := ledger.released ++ [a]

def nodeFree (node : Addr) (st : BintreeState) :
    Except Fault BintreeState := do
  let n ← load st.nodes (some node)
  return { st with
    nodes := Function.update st.nodes node none
    ledger := st.ledger.nodeFree st.tree.toCallbacks node n.key n.val }

/-- The exchange of keys and values of `root` and `node`. -/
def exchange (root node : Addr) (st : BintreeState) :
    Except Fault BintreeState := do
  let r ← load st.nodes (some root)
  let n ← load st.nodes (some node)
  let nodes := store st.nodes root { r with key := n.key, val := n.val }
  return { st with
    nodes := store nodes node { n with key := r.key, val := r.val } }

def nodePut (node : Addr) :
    ℕ → Addr → BintreeState → Except Fault BintreeState
  | 0, _, _ => .error .divergence
  | fuel + 1, root, st => do
      let r ← load st.nodes (some root)
      let n ← load st.nodes (some node)
      if st.tree.keyCmp r.key n.key < 0 then
        match r.left with
        | some left => nodePut node fuel left st
        | none => return { st with
            nodes := store st.nodes root { r with left := some node } }
      else if 0 < st.tree.keyCmp r.key n.key then
        match r.right with
        | some right => nodePut node fuel right st
        | none => return { st with
            nodes := store st.nodes root { r with right := some node } }
      else do
        let st ← exchange root node st
        nodeFree node st

/-- Enough calls to get to the end of any tree. -/
def BintreeState.fuel (st : BintreeState) : ℕ := st.world.requests + 1

def aBintreePut (E : Env) (key val : Ptr) (st : BintreeState) :
    Except Fault (ErrorCode × BintreeState) := do
  let (node, st) ← nodeAlloc E key val st
  match node with
  | none => do
      let world ← aErrorCode E .alib aErrorOther st.world
      return (aErrorOther, { st with world := world })
  | some node => do
      match st.tree.root with
      | some root => do
          let st ← nodePut node st.fuel root st
          return (aErrorSuccess, st)
      | none =>
          return (aErrorSuccess,
            { st with tree := { st.tree with root := some node } })

def nodeGet (keyCmp : Ptr → Ptr → ℤ) (nodes : Addr → Option ABintreeNode)
    (key : Ptr) : ℕ → Option Addr → Except Fault Ptr
  | 0, _ => .error .divergence
  | _ + 1, none => .ok 0
  | fuel + 1, some root => do
      let r ← load nodes (some root)
      if keyCmp r.key key < 0 then nodeGet keyCmp nodes key fuel r.left
      else if 0 < keyCmp r.key key then
        nodeGet keyCmp nodes key fuel r.right
      else return r.val

def aBintreeGet (key : Ptr) (st : BintreeState) : Except Fault Ptr :=
  nodeGet st.tree.keyCmp st.nodes key st.fuel st.tree.root

/-- Where a pointer to a node is stored. -/
inductive NodeLocation where
  | root
  | leftOf (a : Addr)
  | rightOf (a : Addr)

/-- `*root_ptr` -/
def readLocation (rootPtr : NodeLocation) (st : BintreeState) :
    Except Fault (Option Addr) :=
  match rootPtr with
  | .root => .ok st.tree.root
  | .leftOf a => do
      let node ← load st.nodes (some a)
      return node.left
  | .rightOf a => do
      let node ← load st.nodes (some a)
      return node.right

/-- `*root_ptr = p` -/
def writeLocation (rootPtr : NodeLocation) (p : Option Addr)
    (st : BintreeState) : Except Fault BintreeState :=
  match rootPtr with
  | .root => .ok { st with tree := { st.tree with root := p } }
  | .leftOf a => do
      let node ← load st.nodes (some a)
      return { st with nodes := store st.nodes a { node with left := p } }
  | .rightOf a => do
      let node ← load st.nodes (some a)
      return { st with nodes := store st.nodes a { node with right := p } }

/-- `if(root->right) node_put(tree, root->left, root->right);` -/
def hangRight (left : Addr) (right : Option Addr) (st : BintreeState) :
    Except Fault BintreeState :=
  match right with
  | some right => nodePut right st.fuel left st
  | none => .ok st

/-- The part of `node_remove` which takes `root` out of the tree. -/
def detach (rootPtr : NodeLocation) (root : Addr) (st : BintreeState) :
    Except Fault BintreeState := do
  let r ← load st.nodes (some root)
  match r.left with
  | some left => do
      let st ← hangRight left r.right st
      let r ← load st.nodes (some root)
      writeLocation rootPtr r.left st
  | none => writeLocation rootPtr r.right st

/-- The part of `node_remove` after the key was found at `root`. -/
def removeFound (rootPtr : NodeLocation) (root : Addr) (st : BintreeState) :
    Except Fault (Ptr × BintreeState) := do
  let r ← load st.nodes (some root)
  let val := r.val
  let st ← detach rootPtr root
    { st with nodes := store st.nodes root { r with val := 0 } }
  let r ← load st.nodes (some root)
  let st ← nodeFree root
    { st with nodes := store st.nodes root { r with left := none, right := none } }
  return (val, st)

def nodeRemove (key : Ptr) :
    ℕ → NodeLocation → BintreeState → Except Fault (Ptr × BintreeState)
  | 0, _, _ => .error .divergence
  | fuel + 1, rootPtr, st => do
      let root ← readLocation rootPtr st
      match root with
      | none => return (0, st)
      | some root => do
          let r ← load st.nodes (some root)
          if st.tree.keyCmp r.key key < 0 then
            nodeRemove key fuel (.leftOf root) st
          else if 0 < st.tree.keyCmp r.key key then
            nodeRemove key fuel (.rightOf root) st
          else removeFound rootPtr root st

def aBintreeRemove (key : Ptr) (st : BintreeState) :
    Except Fault (Ptr × BintreeState) :=
  nodeRemove key st.fuel .root st

/-- `if(val && tree->val_free) tree->val_free(val);` -/
def freeRemoved (val : Ptr) (st : BintreeState) : BintreeState :=
  if val ≠ 0 ∧ st.tree.valFree = true then
    { st with ledger :=
      { st.ledger with valFreed := st.ledger.valFreed ++ [val] } }
  else st

def aBintreeDelete (key : Ptr) (st : BintreeState) :
    Except Fault BintreeState := do
  let (val, st) ← nodeRemove key st.fuel .root st
  return freeRemoved val st

def nodeAxe : ℕ → Option Addr → BintreeState → Except Fault BintreeState
  | 0, _, _ => .error .divergence
  | _ + 1, none, st => .ok st
  | fuel + 1, some root, st => do
      let r ← load st.nodes (some root)
      let st ← nodeAxe fuel r.right st
      let r ← load st.nodes (some root)
      let st ← nodeAxe fuel r.left st
      nodeFree root st

def aBintreeAxe (st : BintreeState) : Except Fault BintreeState := do
  let st ← nodeAxe st.fuel st.tree.root st
  return { st with tree := { st.tree with root := none } }

/-- The calls; `clear` is `a_bintree_axe`. -/
abbrev BintreeOp := MapOp Ptr Ptr

abbrev BintreeOut := MapOut ErrorCode Ptr

def bintreeStep (E : Env) (st : BintreeState) :
    BintreeOp → Except Fault (BintreeOut × BintreeState)
  | .put key val => do
      let (code, st) ← aBintreePut E key val st
      return (.code code, st)
  | .get key => do
      let val ← aBintreeGet key st
      return (.value val, st)
  | .remove key => do
      let (val, st) ← aBintreeRemove key st
      return (.value val, st)
  | .delete key => do
      let st ← aBintreeDelete key st
      return (.unit, st)
  | .clear => do
      let st ← aBintreeAxe st
      return (.unit, st)

end Bintree
end Alib
