import Mathlib.Logic.Function.Basic
import WgReceivePath.AllowedIps.Bits

/-!
# The allowed-IPs trie

The pointer structure of `allowedips.c`, as the source manipulates it: nodes in memory with
two child pointers and a packed pointer back to the place they hang from, two roots, and for
each peer the list of its nodes.

## Main definitions

* `Node` and `Table`, the source's two structures, with the memory that the pointers lead
  into.
* `findNode`, `nodePlacement`, `add`, `removeNode`, `remove`, `removeEntries`, `freeRoot`:
  the functions of the source, statement by statement.
* `Op` and `Table.run`, the calls of the header that change a table.

## How the code is embedded

A dereference of a null or freed pointer, a read past the end of a key, an overflow of the
traversal stack and a loop that does not end are all `none`; an error that the source
reports is a `Code`.  So "the call returns `some`" says that it is free of memory faults and
that it terminates, and that is part of every theorem about it.

The nodes of a table never share an address: `kmem_cache_zalloc` is a bump allocator that
may fail, so a pointer that was freed stays dangling.  The grace period before a free is not
modelled: `call_rcu` runs its callback at once.  Callers hold `device_update_lock`, so the
calls do not interleave.
-/

namespace WgReceivePath
namespace AllowedIps

/-- The address of a node. -/
abbrev Ptr := ℕ

/-- A pointer in memory that holds a node: a root or a child pointer of a node.  The source
passes such a place as a `struct allowedips_node __rcu **`. -/
inductive Slot
  | root (f : Family)
  | bit (n : Ptr) (b : Bool)
  deriving DecidableEq, Repr

/-- `struct allowedips_node`.  `parentBitPacked` is the slot that `parent_bit_packed` encodes;
its two low bits are those of the slot, 2 for a root. -/
structure Node (P : Type) where
  peer : Option P
  bit : Bool → Option Ptr
  cidr : ℕ
  bitAtA : ℕ
  bitAtB : ℕ
  bitlen : Family
  bits : Bytes
  parentBitPacked : Option Slot

/-- `struct allowedips` with the memory of its nodes and the `allowedips_list` of every peer. -/
structure Table (P : Type) where
  nodes : Ptr → Option (Node P)
  next : Ptr
  root : Family → Option Ptr
  seq : BitVec 64
  allowedipsList : P → List Ptr

/-- The return values of the operations. -/
inductive Code
  | ok
  | einval
  | enomem
  deriving DecidableEq, Repr

/-- `MAX_ALLOWEDIPS_DEPTH`. -/
def MAX_ALLOWEDIPS_DEPTH : ℕ := 129

variable {P : Type}

/-! ## Nodes -/

/-- A zeroed node after `copy_and_assign_cidr` and the store of its peer.  It has no
children and hangs nowhere yet. -/
def Node.new (f : Family) (src : Bytes) (cidr : ℕ) (peer : Option P) : Node P where
  peer := peer
  bit := fun _ => none
  cidr := cidr
  bitAtA := AllowedIps.bitAtA f cidr
  bitAtB := AllowedIps.bitAtB cidr
  bitlen := f
  bits := src.take f.bytes ++ List.replicate (16 - f.bytes) 0
  parentBitPacked := none

/-- `choose`. -/
def Node.choose (node : Node P) (key : Bytes) : Option Bool :=
  chooseAt node.bitAtA node.bitAtB key

/-- `prefix_matches`. -/
def Node.prefixMatches (node : Node P) (f : Family) (key : Bytes) : Bool :=
  decide (node.cidr ≤ commonBits f node.bits key)

namespace Table

/-! ## Memory and lists

The memory of a table is partial, and every access may fail.  A list of a peer is a plain
list of addresses; an operation on it that needs the links of its neighbours cannot fail
here, since the lists are sound by the invariant. -/

/-- A store to the node at `n`. -/
def modify (t : Table P) (n : Ptr) (change : Node P → Node P) : Option (Table P) :=
  (t.nodes n).map fun node =>
    { t with nodes := Function.update t.nodes n (some (change node)) }

/-- A store to a slot. -/
def assign (t : Table P) (slot : Slot) (value : Option Ptr) : Option (Table P) :=
  match slot with
  | .root f => some { t with root := Function.update t.root f value }
  | .bit n b => t.modify n fun node => { node with bit := Function.update node.bit b value }

/-- `kmem_cache_zalloc`, when it succeeds; the new node is at `t.next`. -/
def alloc (t : Table P) (node : Node P) : Table P :=
  { t with nodes := Function.update t.nodes t.next (some node), next := t.next + 1 }

/-- `kmem_cache_free`; a second free of a node is a fault. -/
def free (t : Table P) (n : Ptr) : Option (Table P) :=
  (t.nodes n).map fun _ => { t with nodes := Function.update t.nodes n none }

/-- `list_del` and `list_del_init` of the node's `peer_list`. -/
def listDel (t : Table P) (n : Ptr) : Table P :=
  { t with allowedipsList := fun p => (t.allowedipsList p).erase n }

/-- `list_add_tail` to the peer's `allowedips_list`. -/
def listAddTail [DecidableEq P] (t : Table P) (n : Ptr) (p : P) : Table P :=
  { t with
    allowedipsList := Function.update t.allowedipsList p (t.allowedipsList p ++ [n]) }

/-! ## Searching

The loops run on fuel.  They are given more than the longest path, and running out of it is
a fault, so that a proof of termination is part of every proof about them. -/

/-- The loop of `find_node`: it walks down as long as the node matches, and remembers the
last node with a peer. -/
def findNode (t : Table P) (f : Family) (key : Bytes) :
    ℕ → Option Ptr → Option Ptr → Option (Option Ptr)
  | 0, _, _ => none
  | _ + 1, none, found => some found
  | fuel + 1, some n, found => do
      let node ← t.nodes n
      if node.prefixMatches f key then
        let found := if node.peer.isSome then some n else found
        if node.cidr = f.bits then some found
        else
          let b ← node.choose key
          findNode t f key fuel (node.bit b) found
      else some found

/-- The loop of `node_placement`: whether the prefix has a node, and the last node passed.
The walk ends early at a node whose prefix is longer than the one that is placed. -/
def nodePlacement (t : Table P) (f : Family) (key : Bytes) (cidr : ℕ) :
    ℕ → Option Ptr → Option Ptr → Option (Bool × Option Ptr)
  | 0, _, _ => none
  | _ + 1, none, parent => some (false, parent)
  | fuel + 1, some n, parent => do
      let node ← t.nodes n
      if node.cidr ≤ cidr ∧ node.prefixMatches f key then
        if node.cidr = cidr then some (true, some n)
        else
          let b ← node.choose key
          nodePlacement t f key cidr fuel (node.bit b) (some n)
      else some (false, parent)

/-- No path of a trie is longer than its address width, since prefixes grow on the way down.
-/
def fuel (f : Family) : ℕ := f.bits + 2

/-- `lookup`, for an address in network order.  A peer in the table holds a reference, so
`wg_peer_get_maybe_zero` succeeds at the first try. -/
def lookup (t : Table P) (f : Family) (ip : Bytes) : Option (Option P) := do
  match ← t.findNode f (swapEndian f ip) (fuel f) (t.root f) none with
  | none => some none
  | some n => do
      let node ← t.nodes n
      some node.peer

/-! ## Insertion -/

/-- `connect_node`: the back pointer of the node is set before the slot publishes it. -/
def connectNode (t : Table P) (slot : Slot) (n : Ptr) : Option (Table P) := do
  let t ← t.modify n fun node => { node with parentBitPacked := some slot }
  t.assign slot (some n)

/-- `choose_and_connect_node`: the bit of the node's own address decides under which slot it
hangs. -/
def chooseAndConnectNode (t : Table P) (parent n : Ptr) : Option (Table P) := do
  let above ← t.nodes parent
  let node ← t.nodes n
  let b ← above.choose node.bits
  t.connectNode (.bit parent b) n

/-- The last statement of `add`: hang the node from its parent, or from the root. -/
def connectBelow (t : Table P) (f : Family) (parent : Option Ptr) (n : Ptr) :
    Option (Table P) :=
  match parent with
  | none => t.connectNode (.root f) n
  | some p => t.chooseAndConnectNode p n

/-- The end of `add`, where the new node takes the place of `down`: above it, or beside it
under a new node without a peer.  When the second allocation fails the first node is taken
off its list and freed. -/
def addAround (t : Table P) (f : Family) (key : Bytes) (cidr : ℕ) (newnode : Ptr)
    (parent : Option Ptr) (down : Ptr) (memory : Bool) : Option (Code × Table P) := do
  let below ← t.nodes down
  let fresh ← t.nodes newnode
  let cidr := min cidr (commonBits f below.bits key)
  if fresh.cidr = cidr then
    let t ← t.chooseAndConnectNode newnode down
    let t ← t.connectBelow f parent newnode
    some (.ok, t)
  else if memory then
    let node := t.next
    let t := t.alloc (Node.new f fresh.bits cidr none)
    let t ← t.chooseAndConnectNode node down
    let t ← t.chooseAndConnectNode node newnode
    let t ← t.connectBelow f parent node
    some (.ok, t)
  else
    let t ← (t.listDel newnode).free newnode
    some (.enomem, t)

/-- `add`; `memory` and `memory'` say whether its first and second allocation succeed.  A
prefix that has a node already needs no allocation. -/
def add [DecidableEq P] (t : Table P) (f : Family) (key : Bytes) (cidr : ℕ)
    (peer : Option P) (memory memory' : Bool) : Option (Code × Table P) :=
  match peer with
  | none => some (.einval, t)
  | some p =>
      if f.bits < cidr then some (.einval, t)
      else
        let newnode := t.next
        match t.root f with
        | none =>
            if memory then do
              let t := (t.alloc (Node.new f key cidr (some p))).listAddTail newnode p
              let t ← t.connectNode (.root f) newnode
              some (.ok, t)
            else some (.enomem, t)
        | some top => do
            match ← t.nodePlacement f key cidr (fuel f) (some top) none with
            | (true, none) => none
            | (true, some n) => do
                let t ← t.modify n fun node => { node with peer := some p }
                some (.ok, (t.listDel n).listAddTail n p)
            | (false, parent) =>
                if memory then
                  let t := (t.alloc (Node.new f key cidr (some p))).listAddTail newnode p
                  match parent with
                  | none => t.addAround f key cidr newnode none top memory'
                  | some n => do
                      let node ← t.nodes n
                      let b ← node.choose key
                      match node.bit b with
                      | none => do
                          let t ← t.connectNode (.bit n b) newnode
                          some (.ok, t)
                      | some down => t.addAround f key cidr newnode (some n) down memory'
                else some (.enomem, t)

/-! ## Removal

The source computes the parent of a node from the packed pointer by `offsetof`; here the
slot names its node.  For a root that computation gives no node, and the source does not use
it. -/

/-- `if (child) child->parent_bit_packed = ...`. -/
def setParent (t : Table P) (slot : Slot) : Option Ptr → Option (Table P)
  | none => some t
  | some c => t.modify c fun below => { below with parentBitPacked := some slot }

/-- The child takes the place of the node, which is freed.  The source has this twice in
`remove_node`, for the node and for its parent. -/
def replaceNode (t : Table P) (n : Ptr) (child : Option Ptr) : Option (Table P) := do
  let node ← t.nodes n
  let slot ← node.parentBitPacked
  let t ← t.setParent slot child
  let t ← t.assign slot child
  t.free n

/-- `remove_node`: a node with two children stays, without a peer; any other node is
replaced, and then possibly its parent. -/
def removeNode (t : Table P) (n : Ptr) : Option (Table P) := do
  let node ← t.nodes n
  let t ← (t.listDel n).modify n fun node => { node with peer := none }
  if (node.bit false).isSome && (node.bit true).isSome then some t
  else
    let t ← t.replaceNode n (node.bit (node.bit false).isNone)
    match ← node.parentBitPacked with
    | .root _ => some t
    | .bit parent b =>
        let above ← t.nodes parent
        -- the node was a leaf and left its parent without a peer and with one child
        if (node.bit false).isNone && (node.bit true).isNone && above.peer.isNone then
          t.replaceNode parent (above.bit !b)
        else some t

/-- `remove`: the prefix must have a node, and the node the given peer; otherwise nothing
happens, and that is no error. -/
def remove [DecidableEq P] (t : Table P) (f : Family) (key : Bytes) (cidr : ℕ)
    (peer : Option P) : Option (Code × Table P) :=
  if f.bits < cidr then some (.einval, t)
  else
    match t.root f with
    | none => some (.ok, t)
    | some top => do
        match ← t.nodePlacement f key cidr (fuel f) (some top) none with
        | (false, _) => some (.ok, t)
        | (true, none) => none
        | (true, some n) => do
            let node ← t.nodes n
            if peer = node.peer then
              let t ← t.removeNode n
              some (.ok, t)
            else some (.ok, t)

/-- The element after `n` in a list. -/
def listNext (l : List Ptr) (n : Ptr) : Option Ptr := (l.dropWhile (· ≠ n)).tail.head?

/-- The loop of `wg_allowedips_remove_by_peer`, at the given entry; the next entry is read
before the entry is removed. -/
def removeEntries (p : P) : ℕ → Option Ptr → Table P → Option (Table P)
  | 0, _, _ => none
  | _ + 1, none, t => some t
  | fuel + 1, some n, t => do
      let tmp := listNext (t.allowedipsList p) n
      let t ← t.removeNode n
      removeEntries p fuel tmp t

/-! ## Freeing the table -/

/-- `push_rcu`, with the top of the stack in front.  The source checks the bound in a debug
build only; a push past the end of the stack is a fault here. -/
def pushRcu (stack : List Ptr) : Option Ptr → Option (List Ptr)
  | none => some stack
  | some n => if MAX_ALLOWEDIPS_DEPTH ≤ stack.length then none else some (n :: stack)

/-- The loop shared by `root_free_rcu` and `root_remove_peer_lists`: a node is popped, its
children are pushed, and it is visited. -/
def drainStack (visit : Table P → Ptr → Node P → Option (Table P)) :
    ℕ → List Ptr → Table P → Option (Table P)
  | 0, _, _ => none
  | _ + 1, [], t => some t
  | fuel + 1, n :: stack, t => do
      let node ← t.nodes n
      let stack ← pushRcu stack (node.bit false)
      let stack ← pushRcu stack (node.bit true)
      let t ← visit t n node
      drainStack visit fuel stack t

/-- `root_remove_peer_lists`. -/
def rootRemovePeerLists (t : Table P) (top : Ptr) : Option (Table P) :=
  drainStack (fun t n node => some (if node.peer.isSome then t.listDel n else t))
    (t.next + 1) [top] t

/-- `root_free_rcu`. -/
def rootFreeRcu (t : Table P) (top : Ptr) : Option (Table P) :=
  drainStack (fun t n _ => t.free n) (t.next + 1) [top] t

/-- One half of `wg_allowedips_free`: the nodes of one trie leave the lists of their peers
and are then freed. -/
def freeRoot (t : Table P) : Option Ptr → Option (Table P)
  | none => some t
  | some top => do
      let t ← t.rootRemovePeerLists top
      t.rootFreeRcu top

end Table

/-! ## The operations of the header

Addresses come in network order and of the length of their family, which is what the types
of the C functions say. -/

/-- `wg_allowedips_init`. -/
def Table.init : Table P where
  nodes := fun _ => none
  next := 0
  root := fun _ => none
  seq := 1
  allowedipsList := fun _ => []

/-- An address of the family, in network order. -/
structure Addr (f : Family) where
  bytes : Bytes
  size : bytes.length = f.bytes

/-- The calls that change a table. -/
inductive Op (P : Type)
  | insert (f : Family) (ip : Addr f) (cidr : ℕ) (peer : Option P) (memory memory' : Bool)
  | remove (f : Family) (ip : Addr f) (cidr : ℕ) (peer : Option P)
  | removeByPeer (peer : P)
  | free

/-- `wg_allowedips_insert_v4` and `_v6`, `wg_allowedips_remove_v4` and `_v6`,
`wg_allowedips_remove_by_peer` and `wg_allowedips_free`. -/
def Table.run [DecidableEq P] (t : Table P) : Op P → Option (Code × Table P)
  | .insert f ip cidr peer memory memory' =>
      { t with seq := t.seq + 1 }.add f (swapEndian f ip.bytes) cidr peer memory memory'
  | .remove f ip cidr peer =>
      { t with seq := t.seq + 1 }.remove f (swapEndian f ip.bytes) cidr peer
  | .removeByPeer p =>
      match t.allowedipsList p with
      | [] => some (.ok, t)
      | n :: rest => do
          let t ← removeEntries p (rest.length + 2) (some n) { t with seq := t.seq + 1 }
          some (.ok, t)
  | .free => do
      let old4 := t.root .v4
      let old6 := t.root .v6
      let t ← { t with seq := t.seq + 1, root := fun _ => none }.freeRoot old4
      let t ← t.freeRoot old6
      some (.ok, t)

end AllowedIps
end WgReceivePath
