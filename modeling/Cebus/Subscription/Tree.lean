import Cebus.Peer.Peer
import Cebus.Subscription.BindingKey

/-!
# The subscription tree (`peer_subscription_tree.c`)

A node owns its children, and the buckets of a node are the cells of a memory of
its own. Each recursion along the children is bounded by the height of the node
that it starts from, which bounds the length of every path below it.

* `Node.height_lt`: a child is less high than its parent.
-/

namespace Cebus

open LinkedList

namespace PeerSubscriptionTree

/-! ## Data -/

/-- A pointer in the array `children`. A `word` is a number that has been copied
    there and points to no node. -/
inductive Slot (ν : Type) where
  | null
  | node (node : ν)
  | word (value : ℕ)

/-- `cb_peer_subscription_tree_bucket` (`peer_subscription_tree.h`, lines 28–35),
    without the pointer to the next one. -/
structure Bucket (ν : Type) where
  children : List (Slot ν)
  depth : ℕ

/-- `cb_peer_subscription_tree_node` (`peer_subscription_tree.h`, lines 12–26), with
    the memory of its buckets. -/
structure Node where
  fragment : BindingKeyFragment
  fragmentIndex : ℕ
  peers : PeerList
  sharpNode : Option Node
  starNode : Option Node
  buckets : List (Option (Cell (Bucket Node)))
  head : Option ℕ
  tail : Option ℕ

/-- `CB_SUBSCRIPTION_TREE_BUCKET_MAX` (`peer_subscription_tree.h`, line 9). -/
def bucketMax : ℕ := 32

/-- The address of a pointer to a child. -/
inductive ChildRef where
  | sharp
  | star
  | child (bucket i : ℕ)
deriving DecidableEq

/-! ## Height -/

/-- The node that a pointer points to. -/
def Slot.node? {ν : Type} : Slot ν → Option ν
  | .node n => some n
  | _ => none

/-- All nodes in the memory of a node. -/
def Node.inner (n : Node) : List Node :=
  n.sharpNode.toList ++ n.starNode.toList ++
    n.buckets.flatMap fun cell => cell.elim [] fun c => c.val.children.filterMap Slot.node?

theorem Node.sizeOf_inner {c n : Node} (h : c ∈ n.inner) : sizeOf c < sizeOf n := by
  rcases n with ⟨_, _, _, sharp, star, buckets, _, _⟩
  simp only [inner, List.mem_append, Option.mem_toList, List.mem_flatMap] at h
  rcases h with (rfl | rfl) | ⟨cell, hcell, hc⟩
  · simp
    omega
  · simp
    omega
  · have hlt := List.sizeOf_lt_of_mem hcell
    rcases cell with _ | ⟨⟨slots, d⟩, next⟩
    · simp at hc
    · simp only [Option.elim, List.mem_filterMap] at hc
      obtain ⟨slot, hslot, hc⟩ := hc
      have hlt' := List.sizeOf_lt_of_mem hslot
      rcases slot with _ | n | w
      · cases hc
      · obtain rfl : n = c := Option.some.inj hc
        simp at hlt hlt' ⊢
        omega
      · cases hc

/-- The height of the tree below a node. -/
def Node.height (n : Node) : ℕ := 1 + (n.inner.attach.map fun c => c.1.height).foldr max 0
termination_by sizeOf n
decreasing_by exact Node.sizeOf_inner c.2

theorem le_foldr_max {a : ℕ} {l : List ℕ} (h : a ∈ l) : a ≤ l.foldr max 0 := by
  induction l with
  | nil => cases h
  | cons b l ih =>
    rw [List.foldr_cons]
    rcases List.mem_cons.mp h with rfl | h
    · exact Nat.le_max_left ..
    · exact Nat.le_trans (ih h) (Nat.le_max_right ..)

theorem Node.height_lt {c n : Node} (h : c ∈ n.inner) : c.height < n.height := by
  have hmem : c.height ∈ n.inner.attach.map fun c => c.1.height :=
    List.mem_map.mpr ⟨⟨c, h⟩, List.mem_attach .., rfl⟩
  have hle := le_foldr_max hmem
  rw [Node.height.eq_def n]
  omega

/-! ## Pointers to children -/

/-- `bucket->children[i]`, to be followed. -/
def childAt (bucket : Bucket Node) (i : ℕ) : Except Fault Node :=
  match bucket.children[i]? with
  | some (.node child) => .ok child
  | some .null => .error .null
  | _ => .error .wild

/-- `*child`, to be compared with `NULL` and followed. -/
def readChild (node : Node) : ChildRef → Except Fault (Option Node)
  | .sharp => .ok node.sharpNode
  | .star => .ok node.starNode
  | .child b i => do
    let bucket ← Mem.get node.buckets (some b)
    match bucket.val.children[i]? with
    | some .null => .ok none
    | some (.node child) => .ok (some child)
    | _ => .error .wild

/-- `*child = value`, also for a change of the node that `*child` points to. -/
def writeChild (node : Node) (child : Node) : ChildRef → Except Fault Node
  | .sharp => .ok { node with sharpNode := some child }
  | .star => .ok { node with starNode := some child }
  | .child b i => do
    let bucket ← Mem.get node.buckets (some b)
    .ok { node with
      buckets := Mem.write node.buckets b { bucket with
        val := { bucket.val with children := bucket.val.children.set i (.node child) } } }

/-- `for (i = 0; i < bucket->depth; ++i)` with a `break` or `return` at the first
    child that meets a test. -/
def firstChild (test : Node → Bool) (bucket : Bucket Node) : List ℕ → Except Fault (Option ℕ)
  | [] => .ok none
  | i :: is => do
    let child ← childAt bucket i
    if test child then .ok (some i) else firstChild test bucket is

/-- A visit of `sharp_node`, of `star_node` and of the children in the buckets, as
    in lines 62–77 and 335–350. -/
def foldChildren {β : Type} (visit : β → Node → Except Fault β) (node : Node) (acc : β) :
    Except Fault β := do
  let acc ← match node.sharpNode with
    | none => .ok acc
    | some child => visit acc child
  let acc ← match node.starNode with
    | none => .ok acc
    | some child => visit acc child
  fold node.buckets
    (fun acc _ bucket => (List.range bucket.depth).foldlM (fun acc i => do
      let child ← childAt bucket i
      visit acc child) acc)
    node.buckets.length node.head acc

/-! ## Buckets -/

/-- `cb_peer_subscription_tree_bucket_full` (lines 80–83). -/
def bucketFull (bucket : Bucket Node) : Bool := bucket.depth = bucketMax

/-- `cb_peer_subscription_tree_bucket_add` (lines 85–108), with the new bucket. -/
def bucketAdd (node : Node) : Except Fault (Node × ℕ) :=
  let bucket := node.buckets.length
  let buckets := Mem.alloc node.buckets ⟨⟨List.replicate bucketMax .null, 0⟩, none⟩
  match node.head, node.tail with
  | none, _ => .ok ({ node with buckets, head := some bucket, tail := some bucket }, bucket)
  | some _, none => .error .null
  | some _, some a => do
    let last ← Mem.get node.buckets (some a)
    .ok ({ node with
      buckets := Mem.write buckets a { last with next := some bucket }
      tail := some bucket }, bucket)

/-- `cb_peer_subscription_tree_get_or_add_bucket` (lines 110–116). -/
def getOrAddBucket (node : Node) : Except Fault (Node × ℕ) :=
  match node.head, node.tail with
  | none, _ => bucketAdd node
  | some _, none => .error .null
  | some _, some a => do
    let last ← Mem.get node.buckets (some a)
    if bucketFull last.val then bucketAdd node else .ok (node, a)

/-- `cb_peer_subscription_tree_remove_bucket` (lines 223–244). -/
def removeBucket (node : Node) (bucket : ℕ) : Except Fault Node := do
  let found ← search node.buckets (fun prev a _ => .ok (if a = bucket then some prev else none))
    node.buckets.length node.head node.head
  match found with
  | none => .ok node
  | some prev => do
    let currentBucket ← Mem.get node.buckets (some bucket)
    if prev = node.head then
      .ok { node with buckets := Mem.free node.buckets bucket, head := currentBucket.next }
    else match prev with
    | none => .error .null
    | some p => do
      let before ← Mem.get node.buckets (some p)
      .ok { node with
        buckets := Mem.free (Mem.write node.buckets p { before with next := currentBucket.next })
          bucket }

/-! ## Nodes -/

/-- `cb_peer_subscription_tree_is_leaf` (lines 118–124); `isRoot` says whether the
    node is `tree->root`. -/
def isLeaf (isRoot : Bool) (node : Node) (bindingKey : BindingKey) : Bool :=
  if isRoot then false else node.fragmentIndex + 1 = BindingKey.fragmentCount bindingKey

/-- `cb_peer_subscription_tree_node_new` (lines 136–150), in memory filled with zeros. -/
def nodeNew (bindingKey : BindingKey) (fragmentIndex : ℕ) : Node where
  fragment := BindingKey.getFragment bindingKey fragmentIndex
  fragmentIndex := fragmentIndex
  peers := PeerList.init 0
  sharpNode := none
  starNode := none
  buckets := []
  head := none
  tail := none

/-- The comparison of a child with its fragment of a key (lines 170–174). -/
def holdsFragment (bindingKey : BindingKey) (child : Node) : Bool :=
  let fragment := BindingKey.getFragment bindingKey child.fragmentIndex
  !BindingKey.fragmentIsEmpty fragment && BindingKey.fragmentEq child.fragment fragment

/-- `cb_peer_subscription_tree_get_child_node` (lines 152–183). -/
def getChildNode (parentNode : Node) (bindingKey : BindingKey) (fragmentIndex : ℕ) :
    Except Fault (Option ChildRef) :=
  let fragment := BindingKey.getFragment bindingKey fragmentIndex
  if BindingKey.fragmentIsSharp fragment then .ok (some .sharp)
  else if BindingKey.fragmentIsStar fragment then .ok (some .star)
  else
    search parentNode.buckets
      (fun _ b bucket => do
        let found ← firstChild (holdsFragment bindingKey) bucket (List.range bucket.depth)
        .ok (found.map (ChildRef.child b)))
      parentNode.buckets.length parentNode.head parentNode.head

/-- The pointer that `cb_peer_subscription_tree_get_or_add_child_node` chooses in a
    bucket (lines 201–212). -/
def chooseInBucket (parentNode : Node) (b : ℕ) (fragment : BindingKeyFragment) :
    Except Fault (Node × ChildRef) := do
  let bucket ← Mem.get parentNode.buckets (some b)
  let found ← firstChild (fun child => BindingKey.fragmentEq child.fragment fragment)
    bucket.val (List.range bucket.val.depth)
  match found with
  | some i => .ok (parentNode, .child b i)
  | none =>
    .ok ({ parentNode with
      buckets := Mem.write parentNode.buckets b { bucket with
        val := { bucket.val with depth := bucket.val.depth + 1 } } },
      .child b bucket.val.depth)

/-- The pointer that `cb_peer_subscription_tree_get_or_add_child_node` chooses (lines
    187–213). -/
def chooseChild (parentNode : Node) (fragment : BindingKeyFragment) :
    Except Fault (Node × ChildRef) :=
  if BindingKey.fragmentIsSharp fragment then .ok (parentNode, .sharp)
  else if BindingKey.fragmentIsStar fragment then .ok (parentNode, .star)
  else do
    let (parentNode, b) ← getOrAddBucket parentNode
    chooseInBucket parentNode b fragment

/-- `cb_peer_subscription_tree_get_or_add_child_node` (lines 185–221). -/
def getOrAddChildNode (parentNode : Node) (bindingKey : BindingKey) (fragmentIndex : ℕ) :
    Except Fault (Node × ChildRef) := do
  let (parentNode, ref) ← chooseChild parentNode (BindingKey.getFragment bindingKey fragmentIndex)
  let child ← readChild parentNode ref
  match child with
  | some _ => .ok (parentNode, ref)
  | none => do
    let parentNode ← writeChild parentNode (nodeNew bindingKey fragmentIndex) ref
    .ok (parentNode, ref)

/-- `cb_peer_subscription_tree_free_node` (lines 246–258). A bucket is read after it
    has been freed, so that a node with buckets cannot be freed. -/
def freeNode (node : Node) : Except Fault Unit :=
  match node.head with
  | none => .ok ()
  | some _ => .error .dangling

/-- `children` after the `memmove` (line 293) of `depth - i` pointers from index
    `i + 1` to index `i`. The pointer at index 32 is the field `depth`. -/
def closeGap (bucket : Bucket Node) (i : ℕ) : List (Slot Node) :=
  bucket.children.take i ++
    ((bucket.children ++ [Slot.word bucket.depth]).drop (i + 1)).take (bucket.depth - i) ++
    bucket.children.drop bucket.depth

/-- `cb_peer_subscription_tree_remove_node` (lines 260–308). -/
def removeNode (parentNode : Node) (ref : ChildRef) : Except Fault Node := do
  let child ← readChild parentNode ref
  match child with
  | none => .error .null
  | some child =>
    match ref with
    | .sharp => do
      freeNode child
      .ok { parentNode with sharpNode := none }
    | .star => do
      freeNode child
      .ok { parentNode with starNode := none }
    | .child b i => do
      let found ← search parentNode.buckets
        (fun _ a _ => .ok (if a = b then some a else none))
        parentNode.buckets.length parentNode.head parentNode.head
      match found with
      | none => .ok parentNode
      | some b => do
        freeNode child
        let bucket ← Mem.get parentNode.buckets (some b)
        let parentNode := { parentNode with
          buckets := Mem.write parentNode.buckets b { bucket with
            val := ⟨closeGap bucket.val i, bucket.val.depth - 1⟩ } }
        if bucket.val.depth - 1 = 0 then removeBucket parentNode b else .ok parentNode

/-- `cb_peer_subscription_tree_node_count` (lines 330–353). -/
def nodeCount : ℕ → Node → Except Fault ℕ
  | 0, _ => .error .fuel
  | fuel + 1, node =>
    foldChildren (fun count child => (count + ·) <$> nodeCount fuel child) node node.peers.count

/-- `cb_peer_subscription_tree_add_or_update_peer` (lines 126–129). -/
def addOrUpdatePeer (node : Node) (peer : Peer) : Except Fault Node := do
  let peers ← node.peers.insert peer
  .ok { node with peers }

/-- `cb_peer_subscription_tree_remove_peer` (lines 131–134). -/
def removePeer (node : Node) (peer : Peer) : Except Fault Node := do
  let (peers, _) ← node.peers.remove peer
  .ok { node with peers }

/-- `cb_peer_subscription_tree_update_node` (lines 412–439). -/
def updateNode (peer : Peer) (bindingKey : BindingKey)
    (getChild : Node → BindingKey → ℕ → Except Fault (Node × Option ChildRef))
    (action : Node → Peer → Except Fault Node) : ℕ → Bool → Node → ℕ → Except Fault Node
  | 0, _, _, _ => .error .fuel
  | fuel + 1, isRoot, node, fragmentIndex =>
    if isLeaf isRoot node bindingKey then action node peer
    else do
      let (node, child) ← getChild node bindingKey fragmentIndex
      match child with
      | none => .ok node
      | some ref => do
        match ← readChild node ref with
        | none => .error .null
        | some child => do
          let child ← updateNode peer bindingKey getChild action fuel false child
            (fragmentIndex + 1)
          let node ← writeChild node child ref
          let count ← nodeCount child.height child
          if count = 0 then removeNode node ref else .ok node

/-! ## The collector -/

/-- `cb_peer_subscription_tree_collector_offer_all` (lines 57–78). -/
def offerAll : ℕ → PeerList → Node → Except Fault PeerList
  | 0, _, _ => .error .fuel
  | fuel + 1, peers, node => do
    let peers ← peers.offer node.peers
    foldChildren (fun peers child => offerAll fuel peers child) node peers

/-- `cb_peer_subscription_tree_collect` (lines 441–460). -/
def collect (bindingKey : BindingKey) : ℕ → Bool → PeerList → Node → Except Fault PeerList
  | 0, _, _, _ => .error .fuel
  | fuel + 1, isRoot, peers, node =>
    if isLeaf isRoot node bindingKey then peers.offer node.peers
    else do
      let peers ← match node.sharpNode with
        | none => .ok peers
        | some _ => offerAll node.height peers node
      let peers ← match node.starNode with
        | none => .ok peers
        | some starNode => collect bindingKey fuel false peers starNode
      match ← getChildNode node bindingKey node.fragmentIndex with
      | none => .ok peers
      | some ref => do
        match ← readChild node ref with
        | none => .ok peers
        | some child => collect bindingKey fuel false peers child

end PeerSubscriptionTree

/-! ## The tree -/

/-- `cb_peer_subscription_tree` (`peer_subscription_tree.h`, lines 37–42). -/
structure PeerSubscriptionTree where
  root : PeerSubscriptionTree.Node
  peersMatchingAll : PeerList

namespace PeerSubscriptionTree

/-- `cb_peer_subscription_tree_init` (lines 488–495); `count` is what the counter of
    `peers_matching_all` was before. -/
def init (count : ℕ) : PeerSubscriptionTree where
  root := nodeNew BindingKey.init 0
  peersMatchingAll := PeerList.init count

/-- `cb_peer_subscription_tree_get_or_add_child_node` as a `find_node` (line 411). -/
def findOrAdd (parentNode : Node) (bindingKey : BindingKey) (fragmentIndex : ℕ) :
    Except Fault (Node × Option ChildRef) := do
  let (parentNode, ref) ← getOrAddChildNode parentNode bindingKey fragmentIndex
  .ok (parentNode, some ref)

/-- `cb_peer_subscription_tree_get_child_node` as a `find_node` (line 411). -/
def find (parentNode : Node) (bindingKey : BindingKey) (fragmentIndex : ℕ) :
    Except Fault (Node × Option ChildRef) := do
  let ref ← getChildNode parentNode bindingKey fragmentIndex
  .ok (parentNode, ref)

/-- `cb_peer_subscription_tree_add` (lines 497–503). A call of `update_node` is one
    fragment further on than the one before. -/
def add (tree : PeerSubscriptionTree) (peer : Peer) (bindingKey : BindingKey) :
    Except Fault PeerSubscriptionTree :=
  if BindingKey.isEmpty bindingKey then do
    let peersMatchingAll ← tree.peersMatchingAll.insert peer
    .ok { tree with peersMatchingAll }
  else do
    let root ← updateNode peer bindingKey findOrAdd addOrUpdatePeer
      (BindingKey.fragmentCount bindingKey + 1) true tree.root 0
    .ok { tree with root }

/-- `cb_peer_subscription_tree_remove` (lines 505–511). -/
def remove (tree : PeerSubscriptionTree) (peer : Peer) (bindingKey : BindingKey) :
    Except Fault PeerSubscriptionTree :=
  if BindingKey.isEmpty bindingKey then do
    let (peersMatchingAll, _) ← tree.peersMatchingAll.remove peer
    .ok { tree with peersMatchingAll }
  else do
    let root ← updateNode peer bindingKey find removePeer
      (BindingKey.fragmentCount bindingKey + 1) true tree.root 0
    .ok { tree with root }

/-- `cb_peer_subscription_tree_get_peers` (lines 513–528); `count` is what the
    counter of the collector's list is at first. -/
def getPeers (count : ℕ) (tree : PeerSubscriptionTree) (bindingKey : BindingKey) :
    Except Fault PeerList := do
  let peers ← (PeerList.init count).offer tree.peersMatchingAll
  if BindingKey.isEmpty bindingKey then offerAll tree.root.height peers tree.root
  else collect bindingKey tree.root.height true peers tree.root

end PeerSubscriptionTree

end Cebus
