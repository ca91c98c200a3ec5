import Cebus.Lib.Trie
import Cebus.Peer.PeerListSpec
import Cebus.Subscription.Tree

/-!
# The shape of the tree

A node in shape has its buckets in a chain, each with nodes in its first `depth`
pointers, and is then a node of a trie.

* `foldChildren_eq`: what a visit of the children passes.
-/

namespace Cebus

open LinkedList

namespace PeerSubscriptionTree

/-! ## Buckets -/

/-- The nodes of the children in use. -/
def Bucket.nodes (bucket : Bucket Node) : List Node :=
  (bucket.children.take bucket.depth).filterMap Slot.node?

/-- The children in use are nodes, and there is one. -/
structure Bucket.Solid (bucket : Bucket Node) : Prop where
  nodes : bucket.children.take bucket.depth = bucket.nodes.map Slot.node
  length : bucket.children.length = bucketMax
  pos : 0 < bucket.depth
  le : bucket.depth ≤ bucketMax

theorem filterMap_node? (ns : List Node) : (ns.map Slot.node).filterMap Slot.node? = ns := by
  rw [List.filterMap_map]
  exact List.filterMap_some

section Solid

variable {B : Bucket Node} {ns ns₁ ns₂ : List Node} {rest : List (Slot Node)} {c : Node}
  {test : Node → Bool}

theorem Bucket.nodes_of_children (h : B.children = ns.map Slot.node ++ rest)
    (hd : B.depth = ns.length) : B.nodes = ns := by
  rw [Bucket.nodes, h, hd, List.take_left' (by simp), filterMap_node?]

theorem Bucket.solid_of_children (h : B.children = ns.map Slot.node ++ rest)
    (hd : B.depth = ns.length) (hlen : B.children.length = bucketMax) (hne : ns ≠ []) :
    B.Solid where
  nodes := by rw [Bucket.nodes_of_children h hd, h, hd, List.take_left' (by simp)]
  length := hlen
  pos := by
    rw [hd]
    exact List.length_pos_iff.mpr hne
  le := by
    rw [← hlen, h, hd]
    simp

theorem Bucket.Solid.length_nodes (h : B.Solid) : B.nodes.length = B.depth := by
  have := congrArg List.length h.nodes
  have hle := h.le
  rw [List.length_take, h.length, List.length_map] at this
  omega

theorem Bucket.Solid.children_eq (h : B.Solid) :
    B.children = B.nodes.map Slot.node ++ B.children.drop B.depth := by
  rw [← h.nodes, List.take_append_drop]

theorem Bucket.Solid.nodes_ne_nil (h : B.Solid) : B.nodes ≠ [] := by
  intro hnil
  have := h.length_nodes
  have hpos := h.pos
  rw [hnil] at this
  simp at this
  omega

theorem childAt_of_children (h : B.children = ns₁.map Slot.node ++ Slot.node c :: rest) :
    childAt B ns₁.length = .ok c := by
  rw [childAt, h, List.getElem?_append_right (by simp)]
  simp

theorem firstChild_suffix (test : Node → Bool) (ns₁ ns₂ : List Node)
    (h : B.children = ns₁.map Slot.node ++ ns₂.map Slot.node ++ rest) :
    firstChild test B (List.range' ns₁.length ns₂.length) =
      .ok ((ns₂.findIdx? test).map (ns₁.length + ·)) := by
  induction ns₂ generalizing ns₁ with
  | nil => rfl
  | cons c ns ih =>
    have hc : childAt B ns₁.length = .ok c :=
      childAt_of_children (by rw [h, List.append_assoc]; rfl)
    rw [List.length_cons, List.range'_succ, firstChild, hc, Fallible.ok_bind,
      List.findIdx?_cons]
    by_cases htest : test c = true
    · simp [htest]
    · rw [if_neg htest, if_neg htest]
      have := ih (ns₁ ++ [c]) (by rw [h]; simp)
      rw [List.length_append, List.length_singleton] at this
      rw [this, Option.map_map]
      congr 2
      funext i
      simp only [Function.comp]
      omega

/-- The loop over a bucket finds the first child that meets the test. -/
theorem firstChild_eq (test : Node → Bool) (h : B.children = ns.map Slot.node ++ rest) :
    firstChild test B (List.range ns.length) = .ok (ns.findIdx? test) := by
  rw [List.range_eq_range']
  have := firstChild_suffix test [] ns h
  simpa using this

theorem foldlM_suffix {β : Type} (visit : β → Node → Except Fault β)
    (ns₁ ns₂ : List Node) (h : B.children = ns₁.map Slot.node ++ ns₂.map Slot.node ++ rest)
    (acc : β) :
    (List.range' ns₁.length ns₂.length).foldlM (fun acc i => do
      let child ← childAt B i
      visit acc child) acc = ns₂.foldlM visit acc := by
  induction ns₂ generalizing ns₁ acc with
  | nil => rfl
  | cons c ns ih =>
    have hc : childAt B ns₁.length = .ok c :=
      childAt_of_children (by rw [h, List.append_assoc]; rfl)
    rw [List.length_cons, List.range'_succ, List.foldlM_cons, List.foldlM_cons, hc,
      Fallible.ok_bind]
    refine congrArg _ (funext fun acc => ?_)
    have := ih (ns₁ ++ [c]) (by rw [h]; simp) acc
    rwa [List.length_append, List.length_singleton] at this

theorem Bucket.Solid.foldlM_eq {β : Type} (visit : β → Node → Except Fault β) (h : B.Solid)
    (acc : β) :
    (List.range B.depth).foldlM (fun acc i => do
      let child ← childAt B i
      visit acc child) acc = B.nodes.foldlM visit acc := by
  rw [List.range_eq_range', ← h.length_nodes]
  exact foldlM_suffix visit [] _ h.children_eq acc

end Solid

/-! ## Nodes -/

namespace Node

/-- The buckets from `head` on, with their addresses. -/
def chain (n : Node) : List (ℕ × Bucket Node) := cells n.buckets n.head

/-- The children in the buckets. -/
def literals (n : Node) : List Node := n.chain.flatMap (·.2.nodes)

/-- Children with their fragments. -/
def label (ns : List Node) : List (BindingKeyFragment × Node) := ns.map fun c => (c.fragment, c)

/-- All children of a node with their fragments. -/
def kids (n : Node) : List (BindingKeyFragment × Node) :=
  (n.sharpNode.map (some tokenSharp, ·)).toList ++ (n.starNode.map (some tokenStar, ·)).toList ++
    label n.literals

/-- A peer with this id is in the list of the node. -/
def Holds (n : Node) (id : PeerId) : Prop := id ∈ n.peers.ids

/-- A peer with this id is stored at a path below the node. -/
abbrev Stored : Node → List BindingKeyFragment → PeerId → Prop := Trie.Stored kids Holds

/-- The buckets of the node are in order. -/
structure Shape (n : Node) : Prop where
  chain : Chain n.buckets n.head n.chain
  solid : ∀ b ∈ n.chain, b.2.Solid

variable {n c : Node} {f : BindingKeyFragment}

theorem chain_eq {l : List (ℕ × Bucket Node)} (h : Chain n.buckets n.head l) : n.chain = l :=
  h.cells_eq

theorem label_append (ns₁ ns₂ : List Node) : label (ns₁ ++ ns₂) = label ns₁ ++ label ns₂ :=
  List.map_append

theorem label_cons (ns : List Node) : label (c :: ns) = (c.fragment, c) :: label ns := rfl

theorem mem_label {ns : List Node} : (f, c) ∈ label ns ↔ f = c.fragment ∧ c ∈ ns := by
  simp only [label, List.mem_map, Prod.mk.injEq]
  constructor
  · rintro ⟨d, hd, rfl, rfl⟩
    exact ⟨rfl, hd⟩
  · rintro ⟨rfl, hc⟩
    exact ⟨c, hc, rfl, rfl⟩

theorem mem_kids : (f, c) ∈ n.kids ↔ (f = some tokenSharp ∧ n.sharpNode = some c) ∨
    (f = some tokenStar ∧ n.starNode = some c) ∨ (f = c.fragment ∧ c ∈ n.literals) := by
  rw [kids, List.mem_append, List.mem_append, mem_label, or_assoc]
  simp only [Option.mem_toList, Option.map_eq_some_iff, Prod.mk.injEq]
  constructor
  · rintro (⟨d, hd, rfl, rfl⟩ | ⟨d, hd, rfl, rfl⟩ | h)
    · exact Or.inl ⟨rfl, hd⟩
    · exact Or.inr (Or.inl ⟨rfl, hd⟩)
    · exact Or.inr (Or.inr h)
  · rintro (⟨rfl, hc⟩ | ⟨rfl, hc⟩ | h)
    · exact Or.inl ⟨c, hc, rfl, rfl⟩
    · exact Or.inr (Or.inl ⟨c, hc, rfl, rfl⟩)
    · exact Or.inr (Or.inr h)

theorem mem_inner (h : (f, c) ∈ n.kids) : c ∈ n.inner := by
  rw [inner, List.mem_append, List.mem_append]
  rcases mem_kids.mp h with ⟨-, hc⟩ | ⟨-, hc⟩ | ⟨-, hc⟩
  · simp [hc]
  · simp [hc]
  · right
    obtain ⟨⟨a, B⟩, hB, hc⟩ := List.mem_flatMap.mp hc
    obtain ⟨next, hcell⟩ := mem_of_walk hB
    refine List.mem_flatMap.mpr ⟨_, hcell, ?_⟩
    rw [Bucket.nodes, List.mem_filterMap] at hc
    obtain ⟨slot, hslot, hc⟩ := hc
    exact List.mem_filterMap.mpr ⟨slot, List.mem_of_mem_take hslot, hc⟩

theorem height_lt_of_kids (h : (f, c) ∈ n.kids) : c.height < n.height := height_lt (mem_inner h)

end Node

/-! ## Visiting the children -/

variable {n n' c c' : Node} {f : BindingKeyFragment} {β : Type}

theorem Node.Shape.foldlM_chain (h : n.Shape) (visit : β → Node → Except Fault β) (acc : β) :
    fold n.buckets (fun acc _ bucket => (List.range bucket.depth).foldlM (fun acc i => do
        let child ← childAt bucket i
        visit acc child) acc) n.buckets.length n.head acc = n.literals.foldlM visit acc := by
  rw [fold_eq h.chain h.chain.length_le, Node.literals]
  have hsolid := h.solid
  generalize n.chain = l at hsolid
  induction l generalizing acc with
  | nil => rfl
  | cons b l ih =>
    rw [List.foldlM_cons, (hsolid b (List.mem_cons_self ..)).foldlM_eq, List.flatMap_cons,
      List.foldlM_append]
    exact congrArg _ (funext fun acc => ih acc fun b' hb' => hsolid b' (List.mem_cons_of_mem _ hb'))

/-- A visit passes the children one after the other. -/
theorem foldChildren_eq (h : n.Shape) (visit : β → Node → Except Fault β) (acc : β) :
    foldChildren visit n acc = n.kids.foldlM (fun acc child => visit acc child.2) acc := by
  rw [foldChildren, Node.kids, List.foldlM_append, List.foldlM_append, Node.label]
  simp only [h.foldlM_chain, List.foldlM_map]
  rcases n.sharpNode with _ | sharp
  · rcases n.starNode with _ | star
    · rfl
    · simp
  · rcases n.starNode with _ | star
    · simp
    · simp

end PeerSubscriptionTree

end Cebus
