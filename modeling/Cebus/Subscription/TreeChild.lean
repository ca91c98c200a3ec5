import Cebus.Subscription.TreeShape

/-!
# Finding, adding and replacing a child

* `getChildNode_hit`: the first child that holds its fragment of the key is found.
* `At.write`: a change of a child leaves the others where they are.
-/

namespace Cebus

open LinkedList

namespace PeerSubscriptionTree

open Node (label)

variable {n n' c c' : Node} {f : BindingKeyFragment} {ref : ChildRef}
  {k₁ k₂ : List (BindingKeyFragment × Node)} {l₁ l₂ : List (ℕ × Bucket Node)} {b : ℕ}
  {B B' : Bucket Node} {ns₁ ns₂ : List Node}

/-! ## Places -/

/-- The pointer `ref` of a node points to the child `c` under the fragment `f`, and
    stands between those to the children `k₁` and `k₂`. -/
inductive At (n : Node) : ChildRef → BindingKeyFragment → Node →
    List (BindingKeyFragment × Node) → List (BindingKeyFragment × Node) → Prop where
  | sharp {c : Node} : n.sharpNode = some c →
      At n .sharp (some tokenSharp) c []
        ((n.starNode.map (some tokenStar, ·)).toList ++ label n.literals)
  | star {c : Node} : n.starNode = some c →
      At n .star (some tokenStar) c (n.sharpNode.map (some tokenSharp, ·)).toList
        (label n.literals)
  | child {l₁ l₂ : List (ℕ × Bucket Node)} {b : ℕ} {B : Bucket Node} {ns₁ ns₂ : List Node}
      {c : Node} : n.chain = l₁ ++ (b, B) :: l₂ → B.nodes = ns₁ ++ c :: ns₂ →
      At n (.child b ns₁.length) c.fragment c
        ((n.sharpNode.map (some tokenSharp, ·)).toList ++
          (n.starNode.map (some tokenStar, ·)).toList ++
          label (l₁.flatMap (·.2.nodes) ++ ns₁))
        (label (ns₂ ++ l₂.flatMap (·.2.nodes)))

theorem Node.literals_of_chain (h : n.chain = l₁ ++ (b, B) :: l₂) (hB : B.nodes = ns₁ ++ c :: ns₂) :
    n.literals = (l₁.flatMap (·.2.nodes) ++ ns₁) ++ c :: (ns₂ ++ l₂.flatMap (·.2.nodes)) := by
  rw [Node.literals, h, List.flatMap_append, List.flatMap_cons, hB]
  simp

theorem At.kids_eq (h : At n ref f c k₁ k₂) : n.kids = k₁ ++ (f, c) :: k₂ := by
  cases h with
  | sharp h => simp [Node.kids, h]
  | star h => simp [Node.kids, h]
  | child hchain hB =>
    rw [Node.kids, Node.literals_of_chain hchain hB, Node.label_append, Node.label_cons]
    simp

theorem At.mem_kids (h : At n ref f c k₁ k₂) : (f, c) ∈ n.kids := by
  rw [h.kids_eq]
  simp

theorem Bucket.Solid.getElem?_children (h : B.Solid) (hB : B.nodes = ns₁ ++ c :: ns₂) :
    B.children[ns₁.length]? = some (.node c) := by
  rw [h.children_eq, hB, List.map_append, List.append_assoc,
    List.getElem?_append_right (by simp)]
  simp

theorem At.readChild (h : At n ref f c k₁ k₂) (hn : n.Shape) :
    readChild n ref = .ok (some c) := by
  cases h with
  | sharp h => exact congrArg _ h
  | star h => exact congrArg _ h
  | @child l₁ l₂ b B ns₁ ns₂ c hchain hB =>
    have hc := hn.chain
    have hsolid := hn.solid
    rw [hchain] at hc hsolid
    obtain ⟨next, hget, -⟩ := hc.get_write B
    have hslot := (hsolid _ List.mem_append_cons_self).getElem?_children hB
    rw [PeerSubscriptionTree.readChild, hget, Fallible.ok_bind]
    simp only [hslot]

/-! ## Changing a child -/

/-- The node keeps its fragment and its peers. -/
structure Node.SameSelf (n n' : Node) : Prop where
  fragment : n'.fragment = n.fragment
  fragmentIndex : n'.fragmentIndex = n.fragmentIndex
  peers : n'.peers = n.peers

theorem Node.SameSelf.refl (n : Node) : n.SameSelf n := ⟨rfl, rfl, rfl⟩

theorem Node.SameSelf.trans {n'' : Node} (h : n.SameSelf n') (h' : n'.SameSelf n'') :
    n.SameSelf n'' :=
  ⟨h'.1.trans h.1, h'.2.trans h.2, h'.3.trans h.3⟩

/-- The children in the buckets have fragments, and these are not tokens. -/
def Node.Literals (n : Node) : Prop :=
  ∀ c ∈ n.literals, ∃ f, c.fragment = some f ∧ f ≠ tokenSharp ∧ f ≠ tokenStar

/-- `tail` is the last bucket, if there is one. -/
def Node.TailOk (n : Node) : Prop :=
  lastAddr none n.chain = none ∨ n.tail = lastAddr none n.chain

instance (n : Node) : Decidable n.TailOk :=
  inferInstanceAs (Decidable (lastAddr none n.chain = none ∨ n.tail = lastAddr none n.chain))

/-- The pointers that are not in use are null. -/
def Bucket.Tidy (B : Bucket Node) : Prop := ∀ slot ∈ B.children.drop B.depth, slot = .null

/-- `tail` is the last bucket and the pointers that are not in use are null. -/
structure Node.Tidy (n : Node) : Prop where
  tail : n.TailOk
  buckets : ∀ b ∈ n.chain, b.2.Tidy

/-- Writing a child over another one in the nodes of a bucket. -/
theorem Bucket.Solid.set_nodes (h : B.Solid) (hB : B.nodes = ns₁ ++ c :: ns₂) (c' : Node) :
    let B' : Bucket Node := { B with children := B.children.set ns₁.length (.node c') }
    B'.Solid ∧ B'.nodes = ns₁ ++ c' :: ns₂ ∧ (B.Tidy → B'.Tidy) := by
  intro B'
  have hlen := h.length_nodes
  have hdepth : B.depth = (ns₁ ++ c' :: ns₂).length := by
    rw [← hlen, hB]
    simp
  have hchildren : B'.children =
      (ns₁ ++ c' :: ns₂).map Slot.node ++ B.children.drop B.depth := by
    have hset : B'.children = B.children.set ns₁.length (.node c') := rfl
    generalize hrest : B.children.drop B.depth = rest
    rw [hset, h.children_eq, hB, hrest]
    simp
  refine ⟨Bucket.solid_of_children hchildren hdepth ?_ (by simp),
    Bucket.nodes_of_children hchildren hdepth, fun htidy => ?_⟩
  · rw [← h.length]
    exact List.length_set
  · intro slot hslot
    refine htidy slot ?_
    rwa [hchildren, List.drop_left' (by rw [List.length_map]; exact hdepth.symm)] at hslot

/-- A node in shape with another bucket in the place of one of its own. -/
theorem Node.Shape.replace (hn : n.Shape) (hchain : n.chain = l₁ ++ (b, B) :: l₂)
    (hchain' : Chain n'.buckets n'.head (l₁ ++ (b, B') :: l₂)) (hB' : B'.Solid) : n'.Shape := by
  have hsolid := hn.solid
  rw [hchain] at hsolid
  refine ⟨hchain'.self, ?_⟩
  rw [Node.chain_eq hchain']
  intro d hd
  rcases List.mem_append.mp hd with hd | hd
  · exact hsolid d (List.mem_append_left _ hd)
  · rcases List.mem_cons.mp hd with rfl | hd
    · exact hB'
    · exact hsolid d (List.mem_append_right _ (List.mem_cons_of_mem _ hd))

theorem Node.Tidy.replace (hn : n.Tidy) (hchain : n.chain = l₁ ++ (b, B) :: l₂)
    (hchain' : Chain n'.buckets n'.head (l₁ ++ (b, B') :: l₂)) (htail : n'.tail = n.tail)
    (hB' : B.Tidy → B'.Tidy) : n'.Tidy := by
  have hbuckets := hn.buckets
  have htailOk := hn.tail
  rw [Node.TailOk, hchain, lastAddr_append_cons] at htailOk
  rw [hchain] at hbuckets
  refine ⟨?_, ?_⟩
  · rw [Node.TailOk, Node.chain_eq hchain', lastAddr_append_cons, htail]
    exact htailOk
  · rw [Node.chain_eq hchain']
    intro d hd
    rcases List.mem_append.mp hd with hd | hd
    · exact hbuckets d (List.mem_append_left _ hd)
    · rcases List.mem_cons.mp hd with rfl | hd
      · exact hB' (hbuckets (b, B) List.mem_append_cons_self)
      · exact hbuckets d (List.mem_append_right _ (List.mem_cons_of_mem _ hd))

/-- The addresses of the buckets and the numbers of their children. -/
def Node.layout (n : Node) : List (ℕ × ℕ) := n.chain.map fun b => (b.1, b.2.depth)

/-- **A change of a child.** -/
theorem At.write (h : At n ref f c k₁ k₂) (hn : n.Shape) (hc' : c'.fragment = c.fragment) :
    ∃ n', writeChild n c' ref = .ok n' ∧ At n' ref f c' k₁ k₂ ∧ n'.Shape ∧ n.SameSelf n' ∧
      (n.Tidy → n'.Tidy) ∧ (n.Literals → n'.Literals) ∧ n'.layout = n.layout := by
  cases h with
  | sharp h =>
    refine ⟨_, rfl, ?_, ⟨hn.chain, hn.solid⟩, ⟨rfl, rfl, rfl⟩, fun ht => ⟨ht.tail, ht.buckets⟩,
      fun hl => hl, rfl⟩
    exact At.sharp (n := { n with sharpNode := some c' }) rfl
  | star h =>
    refine ⟨_, rfl, ?_, ⟨hn.chain, hn.solid⟩, ⟨rfl, rfl, rfl⟩, fun ht => ⟨ht.tail, ht.buckets⟩,
      fun hl => hl, rfl⟩
    exact At.star (n := { n with starNode := some c' }) rfl
  | @child l₁ l₂ b B ns₁ ns₂ c hchain hB =>
    have hc := hn.chain
    have hsolid := hn.solid
    rw [hchain] at hc hsolid
    obtain ⟨hsolid', hnodes, htidy'⟩ := (hsolid _ List.mem_append_cons_self).set_nodes hB c'
    obtain ⟨next, hget, hwrite⟩ := hc.get_write
      { B with children := B.children.set ns₁.length (.node c') }
    rw [writeChild, hget, Fallible.ok_bind]
    refine ⟨_, rfl, ?_, hn.replace hchain hwrite hsolid', ⟨rfl, rfl, rfl⟩,
      fun ht => ht.replace hchain hwrite rfl htidy', fun hl d hd => ?_, ?_⟩
    · rw [← hc']
      exact At.child (Node.chain_eq hwrite) hnodes
    · rw [Node.Literals, Node.literals_of_chain hchain hB] at hl
      rw [Node.literals_of_chain (Node.chain_eq hwrite) hnodes] at hd
      rcases List.mem_append.mp hd with hd | hd
      · exact hl d (List.mem_append_left _ hd)
      · rcases List.mem_cons.mp hd with rfl | hd
        · rw [hc']
          exact hl c List.mem_append_cons_self
        · exact hl d (List.mem_append_right _ (List.mem_cons_of_mem _ hd))
    · rw [Node.layout, Node.layout, Node.chain_eq hwrite, hchain]
      simp

/-! ## Finding a child -/

theorem find_flatMap {α : Type} {g : α → List Node} {p : Node → Bool} {l : List α}
    (h : (l.flatMap g).find? p = some c) :
    ∃ l₁ x l₂ ns₁ ns₂, l = l₁ ++ x :: l₂ ∧ g x = ns₁ ++ c :: ns₂ ∧
      (∀ y ∈ l₁, ∀ d ∈ g y, p d = false) ∧ (∀ d ∈ ns₁, p d = false) ∧ p c = true := by
  induction l with
  | nil => simp at h
  | cons y l ih =>
    rw [List.flatMap_cons, List.find?_append] at h
    rcases hy : (g y).find? p with _ | d
    · rw [hy, Option.none_or] at h
      obtain ⟨l₁, x, l₂, ns₁, ns₂, rfl, hx, hl₁, hns₁, hc⟩ := ih h
      refine ⟨y :: l₁, x, l₂, ns₁, ns₂, rfl, hx, ?_, hns₁, hc⟩
      intro z hz
      rcases List.mem_cons.mp hz with rfl | hz
      · intro d hd
        exact Bool.eq_false_iff.mpr (List.find?_eq_none.mp hy d hd)
      · exact hl₁ z hz
    · rw [hy, Option.some_or] at h
      obtain ⟨hc, ns₁, ns₂, hns, hfail⟩ := List.find?_eq_some_iff_append.mp (hy.trans h)
      refine ⟨[], y, l, ns₁, ns₂, rfl, hns, by simp, ?_, hc⟩
      intro d hd
      simpa using hfail d hd

theorem Bucket.Solid.firstChild_miss {test : Node → Bool} (h : B.Solid)
    (hno : ∀ d ∈ B.nodes, test d = false) :
    firstChild test B (List.range B.depth) = .ok none := by
  rw [← h.length_nodes, firstChild_eq _ h.children_eq]
  refine congrArg _ (List.findIdx?_eq_none_iff.mpr hno)

theorem Bucket.Solid.firstChild_hit {test : Node → Bool} (h : B.Solid)
    (hB : B.nodes = ns₁ ++ c :: ns₂) (hno : ∀ d ∈ ns₁, test d = false) (hc : test c = true) :
    firstChild test B (List.range B.depth) = .ok (some ns₁.length) := by
  rw [← h.length_nodes, firstChild_eq _ h.children_eq, hB, List.findIdx?_append,
    List.findIdx?_eq_none_iff.mpr hno, List.findIdx?_cons, if_pos hc]
  simp

variable {bindingKey : BindingKey} {i : ℕ}

theorem getChildNode_sharp (h : BindingKey.getFragment bindingKey i = some tokenSharp) :
    getChildNode n bindingKey i = .ok (some .sharp) := by
  simp [getChildNode, h]

theorem getChildNode_star (h : BindingKey.getFragment bindingKey i = some tokenStar) :
    getChildNode n bindingKey i = .ok (some .star) := by
  simp [getChildNode, h, BindingKey.tokenStar_ne_tokenSharp]

theorem getChildNode_miss (hn : n.Shape)
    (hsharp : BindingKey.getFragment bindingKey i ≠ some tokenSharp)
    (hstar : BindingKey.getFragment bindingKey i ≠ some tokenStar)
    (hno : ∀ c ∈ n.literals, holdsFragment bindingKey c = false) :
    getChildNode n bindingKey i = .ok none := by
  rw [getChildNode]
  simp only [BindingKey.fragmentIsSharp_iff, BindingKey.fragmentIsStar_iff, if_neg hsharp,
    if_neg hstar]
  refine search_miss _ hn.chain (fun b B _ hB => ?_) hn.chain.length_le
  rw [(hn.solid _ hB).firstChild_miss fun d hd => hno d (List.mem_flatMap.mpr ⟨_, hB, hd⟩)]
  rfl

/-- **The first child that holds its fragment of the key is found.** -/
theorem getChildNode_hit (hn : n.Shape)
    (hsharp : BindingKey.getFragment bindingKey i ≠ some tokenSharp)
    (hstar : BindingKey.getFragment bindingKey i ≠ some tokenStar)
    (hfind : n.literals.find? (holdsFragment bindingKey) = some c) :
    ∃ ref k₁ k₂, getChildNode n bindingKey i = .ok (some ref) ∧ At n ref c.fragment c k₁ k₂ := by
  obtain ⟨l₁, ⟨b, B⟩, l₂, ns₁, ns₂, hchain, hB, hl₁, hns₁, hc⟩ := find_flatMap hfind
  have hsolid := hn.solid
  have hch := hn.chain
  rw [hchain] at hsolid hch
  refine ⟨_, _, _, ?_, At.child hchain hB⟩
  rw [getChildNode]
  simp only [BindingKey.fragmentIsSharp_iff, BindingKey.fragmentIsStar_iff, if_neg hsharp,
    if_neg hstar]
  refine search_hit _ hch (fun d D _ hD => ?_) ?_ ?_
  · rw [(hsolid _ (List.mem_append_left _ hD)).firstChild_miss (hl₁ _ hD)]
    rfl
  · rw [(hsolid _ List.mem_append_cons_self).firstChild_hit hB hns₁ hc]
    rfl
  · have hle := hch.length_le
    rw [List.length_append, List.length_cons] at hle
    omega

end PeerSubscriptionTree

end Cebus
