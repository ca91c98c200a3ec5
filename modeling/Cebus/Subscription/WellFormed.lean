import Cebus.Subscription.AbsentRemoval
import Cebus.Subscription.Unsubscribe
import Mathlib.Data.List.Flatten

/-!
# Well-formed buckets

Creation takes the last bucket from `tail` and a pointer that is not in use for null. A removal
changes neither `tail` nor what the `memmove` reads behind the last pointer of a full bucket.

* `removeNode_pruned`: what the removal of a child leaves of its parent.
* `updateNode_add_closed`, `updateNode_remove_kept`: what a call leaves of a node.
* `staysWellFormed`: the nodes are well formed all along a run in which no removal takes a child
  from a full bucket or the last child from the last bucket.
-/

namespace Cebus.PeerSubscriptionTree

open LinkedList PeerList Transition
open Node (label)

variable {n n' c c' : Node} {f : CString} {g : BindingKeyFragment} {ref : ChildRef} {j i fuel b : ℕ}
  {k₁ k₂ : List (BindingKeyFragment × Node)} {l₁ l₂ : List (ℕ × Bucket Node)} {B B' : Bucket Node}
  {ns₁ ns₂ : List Node} {q fs : List CString} {peer : Peer} {id : PeerId}
  {bindingKey : BindingKey} {t t' : PeerSubscriptionTree}

/-- Following `next` from `head` ends at `tail`, and in the buckets on the way the pointers that are
    not in use are null. -/
structure Node.Ends (n : Node) : Prop where
  tail : n.tail = lastAddr none n.chain
  unused : ∀ b ∈ n.chain, b.2.Tidy

/-- The buckets of a node are in order: each has from 1 to 32 children, which have different
    fragments, and below every child a peer is stored. -/
structure Node.WellFormed (n : Node) : Prop where
  shape : n.Shape
  ends : n.Ends
  distinct : (n.literals.map Node.fragment).Nodup
  used : ∀ f c, (f, c) ∈ n.kids → ∃ q id, c.Stored q id

/-- The buckets of every node are in order. -/
def WellFormed (t : PeerSubscriptionTree) : Prop :=
  Trie.Everywhere Node.kids (fun _ n => n.WellFormed) 0 t.root

/-- A bucket with a child under the fragment is not full, and it has other children or is not the
    last bucket. -/
def Node.spares (n : Node) (f : CString) : Bool :=
  n.chain.all fun b =>
    b.2.nodes.all (fun child => !BindingKey.fragmentEq child.fragment (some f)) ||
      !bucketFull b.2 && (b.2.depth ≠ 1 || lastAddr none n.chain ≠ some b.1)

/-- On its way a removal does not unlink the second entry of a list of peers, and takes children
    from buckets that can spare them. -/
def Node.prunes : Node → List CString → PeerId → Bool
  | n, [], id => n.peers.ids[1]? ≠ some id
  | n, f :: q, id => match n.under f with
    | none => true
    | some c => c.prunes q id && match nodeCount c.height c with
      | .ok 1 => n.spares f
      | _ => true

/-- An addition finds its lists and buckets open and goes to the children that there are; a
    removal of a pair that is stored prunes the tree as it should. -/
def Orderly (t : PeerSubscriptionTree) : SubscriptionCall → Prop
  | .add a => t.appends a = true ∧ t.reuses a = true
  | .remove a => BindingKey.isEmpty a.key = false →
      t.root.Stored ((a.key.getD []).map some) a.peer.peerId →
        t.root.prunes (a.key.getD []) a.peer.peerId = true

/-! ## Buckets and `tail` -/

theorem Node.Ends.tidy (h : n.Ends) : n.Tidy := ⟨Or.inr h.tail, h.unused⟩

theorem Node.Tidy.ends (h : n.Tidy) (hchain : n.chain ≠ []) : n.Ends := by
  refine ⟨h.tail.resolve_left fun hnone => hchain ?_, h.buckets⟩
  rwa [lastAddr, Option.or_none, Option.map_eq_none_iff, List.getLast?_eq_none_iff] at hnone

theorem Node.lastAddr_layout : lastAddr none n.layout = lastAddr none n.chain := by
  rw [lastAddr, lastAddr, Node.layout, List.getLast?_map, Option.map_map]
  rfl

theorem writeChild_tail (h : writeChild n c ref = .ok n') : n'.tail = n.tail := by
  cases ref with
  | sharp =>
    obtain rfl := Except.ok.inj h
    rfl
  | star =>
    obtain rfl := Except.ok.inj h
    rfl
  | child b i =>
    obtain ⟨bucket, -, h⟩ := Fallible.bind_eq_ok.mp h
    obtain rfl := Except.ok.inj h
    rfl

/-- A change of a child leaves the ends of the chain. -/
theorem Node.Ends.write (h : n.Ends) (hwrite : writeChild n c ref = .ok n')
    (htidy : n.Tidy → n'.Tidy) (hlayout : n'.layout = n.layout) : n'.Ends := by
  refine ⟨?_, (htidy h.tidy).buckets⟩
  rw [writeChild_tail hwrite, h.tail, ← Node.lastAddr_layout, ← Node.lastAddr_layout, hlayout]

/-- The children for the tokens need no bucket. -/
theorem getOrAddChildNode_token (hget : getOrAddChildNode n bindingKey i = .ok (n', ref))
    (href : ref = .sharp ∨ ref = .star) : n'.chain = n.chain ∧ n'.tail = n.tail := by
  obtain ⟨⟨m, ref'⟩, hchoose, h⟩ := Fallible.bind_eq_ok.mp hget
  obtain ⟨child, -, h⟩ := Fallible.bind_eq_ok.mp h
  have hm : ref' = ref ∧ n'.chain = m.chain ∧ n'.tail = m.tail := by
    rcases child with _ | child
    · obtain ⟨m', hwrite, h⟩ := Fallible.bind_eq_ok.mp h
      obtain ⟨rfl, rfl⟩ := Prod.mk.inj (Except.ok.inj h)
      refine ⟨rfl, ?_, writeChild_tail hwrite⟩
      rcases href with rfl | rfl
      · obtain rfl := Except.ok.inj hwrite
        rfl
      · obtain rfl := Except.ok.inj hwrite
        rfl
    · obtain ⟨rfl, rfl⟩ := Prod.mk.inj (Except.ok.inj h)
      exact ⟨rfl, rfl, rfl⟩
  obtain ⟨rfl, hchain, htail⟩ := hm
  rw [hchain, htail]
  unfold chooseChild at hchoose
  split_ifs at hchoose
  · obtain ⟨rfl, -⟩ := Prod.mk.inj (Except.ok.inj hchoose)
    exact ⟨rfl, rfl⟩
  · obtain ⟨rfl, -⟩ := Prod.mk.inj (Except.ok.inj hchoose)
    exact ⟨rfl, rfl⟩
  · -- the pointer to a literal child is in a bucket
    obtain ⟨⟨m', b⟩, -, hchoose⟩ := Fallible.bind_eq_ok.mp hchoose
    obtain ⟨bucket, -, hchoose⟩ := Fallible.bind_eq_ok.mp hchoose
    obtain ⟨found, -, hchoose⟩ := Fallible.bind_eq_ok.mp hchoose
    have hchild : ∃ b i, ref' = .child b i := by
      rcases found with _ | i
      · exact ⟨_, _, (Prod.mk.inj (Except.ok.inj hchoose)).2.symm⟩
      · exact ⟨_, _, (Prod.mk.inj (Except.ok.inj hchoose)).2.symm⟩
    obtain ⟨b, i, rfl⟩ := hchild
    rcases href with href | href
    · cases href
    · cases href

theorem At.token_or_chain (h : At n ref g c k₁ k₂) :
    (ref = .sharp ∨ ref = .star) ∨ n.chain ≠ [] := by
  cases h with
  | sharp _ => exact Or.inl (Or.inl rfl)
  | star _ => exact Or.inl (Or.inr rfl)
  | child hchain _ =>
    right
    rw [hchain]
    exact List.append_ne_nil_of_right_ne_nil _ (List.cons_ne_nil _ _)

/-- The place for a child is at the end of the chain, or in no bucket. -/
theorem Prepared.ends (hprep : Prepared n n' f c ref k₁ k₂) (h : n.Ends)
    (hget : getOrAddChildNode n bindingKey i = .ok (n', ref)) : n'.Ends := by
  rcases hprep.place.token_or_chain with href | hchain
  · obtain ⟨hchain, htail⟩ := getOrAddChildNode_token hget href
    refine ⟨?_, (hprep.tidy h.tidy).buckets⟩
    rw [htail, hchain, h.tail]
  · exact (hprep.tidy h.tidy).ends hchain

/-! ## Removing a child -/

/-- The bucket of a pointer is not full, and it has other children or is not the last one. -/
def Node.Spare (n : Node) (ref : ChildRef) : Prop :=
  ∀ b i, ref = .child b i → (b, bucketMax) ∉ n.layout ∧
    ((b, 1) ∈ n.layout → lastAddr none n.layout ≠ some b)

/-- The node keeps its peers and some of the children `k`: all of them, or at least one. -/
structure Node.Pruned (n n' : Node) (k : List (BindingKeyFragment × Node)) : Prop where
  self : n.SameSelf n'
  shape : n'.Shape
  ends : n.Ends → n'.Ends
  literals : n.Literals → n'.Literals
  kids : n'.kids.Sublist k
  left : n'.kids = k ∨ n'.kids ≠ []

/-- A chain of buckets that are in order, without a child of one of them. -/
theorem Node.pruned_of_chain {l : List (ℕ × Bucket Node)} (hat : n.chain = l₁ ++ (b, B) :: l₂)
    (hB : B.nodes = ns₁ ++ c :: ns₂) (hself : n.SameSelf n')
    (hsharp : n'.sharpNode = n.sharpNode) (hstar : n'.starNode = n.starNode)
    (hchain : Chain n'.buckets n'.head l) (hsolid : ∀ d ∈ l, d.2.Solid) (hne : l ≠ [])
    (hends : n.Ends → n'.Ends)
    (hsub : (l.flatMap (·.2.nodes)).Sublist
      ((l₁.flatMap (·.2.nodes) ++ ns₁) ++ (ns₂ ++ l₂.flatMap (·.2.nodes)))) :
    n.Pruned n' ((n.sharpNode.map (some tokenSharp, ·)).toList ++
      (n.starNode.map (some tokenStar, ·)).toList ++ label (l₁.flatMap (·.2.nodes) ++ ns₁) ++
      label (ns₂ ++ l₂.flatMap (·.2.nodes))) := by
  have hlits : n'.literals = l.flatMap (·.2.nodes) := by rw [Node.literals, Node.chain_eq hchain]
  refine ⟨hself, ⟨hchain.self, by rwa [Node.chain_eq hchain]⟩, hends, fun hl d hd => ?_, ?_,
    Or.inr ?_⟩
  · rw [Node.Literals, Node.literals_of_chain hat hB] at hl
    rw [hlits] at hd
    refine hl d ?_
    rcases List.mem_append.mp (hsub.subset hd) with hd | hd
    · exact List.mem_append_left _ hd
    · exact List.mem_append_right _ (List.mem_cons_of_mem _ hd)
  · rw [Node.kids, hsharp, hstar, hlits, List.append_assoc _ (label _), ← Node.label_append]
    exact (hsub.map _).append_left _
  · -- the first bucket has a child
    rcases l with _ | ⟨d, l⟩
    · exact absurd rfl hne
    · obtain ⟨e, he⟩ := List.exists_mem_of_ne_nil _ (hsolid d List.mem_cons_self).nodes_ne_nil
      have hmem : (e.fragment, e) ∈ n'.kids := by
        refine Node.mem_kids.mpr (Or.inr (Or.inr ⟨rfl, ?_⟩))
        rw [hlits]
        exact List.mem_flatMap.mpr ⟨d, List.mem_cons_self, he⟩
      exact List.ne_nil_of_mem hmem

/-- A bucket that has lost its only child is taken out, and it was not the last one. -/
theorem Node.pruned_of_unlink (hn : n.Shape) (hat : n.chain = l₁ ++ (b, B) :: l₂)
    (hB : B.nodes = [c]) (hself : n.SameSelf n') (hsharp : n'.sharpNode = n.sharpNode)
    (hstar : n'.starNode = n.starNode) (htail : n'.tail = n.tail)
    (hchain : Chain n'.buckets n'.head ((if l₁.length = 1 then [] else l₁) ++ l₂))
    (hl₂ : l₂ ≠ []) :
    n.Pruned n' ((n.sharpNode.map (some tokenSharp, ·)).toList ++
      (n.starNode.map (some tokenStar, ·)).toList ++ label (l₁.flatMap (·.2.nodes) ++ []) ++
      label ([] ++ l₂.flatMap (·.2.nodes))) := by
  have hsub := unlinked_sublist l₁ l₂
  have hothers : ∀ d ∈ (if l₁.length = 1 then [] else l₁) ++ l₂, d ∈ n.chain := by
    intro d hd
    rw [hat]
    rcases List.mem_append.mp (hsub.subset hd) with hd | hd
    · exact List.mem_append_left _ hd
    · exact List.mem_append_right _ (List.mem_cons_of_mem _ hd)
  refine Node.pruned_of_chain hat hB hself hsharp hstar hchain
    (fun d hd => hn.solid d (hothers d hd)) (List.append_ne_nil_of_right_ne_nil _ hl₂)
    (fun he => ⟨?_, ?_⟩) ?_
  · have hsplit : l₁ ++ (b, B) :: l₂ = l₁ ++ [(b, B)] ++ l₂ := by simp
    rw [htail, he.tail, hat, hsplit, Node.chain_eq hchain, lastAddr_append none hl₂,
      lastAddr_append none hl₂]
  · rw [Node.chain_eq hchain]
    exact fun d hd => he.unused d (hothers d hd)
  · rw [List.append_nil, List.nil_append, ← List.flatMap_append]
    exact hsub.flatMap _

/-- A bucket in which a child is missing, and others are left. -/
theorem Node.pruned_of_replace (hn : n.Shape) (hat : n.chain = l₁ ++ (b, B) :: l₂)
    (hB : B.nodes = ns₁ ++ c :: ns₂) (hself : n.SameSelf n')
    (hsharp : n'.sharpNode = n.sharpNode) (hstar : n'.starNode = n.starNode)
    (htail : n'.tail = n.tail) (hchain : Chain n'.buckets n'.head (l₁ ++ (b, B') :: l₂))
    (hsolid : B'.Solid) (htidy : B.Tidy → B'.Tidy) (hnodes : B'.nodes = ns₁ ++ ns₂) :
    n.Pruned n' ((n.sharpNode.map (some tokenSharp, ·)).toList ++
      (n.starNode.map (some tokenStar, ·)).toList ++ label (l₁.flatMap (·.2.nodes) ++ ns₁) ++
      label (ns₂ ++ l₂.flatMap (·.2.nodes))) := by
  have hothers := (hn.replace hat hchain hsolid).solid
  rw [Node.chain_eq hchain] at hothers
  refine Node.pruned_of_chain hat hB hself hsharp hstar hchain hothers (by simp) (fun he => ?_) ?_
  · apply (he.tidy.replace hat hchain htail htidy).ends
    rw [Node.chain_eq hchain]
    simp
  · rw [List.flatMap_append, List.flatMap_cons, hnodes]
    simp

/-- **The removal of a child** from a bucket that can spare it. -/
theorem removeNode_pruned (h : At n ref g c k₁ k₂) (hn : n.Shape) (hc : c.head = none)
    (hspare : n.Spare ref) : ∃ n', removeNode n ref = .ok n' ∧ n.Pruned n' (k₁ ++ k₂) := by
  have hfree : freeNode c = .ok () := by rw [freeNode, hc]
  rw [removeNode, h.readChild hn, Fallible.ok_bind]
  cases h with
  | sharp h =>
    simp only [hfree, Fallible.ok_bind]
    exact ⟨_, rfl, ⟨rfl, rfl, rfl⟩, ⟨hn.chain, hn.solid⟩, fun he => ⟨he.tail, he.unused⟩, id,
      List.Sublist.refl _, Or.inl rfl⟩
  | star h =>
    have hkids : ({ n with starNode := none } : Node).kids =
        (n.sharpNode.map (some tokenSharp, ·)).toList ++ label n.literals := by
      simp only [Node.kids, Option.map_none, Option.toList_none, List.append_nil]
      rfl
    simp only [hfree, Fallible.ok_bind]
    exact ⟨_, rfl, ⟨rfl, rfl, rfl⟩, ⟨hn.chain, hn.solid⟩, fun he => ⟨he.tail, he.unused⟩, id,
      by rw [hkids], Or.inl hkids⟩
  | @child l₁ l₂ b B ns₁ ns₂ c hchain hB =>
    have hch := hn.chain
    have hsolid := hn.solid
    rw [hchain] at hch hsolid
    have hBs := hsolid _ List.mem_append_cons_self
    obtain ⟨hnodes, hdepth, hsolid', htidy⟩ := hBs.closeGap_spec hB
    have hfound := search_addr (fun _ a => a) n.head hch hch.length_le
    obtain ⟨next, hget, hwrite⟩ := hch.get_write ⟨closeGap B ns₁.length, B.depth - 1⟩
    obtain ⟨hfull, hlast⟩ := hspare b _ rfl
    have hmem : (b, B.depth) ∈ n.layout := by
      rw [Node.layout, hchain, List.map_append, List.map_cons]
      exact List.mem_append_cons_self
    simp only [hfree, Fallible.ok_bind, hfound, hget]
    by_cases hempty : B.depth - 1 = 0
    · rw [if_pos hempty]
      have hone : B.depth = 1 := by
        have hpos : 0 < B.depth := hBs.pos
        omega
      have hl₂ : l₂ ≠ [] := by
        rintro rfl
        refine hlast (hone ▸ hmem) ?_
        rw [Node.lastAddr_layout, hchain, lastAddr_append_cons, lastAddr_nil]
      obtain ⟨n', hremove, hself, hsharp, hstar, htail, hchain'⟩ :=
        removeBucket_spec (n := { n with buckets := _ }) hwrite
      rw [hempty, eq_comm, List.length_eq_zero_iff, List.append_eq_nil_iff] at hdepth
      obtain ⟨rfl, rfl⟩ := hdepth
      exact ⟨n', hremove, Node.pruned_of_unlink hn hchain hB ⟨hself.1, hself.2, hself.3⟩ hsharp
        hstar htail hchain' hl₂⟩
    · rw [if_neg hempty]
      exact ⟨_, rfl, Node.pruned_of_replace hn hchain hB ⟨rfl, rfl, rfl⟩ rfl rfl rfl hwrite
        (hsolid' hempty) (fun ht => htidy ht fun heq => hfull (heq ▸ hmem)) hnodes⟩

/-! ## Nodes after a call -/

/-- The chain of every node ends at its `tail`. -/
abbrev Node.Closed : ℕ → Node → Prop := Trie.Everywhere Node.kids fun _ n => n.Ends

theorem nodeNew_closed : (nodeNew bindingKey i).Closed j := by
  refine Trie.Everywhere.leaf ⟨rfl, ?_⟩ nodeNew_kids
  rw [nodeNew_chain]
  exact fun b hb => absurd hb List.not_mem_nil

/-- **An addition** leaves all chains closed. -/
theorem updateNode_add_closed (h : n.Sound j) (hclosed : n.Closed j) (hne : fs ≠ [])
    (hfs : fs.drop j = q) (hj : j ≤ fs.length) (hp : peer.peerId.value.Plain)
    (happ : n.appends q peer.peerId = true) (hfuel : q.length < fuel)
    (hrun : updateNode peer (some fs) findOrAdd addOrUpdatePeer fuel (decide (j = 0)) n j =
      .ok n') :
    n'.Closed j := by
  induction q generalizing n n' j fuel with
  | nil =>
    obtain ⟨k, rfl⟩ := Nat.exists_eq_add_one_of_ne_zero (show fuel ≠ 0 by omega)
    rw [updateNode, if_pos ((isLeaf_iff h.here).mpr (leaf_of_drop hne hfs hj))] at hrun
    obtain ⟨peers, -, hrun⟩ := Fallible.bind_eq_ok.mp hrun
    obtain rfl := Except.ok.inj hrun
    exact hclosed.of_kids rfl ⟨hclosed.here.tail, hclosed.here.unused⟩
  | cons f q ih =>
    obtain ⟨k, rfl⟩ := Nat.exists_eq_add_one_of_ne_zero (show fuel ≠ 0 by omega)
    have hfuel : q.length < k := by simpa using hfuel
    obtain ⟨hlt, hrest, -⟩ := not_leaf_of_drop hfs
    have happendable : n.appendable f = true := by
      rw [Node.appends, Bool.and_eq_true] at happ
      exact happ.1
    generalize hchild : (n.holder f).getD (nodeNew (some fs) j) = child
    obtain ⟨hcs, hcapp, -⟩ := holder_or_new h happ hchild
    have hcclosed : child.Closed (j + 1) := hchild ▸ holder_everywhere hclosed nodeNew_closed
    obtain ⟨c', hrec, hadded⟩ := updateNode_add hcs hne hrest hlt hp hcapp hfuel
    obtain ⟨n₁, n₂, ref, k₁, k₂, hget, hprep, hwrite, hat₂, -, -, htidy₂, -, hlayout, hrun'⟩ :=
      updateNode_add_step h hfs happendable hchild hrec hadded
    obtain rfl := Except.ok.inj (hrun.symm.trans hrun')
    have hkids : n'.kids = k₁ ++ ((some c').map (some f, ·)).toList ++ k₂ := by
      rw [hat₂.kids_eq]
      simp
    refine hclosed.update hprep.kids hkids
      ((hprep.ends hclosed.here hget).write hwrite htidy₂ hlayout) ?_
    rintro d ⟨⟩
    exact ih hcs hcclosed hrest hlt hcapp hfuel hrec

/-- What the removal of the entry at the path `q` leaves of a node: nothing only if there was
    nothing else. -/
structure Kept (j : ℕ) (n n' : Node) (q : List CString) (id : PeerId) : Prop where
  sound : n'.Sound j
  separate : n'.Separate j
  closed : n'.Closed j
  fragment : n'.fragment = n.fragment
  spent : (∀ q' id', ¬n'.Stored q' id') →
    ∀ q' id', n.Stored q' id' → q' = q.map some ∧ id' = id

/-- At the end of its way a removal changes the list of peers. -/
theorem removePeer_kept (h : n.Sound j) (hsep : n.Separate j) (hclosed : n.Closed j)
    (hstored : n.Stored [] peer.peerId) (hprune : n.prunes [] peer.peerId = true) :
    ∃ n', removePeer n peer = .ok n' ∧ Kept j n n' [] peer.peerId := by
  obtain ⟨n', hrun, hremoved⟩ := removePeer_spec h hsep hstored hprune
  refine ⟨n', hrun, hremoved.sound, hremoved.separate, ?_, hremoved.fragment, ?_⟩
  · obtain ⟨r, -, hrun⟩ := Fallible.bind_eq_ok.mp hrun
    obtain rfl := Except.ok.inj hrun
    exact hclosed.of_kids rfl ⟨hclosed.here.tail, hclosed.here.unused⟩
  · intro hnone q' id' hs
    by_contra hother
    exact hnone q' id' ((hremoved.stored q' id').mpr ⟨hs, hother⟩)

/-- The bucket of a child that can be spared. -/
theorem Node.spare_of_spares (hn : n.Shape) (hat : At n ref (some f) c k₁ k₂)
    (h : n.spares f = true) : n.Spare ref := by
  rintro b i rfl
  generalize hfrag : some f = g at hat
  cases hat with
  | @child l₁ l₂ b B ns₁ ns₂ c hchain hB =>
    have hmem : (b, B) ∈ n.chain := by
      rw [hchain]
      exact List.mem_append_cons_self
    have hlayout {d : ℕ} (hd : (b, d) ∈ n.layout) : B.depth = d := by
      obtain ⟨⟨b', B'⟩, hB', heq⟩ := List.mem_map.mp hd
      obtain ⟨rfl, rfl⟩ := Prod.mk.inj heq
      obtain ⟨-, rfl⟩ := Prod.mk.inj (List.inj_on_of_nodup_map hn.chain.nodup hmem hB' rfl)
      rfl
    have hspares := List.all_eq_true.mp h _ hmem
    have hholds : ¬(B.nodes.all fun child => !BindingKey.fragmentEq child.fragment (some f)) =
        true := by
      intro hall
      have hother := List.all_eq_true.mp hall c (by rw [hB]; exact List.mem_append_cons_self)
      rw [Bool.not_eq_true', Bool.eq_false_iff] at hother
      exact hother (BindingKey.fragmentEq_iff.mpr hfrag.symm)
    rw [Bool.or_eq_true, or_iff_right hholds, Bool.and_eq_true, Bool.not_eq_true',
      Bool.eq_false_iff, Ne, bucketFull_iff, Bool.or_eq_true, decide_eq_true_iff,
      decide_eq_true_iff] at hspares
    refine ⟨fun hfull => hspares.1 (hlayout hfull), fun hone => ?_⟩
    rw [Node.lastAddr_layout]
    exact hspares.2.resolve_left fun hother => hother (hlayout hone)

/-- A child of which nothing is left is taken out. -/
theorem Kept.of_pruned {n₁ n₂ : Node} (h : n.Sound j) (hsep : n.Separate j) (hclosed : n.Closed j)
    (hkids : n.kids = k₁ ++ (some f, c) :: k₂) (hself : n.SameSelf n₁) (hends : n₁.Ends)
    (hlits : n₁.Literals) (hpruned : n₁.Pruned n₂ (k₁ ++ k₂))
    (honly : ∀ q' id', c.Stored q' id' → q' = q.map some ∧ id' = id) :
    Kept j n n₂ (f :: q) id := by
  have hn := h.here
  have hself₂ := hself.trans hpruned.self
  have hothers : (k₁ ++ k₂).Sublist n.kids := by
    rw [hkids]
    exact (List.sublist_cons_self _ _).append_left _
  have hsub := hpruned.kids.trans hothers
  have hused : ∀ f c, (f, c) ∈ n₂.kids → ∃ q id, c.Stored q id :=
    fun f c hc => hn.used f c (hsub.subset hc)
  refine ⟨h.of_subset hsub.subset ⟨hself₂.fragmentIndex.trans hn.index, hpruned.shape, ?_, ?_,
    hpruned.literals hlits, hused⟩, hsep.of_subset hsub.subset ?_,
    hclosed.of_subset hsub.subset (hpruned.ends hends), hself₂.fragment, ?_⟩
  · rw [hself₂.peers]
    exact hn.peers
  · rw [hself₂.peers]
    exact hn.counted
  · exact (hsub.map Prod.fst).nodup hsep.here
  · intro hnone q' id' hs
    rcases hpruned.left with hall | hsome
    · cases q' with
      | nil =>
        refine absurd (Node.stored_nil.mpr ?_) (hnone [] id')
        rw [Node.Holds, hself₂.peers]
        exact Node.stored_nil.mp hs
      | cons g q' =>
        obtain ⟨d, hd, hds⟩ := Node.stored_cons.mp hs
        rw [hkids, List.mem_append, List.mem_cons, or_left_comm, ← List.mem_append, ← hall] at hd
        rcases hd with heq | hd
        · obtain ⟨rfl, rfl⟩ := Prod.mk.inj heq
          obtain ⟨rfl, rfl⟩ := honly q' id' hds
          exact ⟨rfl, rfl⟩
        · exact absurd (Node.stored_cons.mpr ⟨d, hd, hds⟩) (hnone _ _)
    · obtain ⟨⟨g, d⟩, hd⟩ := List.exists_mem_of_ne_nil _ hsome
      obtain ⟨q'', id'', hs⟩ := hused g d hd
      exact absurd (Node.stored_cons.mpr ⟨d, hd, hs⟩) (hnone _ _)

/-- A child of which something is left stays. -/
theorem Kept.of_written {n₁ : Node} (h : n.Sound j) (hsep : n.Separate j) (hclosed : n.Closed j)
    (hat : At n ref (some f) c k₁ k₂) (hat₁ : At n₁ ref (some f) c' k₁ k₂) (hshape : n₁.Shape)
    (hself : n.SameSelf n₁) (hends : n₁.Ends) (hlits : n.Literals → n₁.Literals)
    (hkept : Kept (j + 1) c c' q id) (hsome : ∃ q' id', c'.Stored q' id') :
    Kept j n n₁ (f :: q) id := by
  have hkids : n.kids = k₁ ++ ((some c).map (some f, ·)).toList ++ k₂ := by
    rw [hat.kids_eq]
    simp
  have hkids₁ : n₁.kids = k₁ ++ ((some c').map (some f, ·)).toList ++ k₂ := by
    rw [hat₁.kids_eq]
    simp
  refine ⟨h.of_child hkids hkids₁ hshape hself hlits ?_, hsep.update hkids hkids₁ ?_ ?_,
    hclosed.update hkids hkids₁ hends ?_, hself.fragment, ?_⟩
  · rintro d ⟨⟩
    exact ⟨hkept.sound, hsome⟩
  · have hd : n.Distinct := hsep.here
    rw [Node.Distinct, hkids] at hd
    rw [Node.Distinct, hkids₁]
    simpa using hd
  · rintro d ⟨⟩
    exact hkept.separate
  · rintro d ⟨⟩
    exact hkept.closed
  · intro hnone
    obtain ⟨q', id', hs⟩ := hsome
    exact absurd (Node.stored_cons.mpr ⟨c', hat₁.mem_kids, hs⟩) (hnone _ _)

/-- **A removal** of a pair that is stored keeps the nodes in order. -/
theorem updateNode_remove_kept (h : n.Sound j) (hsep : n.Separate j) (hclosed : n.Closed j)
    (hne : fs ≠ []) (hfs : fs.drop j = q) (hj : j ≤ fs.length)
    (hstored : n.Stored (q.map some) peer.peerId) (hprune : n.prunes q peer.peerId = true)
    (hfuel : q.length < fuel) :
    ∃ n', updateNode peer (some fs) find removePeer fuel (decide (j = 0)) n j = .ok n' ∧
      Kept j n n' q peer.peerId := by
  induction q generalizing n j fuel with
  | nil =>
    obtain ⟨k, rfl⟩ := Nat.exists_eq_add_one_of_ne_zero (show fuel ≠ 0 by omega)
    rw [updateNode, if_pos ((isLeaf_iff h.here).mpr (leaf_of_drop hne hfs hj))]
    exact removePeer_kept h hsep hclosed hstored hprune
  | cons f q ih =>
    obtain ⟨k, rfl⟩ := Nat.exists_eq_add_one_of_ne_zero (show fuel ≠ 0 by omega)
    have hfuel : q.length < k := by simpa using hfuel
    obtain ⟨hlt, hrest, -⟩ := not_leaf_of_drop hfs
    obtain ⟨c, hc, hcstored⟩ := Node.stored_cons.mp hstored
    have hunder := Node.under_eq_some h.here.literals hsep.here hc
    simp only [Node.prunes, hunder, Bool.and_eq_true] at hprune
    obtain ⟨c', hrec, hkept⟩ := ih (h.child hc) (hsep.child hc) (hclosed.child hc) hrest hlt
      hcstored hprune.1 hfuel
    obtain ⟨n₁, ref, k₁, k₂, count, hat, hwrite, hat₁, hshape₁, hself₁, htidy₁, hlits₁, hlayout,
      hzero, hrun⟩ := updateNode_remove_step h hfs hunder hrec hkept.fragment hkept.sound
    have hends₁ : n₁.Ends := hclosed.here.write hwrite htidy₁ hlayout
    rw [hrun]
    by_cases hcount : count = 0
    · rw [if_pos hcount]
      have hnone := hzero.mp hcount
      have honly := hkept.spent hnone
      have hkids' : c'.kids = [] := by
        refine List.eq_nil_iff_forall_not_mem.mpr ?_
        rintro ⟨g, d⟩ hd
        obtain ⟨q', id', hs⟩ := hkept.sound.here.used g d hd
        exact hnone _ _ (Node.stored_cons.mpr ⟨d, hd, hs⟩)
      have hone := nodeCount_eq_one (h.child hc) (hsep.child hc) hcstored honly
      rw [hone] at hprune
      have hspare : n₁.Spare ref := by
        have hspare := Node.spare_of_spares h.here.shape hat hprune.2
        rwa [Node.Spare, ← hlayout] at hspare
      obtain ⟨n₂, hremove, hpruned⟩ := removeNode_pruned hat₁ hshape₁
        (hkept.sound.here.shape.head_eq_none hkids') hspare
      exact ⟨n₂, hremove, Kept.of_pruned h hsep hclosed hat.kids_eq hself₁ hends₁
        (hlits₁ h.here.literals) hpruned honly⟩
    · rw [if_neg hcount]
      refine ⟨n₁, rfl, Kept.of_written h hsep hclosed hat hat₁ hshape₁ hself₁ hends₁ hlits₁
        hkept ?_⟩
      by_contra hno
      push Not at hno
      exact hcount (hzero.mpr hno)

/-! ## Runs -/

/-- Every node of the tree is in order. -/
structure Intact (t : PeerSubscriptionTree) : Prop where
  sound : t.root.Sound 0
  separate : t.root.Separate 0
  closed : t.root.Closed 0

theorem Intact.wellFormed (h : t.Intact) : t.WellFormed := by
  refine ((h.sound.and h.separate).and h.closed).mono ?_
  rintro j n ⟨⟨hn, hdistinct⟩, hends⟩
  refine ⟨hn.shape, hends, ?_, hn.used⟩
  rw [Node.Distinct, Node.kids, List.map_append, List.nodup_append] at hdistinct
  have hlits := hdistinct.2.1
  rwa [Node.label, List.map_map] at hlits

theorem intact_init (count : ℕ) : (init count).Intact :=
  ⟨nodeNew_sound rfl, nodeNew_separate, nodeNew_closed⟩

/-- `cb_peer_subscription_tree_add` keeps the nodes in order. -/
theorem Intact.add {a : Subscription} (h : t.Intact) (happ : t.appends a = true)
    (hreuses : t.reuses a = true) (hadd : PeerSubscriptionTree.add t a.peer a.key = .ok t') :
    t'.Intact := by
  unfold PeerSubscriptionTree.add at hadd
  rw [appends] at happ
  rcases Subscription.key_cases a with ⟨hempty, -⟩ | ⟨fs, hkey, hne, hempty, -⟩
  · rw [if_pos hempty] at hadd
    obtain ⟨peers, -, hadd⟩ := Fallible.bind_eq_ok.mp hadd
    obtain rfl := Except.ok.inj hadd
    exact ⟨h.sound, h.separate, h.closed⟩
  · have hempty' : ¬BindingKey.isEmpty a.key = true := by simp [hempty]
    rw [if_neg hempty', hkey, Option.getD_some] at happ
    rw [reuses, hempty, hkey] at hreuses
    rw [if_neg hempty', hkey] at hadd
    obtain ⟨root, hroot, hadd⟩ := Fallible.bind_eq_ok.mp hadd
    obtain rfl := Except.ok.inj hadd
    have hfuel : fs.length < BindingKey.fragmentCount (some fs) + 1 := Nat.lt_succ_self _
    obtain ⟨root', hroot', hadded⟩ := updateNode_add h.sound hne List.drop_zero (Nat.zero_le _)
      a.plain happ hfuel
    have hsame : root' = root := Except.ok.inj (hroot'.symm.trans hroot)
    rw [hsame] at hadded
    exact ⟨hadded.sound, hadded.separate h.separate hreuses, updateNode_add_closed h.sound h.closed
      hne List.drop_zero (Nat.zero_le _) a.plain happ hfuel hroot⟩

/-- `cb_peer_subscription_tree_remove` keeps the nodes in order. -/
theorem Intact.remove {a : Subscription} (h : t.Intact) (hC : t.Orderly (.remove a))
    (hremove : PeerSubscriptionTree.remove t a.peer a.key = .ok t') : t'.Intact := by
  unfold PeerSubscriptionTree.remove at hremove
  rcases Subscription.key_cases a with ⟨hempty, -⟩ | ⟨fs, hkey, hne, hempty, -⟩
  · rw [if_pos hempty] at hremove
    obtain ⟨peers, -, hremove⟩ := Fallible.bind_eq_ok.mp hremove
    obtain rfl := Except.ok.inj hremove
    exact ⟨h.sound, h.separate, h.closed⟩
  · have hprune := hC hempty
    have hempty' : ¬BindingKey.isEmpty a.key = true := by simp [hempty]
    rw [hkey, Option.getD_some] at hprune
    rw [if_neg hempty', hkey] at hremove
    obtain ⟨root, hroot, hremove⟩ := Fallible.bind_eq_ok.mp hremove
    obtain rfl := Except.ok.inj hremove
    have hfuel : fs.length < BindingKey.fragmentCount (some fs) + 1 := Nat.lt_succ_self _
    by_cases hstored : t.root.Stored (fs.map some) a.peer.peerId
    · obtain ⟨root', hroot', hkept⟩ := updateNode_remove_kept h.sound h.separate h.closed hne
        List.drop_zero (Nat.zero_le _) hstored (hprune hstored) hfuel
      have hsame : root' = root := Except.ok.inj (hroot'.symm.trans hroot)
      rw [hsame] at hkept
      exact ⟨hkept.sound, hkept.separate, hkept.closed⟩
    · -- a pair that is not stored leaves the tree as it is
      have habsent := updateNode_absent h.sound hne List.drop_zero (Nat.zero_le _) hstored hfuel
      have hsame := hroot.symm.trans habsent
      split_ifs at hsame
      · obtain rfl := Except.ok.inj hsame
        exact ⟨h.sound, h.separate, h.closed⟩

theorem Intact.callStep {call : SubscriptionCall} (h : t.Intact) (hC : t.Orderly call)
    (hs : PeerSubscriptionTree.callStep t call = some t') : t'.Intact := by
  cases call with
  | add a => exact h.add hC.1 hC.2 (Fallible.toOption_eq_some.mp hs)
  | remove a => exact h.remove hC (Fallible.toOption_eq_some.mp hs)

/-- **The buckets of every node stay in order** all along a run whose additions find their lists
    and buckets open and go to the children that there are, and in which the removals of stored
    pairs unlink no second entry of a list of peers and take no child from a full bucket nor the
    last child from a last bucket. -/
theorem staysWellFormed (count : ℕ) (calls : List SubscriptionCall)
    (h : Meets callStep Orderly (init count) calls) :
    Always callStep WellFormed (init count) calls := by
  intro calls' t hpre ht
  have hmeets : Meets callStep Orderly (init count) calls' :=
    fun es e u w hes => h es e u w (hes.trans hpre)
  exact (hmeets.invariant (intact_init count) (fun t call t' hI hC hs => hI.callStep hC hs)
    ht).wellFormed

/-- A null pointer. -/
def Slot.isNull : Slot Node → Bool
  | .null => true
  | _ => false

/-- 32 keys of one fragment, which fill a bucket, and the first of them removed again. -/
def fullBucket : List SubscriptionCall :=
  (List.range 32).map (fun i => .add (letter i)) ++ [.remove (letter 0)]

/-- The number of the children is moved into the pointer behind them. -/
theorem not_always_wellFormed : ¬∀ count calls pairs, run pairStep [] calls = some pairs →
    Always callStep WellFormed (init count) calls := by
  intro h
  have hslots : (run callStep (init 0) fullBucket).map (fun t => t.root.chain.all fun b =>
      (b.2.children.drop b.2.depth).all Slot.isNull) = some false := by decide +kernel
  obtain ⟨t, hrun, hslots⟩ := Option.map_eq_some_iff.mp hslots
  have hwf := h 0 fullBucket ((List.range 31).map fun i => letter (i + 1)) (by decide +kernel) _ t
    List.prefix_rfl hrun
  rw [Bool.eq_false_iff] at hslots
  refine hslots (List.all_eq_true.mpr fun b hb => List.all_eq_true.mpr fun slot hslot => ?_)
  rw [hwf.here.ends.unused b hb slot hslot]
  rfl

/-- One of two children of a bucket is removed. -/
theorem staysWellFormed_two : Always callStep WellFormed (init 0)
    [.add (letter 0), .add (letter 1), .remove (letter 0)] := by
  apply staysWellFormed
  have hguarded : Guarded callStep (fun t call => (match call with
      | .add a => t.appends a && t.reuses a
      | .remove a => t.root.prunes (a.key.getD []) a.peer.peerId) = true) (init 0)
      [.add (letter 0), .add (letter 1), .remove (letter 0)] := by decide +kernel
  intro calls call t t' hpre ht _
  have hC := hguarded calls call t hpre ht
  cases call with
  | add a => exact Bool.and_eq_true_iff.mp hC
  | remove a => exact fun _ _ => hC

end Cebus.PeerSubscriptionTree
