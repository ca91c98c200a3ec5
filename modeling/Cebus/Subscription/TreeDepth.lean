import Cebus.Peer.PeerListLinked
import Cebus.Subscription.TreeAdd
import Cebus.Subscription.TreeRemove

/-!
# How deep the recursions go

In a tree that additions of any peers under any keys have made, the three
operations go down one node for each fragment of a key. Whatever else they run
into, they do not exceed this.

* `add_grown`: an addition goes down along the key, and leaves the tree in order.
* `remove_shapely`: a removal goes down along the key.
* `collect_linked`: a collection goes down along the key.
* `add_unbounded`: an addition under a key without fragments never comes to an end.
-/

namespace Cebus.PeerSubscriptionTree

open LinkedList Fallible PeerList

variable {n n' c : Node} {j i fuel : ℕ} {bindingKey : BindingKey} {peer : Peer}
  {f : BindingKeyFragment} {fs q : List CString} {peers : PeerList} {ref : ChildRef}
  {k₁ k₂ : List (BindingKeyFragment × Node)}

/-! ## Trees that have grown -/

/-- A node at the distance `j` from the root, in which nothing has been removed. -/
structure Node.Regular (j : ℕ) (n : Node) : Prop where
  index : n.fragmentIndex = j - 1
  shape : n.Shape
  tidy : n.Tidy
  literals : n.Literals
  peers : n.peers.Linked
  counted : n.peers.Counted

/-- Every node of the tree is as additions leave it. -/
abbrev Node.Grown : ℕ → Node → Prop := Trie.Everywhere Node.kids Node.Regular

/-- Every node of the tree has its buckets in a chain. -/
abbrev Node.Shapely : ℕ → Node → Prop := Trie.Everywhere Node.kids fun _ n => n.Shape

/-- There is an entry at the node or below it. -/
def Node.Occupied (n : Node) : Prop :=
  ∃ q, Trie.Stored Node.kids (fun n (_ : Unit) => n.peers.count ≠ 0) n q ()

theorem Node.Grown.shapely (h : n.Grown j) : n.Shapely j := h.mono fun _ _ hn => hn.shape

theorem nodeNew_grown (h : i = j - 1) : (nodeNew bindingKey i).Grown j := by
  refine Trie.Everywhere.leaf ⟨h, ⟨rfl, ?_⟩, ⟨Or.inl rfl, ?_⟩, ?_, linked_init 0, rfl⟩ nodeNew_kids
  · rw [nodeNew_chain]
    simp
  · rw [nodeNew_chain]
    simp
  · intro c hc
    cases hc

/-! ## Counting -/

/-- A count ends, and counts what there is. -/
def CountEnds (fuel : ℕ) (n : Node) : Prop :=
  ∃ k, nodeCount fuel n = .ok k ∧ (n.Occupied → k ≠ 0)

theorem countEnds_kids {ks : List (BindingKeyFragment × Node)}
    (h : ∀ f c, (f, c) ∈ ks → CountEnds fuel c) (count : ℕ) :
    ∃ k, ks.foldlM (fun count child => (count + ·) <$> nodeCount fuel child.2) count =
        .ok (count + k) ∧ ∀ f c, (f, c) ∈ ks → c.Occupied → k ≠ 0 := by
  induction ks generalizing count with
  | nil => exact ⟨0, rfl, fun _ _ hc => nomatch hc⟩
  | cons fc ks ih =>
    obtain ⟨f, c⟩ := fc
    obtain ⟨k, hk, hocc⟩ := h f c List.mem_cons_self
    obtain ⟨k', hk', hocc'⟩ := ih (fun g d hd => h g d (List.mem_cons_of_mem _ hd)) (count + k)
    refine ⟨k + k', ?_, fun g d hd hd' => ?_⟩
    · rw [List.foldlM_cons, hk, map_ok, ok_bind, hk', Nat.add_assoc]
    · rcases List.mem_cons.1 hd with heq | hd
      · obtain ⟨-, rfl⟩ := Prod.mk.inj heq
        have := hocc hd'
        omega
      · have := hocc' g d hd hd'
        omega

/-- **A count ends.** -/
theorem nodeCount_shapely (h : n.Shapely j) (hfuel : n.height ≤ fuel) : CountEnds fuel n := by
  induction h generalizing fuel with
  | @mk j n hn _ ih =>
    have hpos := n.height_pos
    obtain ⟨k, rfl⟩ := Nat.exists_eq_add_one_of_ne_zero (show fuel ≠ 0 by omega)
    have hkids : ∀ f c, (f, c) ∈ n.kids → CountEnds k c := by
      intro f c hc
      have hlt := Node.height_lt_of_kids hc
      exact ih f c hc (by omega)
    obtain ⟨m, hm, hocc⟩ := countEnds_kids hkids n.peers.count
    refine ⟨_, by rw [nodeCount, foldChildren_eq hn, hm], ?_⟩
    rintro ⟨q, hq⟩
    cases hq with
    | here hv => omega
    | step hc hq =>
      have := hocc _ _ hc ⟨_, hq⟩
      omega

/-! ## Additions -/

/-- What an addition leaves of a node. -/
structure AddedTo (j : ℕ) (n n' : Node) : Prop where
  grown : n'.Grown j
  occupied : n'.Occupied
  fragment : n'.fragment = n.fragment

theorem addOrUpdatePeer_grown (h : n.Grown j) (peer : Peer) :
    Avoids Fault.fuel (AddedTo j n) (addOrUpdatePeer n peer) := by
  have hn := h.here
  apply (insert_linked hn.peers peer).bind
  rintro peers ⟨hlinked, hcounted⟩
  obtain ⟨hcounted, hcount⟩ := hcounted hn.counted
  refine ⟨h.of_kids rfl ?_, ⟨[], Trie.Stored.here hcount⟩, rfl⟩
  exact ⟨hn.index, ⟨hn.shape.chain, hn.shape.solid⟩, ⟨hn.tidy.tail, hn.tidy.buckets⟩, hn.literals,
    hlinked, hcounted⟩

/-- **An addition goes down along the key.** -/
theorem add_grown (h : n.Grown j) (hne : fs ≠ []) (hfs : fs.drop j = q) (hj : j ≤ fs.length)
    (hfuel : q.length < fuel) :
    Avoids Fault.fuel (AddedTo j n)
      (updateNode peer (some fs) findOrAdd addOrUpdatePeer fuel (decide (j = 0)) n j) := by
  induction q generalizing n j fuel with
  | nil =>
    obtain ⟨k, rfl⟩ := Nat.exists_eq_add_one_of_ne_zero (show fuel ≠ 0 by omega)
    rw [updateNode, if_pos ((isLeaf_iff_of_index h.here.index).mpr (leaf_of_drop hne hfs hj))]
    exact addOrUpdatePeer_grown h peer
  | cons g q ih =>
    obtain ⟨k, rfl⟩ := Nat.exists_eq_add_one_of_ne_zero (show fuel ≠ 0 by omega)
    have hn := h.here
    have hfuel : q.length < k := by simpa using hfuel
    obtain ⟨hlt, hrest, hleaf⟩ := not_leaf_of_drop hfs
    obtain ⟨n₁, ref, k₁, k₂, hget, hprep⟩ := getOrAdd_at hn.shape
      (BindingKey.getFragment_of_drop hfs) (hn.tidy.appendable hn.shape)
    rw [updateNode, if_neg (by rwa [isLeaf_iff_of_index hn.index]), findOrAdd, hget]
    simp only [ok_bind, hprep.place.readChild hprep.shape]
    rw [show false = decide (j + 1 = 0) from rfl]
    apply (ih (holder_everywhere h (nodeNew_grown rfl)) hrest hlt hfuel).bind
    intro c' hadded
    obtain ⟨n₂, hwrite, hat₂, hshape₂, hself₂, htidy₂, hlits₂, -⟩ :=
      hprep.place.write hprep.shape hadded.fragment
    -- there is an entry below the child, so that it is not removed
    obtain ⟨count, hcount, hocc⟩ := nodeCount_shapely hadded.grown.shapely (Nat.le_refl _)
    simp only [hwrite, ok_bind, hcount, if_neg (hocc hadded.occupied)]
    have hself := hprep.self.trans hself₂
    obtain ⟨path, hpath⟩ := hadded.occupied
    have hkids₂ : n₂.kids = k₁ ++ ((some c').map (some g, ·)).toList ++ k₂ := by
      rw [hat₂.kids_eq]
      simp
    refine ⟨h.update hprep.kids hkids₂ ?_ ?_,
      ⟨_, Trie.Stored.step hat₂.mem_kids hpath⟩, hself.fragment⟩
    · exact ⟨hself.fragmentIndex.trans hn.index, hshape₂, htidy₂ (hprep.tidy hn.tidy),
        hlits₂ (hprep.literals hn.literals), hself.peers ▸ hn.peers, hself.peers ▸ hn.counted⟩
    · rintro d ⟨⟩
      exact hadded.grown

/-! ## Removals -/

/-- The search for a child. -/
theorem getChildNode_cases (hn : n.Shape) (bindingKey : BindingKey) (i : ℕ) :
    getChildNode n bindingKey i = .ok none ∨
      ∃ ref, getChildNode n bindingKey i = .ok (some ref) ∧
        (readChild n ref = .ok none ∨ ∃ f c k₁ k₂, At n ref f c k₁ k₂) := by
  by_cases hsharp : BindingKey.getFragment bindingKey i = some tokenSharp
  · refine .inr ⟨.sharp, getChildNode_sharp hsharp, ?_⟩
    rcases h : n.sharpNode with _ | c
    · exact .inl (congrArg Except.ok h)
    · exact .inr ⟨_, c, _, _, At.sharp h⟩
  by_cases hstar : BindingKey.getFragment bindingKey i = some tokenStar
  · refine .inr ⟨.star, getChildNode_star hstar, ?_⟩
    rcases h : n.starNode with _ | c
    · exact .inl (congrArg Except.ok h)
    · exact .inr ⟨_, c, _, _, At.star h⟩
  rcases hfind : n.literals.find? (holdsFragment bindingKey) with _ | c
  · refine .inl (getChildNode_miss hn hsharp hstar fun c hc => ?_)
    exact Bool.eq_false_iff.mpr (List.find?_eq_none.mp hfind c hc)
  · obtain ⟨ref, k₁, k₂, hget, hat⟩ := getChildNode_hit hn hsharp hstar hfind
    exact .inr ⟨ref, hget, .inr ⟨_, c, k₁, k₂, hat⟩⟩

/-- The node has its buckets in a chain, and no other children than before. -/
structure Node.Shrunk (n n' : Node) : Prop where
  shape : n'.Shape
  kids : ∀ fc ∈ n'.kids, fc ∈ n.kids
  fragment : n'.fragment = n.fragment

theorem freeNode_avoids (n : Node) : Avoids Fault.fuel (fun _ => True) (freeNode n) := by
  unfold freeNode
  cases n.head with
  | none => trivial
  | some a => exact nofun

/-- Fewer literal children in buckets that are in order. -/
theorem Node.shrunk_of_chain {l : List (ℕ × Bucket Node)} (hself : n.SameSelf n')
    (hsharp : n'.sharpNode = n.sharpNode) (hstar : n'.starNode = n.starNode)
    (hchain : Chain n'.buckets n'.head l) (hsolid : ∀ d ∈ l, d.2.Solid)
    (hlits : ∀ d ∈ l, ∀ c ∈ d.2.nodes, c ∈ n.literals) : n.Shrunk n' where
  shape := ⟨hchain.self, by rwa [Node.chain_eq hchain]⟩
  fragment := hself.fragment
  kids := by
    rintro ⟨f, c⟩ hc
    rw [Node.mem_kids] at hc ⊢
    rw [hsharp, hstar] at hc
    refine hc.imp_right (Or.imp_right ?_)
    rintro ⟨hf, hc⟩
    rw [Node.literals, Node.chain_eq hchain] at hc
    obtain ⟨d, hd, hc⟩ := List.mem_flatMap.1 hc
    exact ⟨hf, hlits d hd c hc⟩

/-- **A child is taken out**, or the program traps. -/
theorem removeNode_shrunk (h : At n ref f c k₁ k₂) (hn : n.Shape) :
    Avoids Fault.fuel n.Shrunk (removeNode n ref) := by
  rw [removeNode, h.readChild hn, ok_bind]
  cases h with
  | sharp h =>
    apply (freeNode_avoids c).bind
    intro _ _
    refine ⟨⟨hn.chain, hn.solid⟩, ?_, rfl⟩
    rintro ⟨g, d⟩ hd
    rw [Node.mem_kids] at hd ⊢
    exact hd.imp_left fun h => by cases h.2
  | star h =>
    apply (freeNode_avoids c).bind
    intro _ _
    refine ⟨⟨hn.chain, hn.solid⟩, ?_, rfl⟩
    rintro ⟨g, d⟩ hd
    rw [Node.mem_kids] at hd ⊢
    exact hd.imp_right (Or.imp_left fun h => by cases h.2)
  | @child l₁ l₂ b B ns₁ ns₂ c hchain hB =>
    have hch := hn.chain
    have hsolid := hn.solid
    rw [hchain] at hch hsolid
    obtain ⟨hnodes, -, hsolid', -⟩ := (hsolid _ List.mem_append_cons_self).closeGap_spec hB
    have hfound := search_addr (fun _ a => a) n.head hch hch.length_le
    obtain ⟨next, hget, hwrite⟩ := hch.get_write ⟨closeGap B ns₁.length, B.depth - 1⟩
    have hothers : ∀ d ∈ l₁ ++ l₂, d ∈ l₁ ++ (b, B) :: l₂ := by
      intro d hd
      rcases List.mem_append.1 hd with hd | hd
      · exact List.mem_append_left _ hd
      · exact List.mem_append_right _ (List.mem_cons_of_mem _ hd)
    simp only [hfound, ok_bind]
    apply (freeNode_avoids c).bind
    intro _ _
    simp only [hget, ok_bind]
    split_ifs with hempty
    · obtain ⟨n', hremove, hself, hsharp, hstar, -, hchain'⟩ :=
        removeBucket_spec (n := { n with buckets := _ }) hwrite
      have hsub := unlinked_sublist l₁ l₂
      have hshrunk : n.Shrunk n' := by
        refine Node.shrunk_of_chain ⟨hself.1, hself.2, hself.3⟩ hsharp hstar hchain'
          (fun d hd => hsolid d (hothers d (hsub.subset hd))) fun d hd c hc => ?_
        rw [Node.literals, hchain]
        exact List.mem_flatMap.2 ⟨d, hothers d (hsub.subset hd), hc⟩
      have hok : Avoids Fault.fuel n.Shrunk (.ok n') := hshrunk
      rwa [← hremove] at hok
    · obtain ⟨hkids, -⟩ := Node.without_child { n with buckets := _ } hchain hB rfl rfl (by
        rw [Node.literals, Node.chain_eq hwrite, List.flatMap_append, List.flatMap_cons, hnodes]
        simp)
      refine ⟨hn.replace hchain hwrite (hsolid' hempty), fun fc hfc => ?_, rfl⟩
      rw [(At.child hchain hB).kids_eq]
      rcases List.mem_append.1 ((congrArg (fc ∈ ·) hkids).mp hfc) with hfc | hfc
      · exact List.mem_append_left _ hfc
      · exact List.mem_append_right _ (List.mem_cons_of_mem _ hfc)

/-- What a removal leaves of a node. -/
structure RemovedFrom (j : ℕ) (n n' : Node) : Prop where
  shapely : n'.Shapely j
  fragment : n'.fragment = n.fragment

/-- **A removal goes down along the key.** -/
theorem remove_shapely (h : n.Grown j) (hne : fs ≠ []) (hfs : fs.drop j = q) (hj : j ≤ fs.length)
    (hfuel : q.length < fuel) :
    Avoids Fault.fuel (RemovedFrom j n)
      (updateNode peer (some fs) find removePeer fuel (decide (j = 0)) n j) := by
  induction q generalizing n j fuel with
  | nil =>
    obtain ⟨k, rfl⟩ := Nat.exists_eq_add_one_of_ne_zero (show fuel ≠ 0 by omega)
    rw [updateNode, if_pos ((isLeaf_iff_of_index h.here.index).mpr (leaf_of_drop hne hfs hj))]
    apply (remove_avoids h.here.peers peer).bind
    intro _ _
    have hn := h.here.shape
    exact ⟨h.shapely.of_kids rfl ⟨hn.chain, hn.solid⟩, rfl⟩
  | cons g q ih =>
    obtain ⟨k, rfl⟩ := Nat.exists_eq_add_one_of_ne_zero (show fuel ≠ 0 by omega)
    have hn := h.here
    have hfuel : q.length < k := by simpa using hfuel
    obtain ⟨hlt, hrest, hleaf⟩ := not_leaf_of_drop hfs
    rw [updateNode, if_neg (by rwa [isLeaf_iff_of_index hn.index]), find]
    rcases getChildNode_cases hn.shape (some fs) j with hmiss | ⟨ref, hget, hread⟩
    · rw [hmiss]
      exact ⟨h.shapely, rfl⟩
    rw [hget]
    rcases hread with hnull | ⟨f, c, k₁, k₂, hat⟩
    · -- the token has no node, and `NULL` is followed
      simp only [ok_bind, hnull]
      intro hfault
      cases hfault
    simp only [ok_bind, hat.readChild hn.shape]
    rw [show false = decide (j + 1 = 0) from rfl]
    apply (ih (h.child hat.mem_kids) hrest hlt hfuel).bind
    intro c' hremoved
    obtain ⟨n₁, hwrite, hat₁, hshape₁, hself₁, -⟩ := hat.write hn.shape hremoved.fragment
    obtain ⟨count, hcount, -⟩ := nodeCount_shapely hremoved.shapely (Nat.le_refl _)
    have hn₁ : n₁.Shapely j := by
      have hkids : n.kids = k₁ ++ ((some c).map (f, ·)).toList ++ k₂ := by
        rw [hat.kids_eq]
        simp
      have hkids₁ : n₁.kids = k₁ ++ ((some c').map (f, ·)).toList ++ k₂ := by
        rw [hat₁.kids_eq]
        simp
      refine h.shapely.update hkids hkids₁ hshape₁ ?_
      rintro d ⟨⟩
      exact hremoved.shapely
    simp only [hwrite, ok_bind, hcount]
    split_ifs
    · refine (removeNode_shrunk hat₁ hshape₁).mono fun n' hn' => ⟨?_, ?_⟩
      · exact Trie.Everywhere.mk hn'.shape fun g d hd => hn₁.child (hn'.kids _ hd)
      · rw [hn'.fragment, hself₁.fragment]
    · exact ⟨hn₁, hself₁.fragment⟩

/-! ## Collections -/

/-- **Everything below a node is offered** after as many steps as the tree is high. -/
theorem offerAll_linked (h : n.Grown j) (hfuel : n.height ≤ fuel) (hpeers : peers.Linked) :
    Avoids Fault.fuel Linked (offerAll fuel peers n) := by
  induction h generalizing fuel peers with
  | @mk j n hn _ ih =>
    have hpos := n.height_pos
    obtain ⟨k, rfl⟩ := Nat.exists_eq_add_one_of_ne_zero (show fuel ≠ 0 by omega)
    apply (offer_linked hn.peers hpeers).bind
    intro peers hpeers
    rw [foldChildren_eq hn.shape]
    apply Avoids.foldlM hpeers
    rintro ⟨f, c⟩ hc peers hpeers
    have hlt := Node.height_lt_of_kids hc
    exact ih f c hc (by omega) hpeers

theorem Node.found_mem (h : n.found bindingKey i = some c) : ∃ f, (f, c) ∈ n.kids := by
  unfold Node.found at h
  split_ifs at h
  · exact ⟨_, Node.mem_kids.2 (.inl ⟨rfl, h⟩)⟩
  · exact ⟨_, Node.mem_kids.2 (.inr (.inl ⟨rfl, h⟩))⟩
  · exact ⟨_, Node.mem_kids.2 (.inr (.inr ⟨rfl, List.mem_of_find?_eq_some h⟩))⟩

/-- A visit of a child, if there is one. -/
theorem elim_linked {o : Option Node} {visit : Node → Except Fault PeerList}
    (hpeers : peers.Linked) (h : ∀ c, o = some c → Avoids Fault.fuel Linked (visit c)) :
    Avoids Fault.fuel Linked (o.elim (.ok peers) visit) := by
  cases o with
  | none => exact hpeers
  | some c => exact h c rfl

/-- **A collection goes down along the key.** -/
theorem collect_linked (h : n.Grown j) (hne : fs ≠ []) (hj : j ≤ fs.length)
    (hfuel : fs.length < j + fuel) (hpeers : peers.Linked) :
    Avoids Fault.fuel Linked (collect (some fs) fuel (decide (j = 0)) peers n) := by
  induction fuel generalizing n j peers with
  | zero => omega
  | succ k ih =>
    have hn := h.here
    by_cases hleaf : Leaf (some fs) j
    · rw [collect, if_pos ((isLeaf_iff_of_index hn.index).mpr hleaf)]
      exact offer_linked hn.peers hpeers
    · have hlt : j < fs.length := by
        apply Nat.lt_of_le_of_ne hj
        intro heq
        have hpos := List.length_pos_iff.2 hne
        exact hleaf ⟨by omega, heq⟩
      have hchild {f : BindingKeyFragment} {c : Node} (hc : (f, c) ∈ n.kids) {peers : PeerList}
          (hpeers : peers.Linked) :
          Avoids Fault.fuel Linked (collect (some fs) k false peers c) :=
        ih (h.child hc) hlt (by omega) hpeers
      rw [collect_eq hn.index hn.shape hleaf k peers]
      refine Avoids.bind (Avoids.bind (elim_linked hpeers fun _ _ => ?_) fun peers hpeers =>
        elim_linked hpeers fun c hc => ?_) fun peers hpeers => elim_linked hpeers fun c hc => ?_
      · exact offerAll_linked h (Nat.le_refl _) hpeers
      · exact hchild (Node.mem_kids.2 (.inr (.inl ⟨rfl, hc⟩))) hpeers
      · obtain ⟨f, hmem⟩ := Node.found_mem hc
        exact hchild hmem hpeers

/-! ## Keys without fragments -/

/-- A child for a fragment that is not there is a new one. -/
theorem getOrAdd_none (hn : n.Shape) (ht : n.Tidy) (hl : n.Literals)
    (hkey : BindingKey.getFragment bindingKey i = none) :
    ∃ n' ref, getOrAddChildNode n bindingKey i = .ok (n', ref) ∧
      readChild n' ref = .ok (some (nodeNew bindingKey i)) := by
  obtain ⟨m, b, B, l, hget, -, -, -, -, hchain, hB⟩ := getOrAddBucket_spec hn ht.tail
  have hnone : ∀ L ∈ n.openBucket, ∀ d ∈ L.nodes,
      BindingKey.fragmentEq d.fragment none = false := by
    intro L hopen d hd
    obtain ⟨⟨l', a, hl'⟩, -⟩ := Node.openBucket_eq_some.mp hopen
    obtain ⟨f, hf, -⟩ := hl d (List.mem_flatMap.2 ⟨(a, L), by rw [hl']; simp, hd⟩)
    rw [hf]
    rfl
  obtain ⟨ns, rest, rfl, hno, -⟩ := bucket_for_new hn hnone (ht.roomy hn) hchain hB
  obtain ⟨m', n', hchoose, hread, hwrite, -, -, -, -, hchain'⟩ :=
    addInBucket hchain hno (nodeNew bindingKey i)
  refine ⟨n', .child b ns.length, ?_, ?_⟩
  · rw [getOrAddChildNode, hkey, chooseChild]
    simp only [BindingKey.fragmentIsSharp_iff, BindingKey.fragmentIsStar_iff, reduceCtorEq,
      if_false, hget, ok_bind, hchoose, hread, hwrite]
  · obtain ⟨next, hcell, -⟩ := hchain'.get_write ⟨[], 0⟩
    rw [readChild, hcell, ok_bind]
    simp

/-- **An addition under a key without fragments never comes to an end**: whatever
    the depth, it goes on to a child that it has just made. -/
theorem add_unbounded {isRoot : Bool} (hn : n.Shape) (ht : n.Tidy) (hl : n.Literals) :
    updateNode peer (some []) findOrAdd addOrUpdatePeer fuel isRoot n i = .error .fuel := by
  induction fuel generalizing isRoot n i with
  | zero => rfl
  | succ k ih =>
    have hleaf : isLeaf isRoot n (some []) = false := by
      unfold isLeaf
      cases isRoot with
      | true => rfl
      | false => exact decide_eq_false (Nat.succ_ne_zero n.fragmentIndex)
    have hkey : BindingKey.getFragment (some []) i = none := rfl
    obtain ⟨n', ref, hget, hread⟩ := getOrAdd_none hn ht hl hkey
    have hgrown : (nodeNew (some []) i).Grown (i + 1) := nodeNew_grown rfl
    have hnew := hgrown.here
    rw [updateNode, hleaf, findOrAdd, hget]
    simp only [Bool.false_eq_true, if_false, ok_bind, hread, ih hnew.shape hnew.tidy hnew.literals,
      error_bind]

end Cebus.PeerSubscriptionTree
